import Mathlib.Data.List.Chain
import Mustache.Proofs.Template.Depth
import Mustache.Proofs.Tree.Trimming

/-!
# Mustache.Proofs.Template.NormalForm

The form of compiled instructions.

No two texts stand next to each other, in no list of instructions and at no depth (`Op.Normal`). It
is enough that a text is put in front of instructions by `Op.append`: what stood between two texts
and has left no instruction is gone by then. No text is lost that way (`Expands.literalAll_eq`), and
none is empty if the trees were parsed (`Expands.ne_empty`).
-/

namespace Mustache

open Node

namespace Op

def isText : Op → Bool
  | .text _ => true
  | _ => false

/-- No two texts stand next to each other. -/
def Merged (ops : List Op) : Prop := ops.IsChain fun op next => ¬(op.isText ∧ next.isText)

/-- These instructions are merged, and so are all that are inside of them. -/
structure Normal (ops : List Op) : Prop where
  top : Merged ops
  bodies : Op.All (fun op => Merged op.body) ops

mutual

/-- The literal text in an instruction, without that of partials. -/
def literal : Op → List Char
  | .text s => s.toList
  | .block _ body _ _ | .inverted _ body => literalAll body
  | _ => []

def literalAll : List Op → List Char
  | [] => []
  | op :: ops => literal op ++ literalAll ops

end

section Forms

variable {op : Op} {ops : List Op}

@[simp] theorem isText_ofBlock (path : String) (inverted : Bool) (body : List Op) (raw : String)
    (delimiters : Delimiters) : (ofBlock path inverted body raw delimiters).isText = false := by
  cases inverted <;> rfl

theorem ne_text (h : op.isText = false) (s : String) : op ≠ .text s := by
  rintro rfl
  cases h

theorem Merged.cons (hop : op.isText = false) (h : Merged ops) : Merged (op :: ops) := by
  refine List.isChain_cons.2 ⟨fun next _ hboth => ?_, h⟩
  rw [hop] at hboth
  exact Bool.false_ne_true hboth.1

/-- A text that `ops` begins with goes into the new one, and it had no other behind it. -/
theorem Merged.append_text (s : String) (h : Merged ops) : Merged (Op.append [.text s] ops) := by
  cases ops with
  | nil => exact List.isChain_singleton _
  | cons first ops =>
    obtain ⟨hfirst, hops⟩ := List.isChain_cons.1 h
    cases first with
    | text s' => exact List.isChain_cons.2 ⟨hfirst, hops⟩
    | _ => exact List.isChain_cons_cons.2 ⟨fun hboth => Bool.false_ne_true hboth.2, h⟩

theorem Normal.nil : Normal [] := ⟨List.isChain_nil, .nil⟩

theorem Normal.cons (hop : op.isText = false) (hbody : Normal op.body) (hops : Normal ops) :
    Normal (op :: ops) :=
  ⟨hops.top.cons hop, .cons hbody.top hbody.bodies hops.bodies⟩

theorem Normal.append_text (s : String) (h : Normal ops) : Normal (Op.append [.text s] ops) :=
  ⟨h.top.append_text s, h.bodies.append_text fun _ _ => List.isChain_nil⟩

theorem literal_ofBlock (path : String) (inverted : Bool) (body : List Op) (raw : String)
    (delimiters : Delimiters) :
    (ofBlock path inverted body raw delimiters).literal = literalAll body := by
  cases inverted <;> rw [ofBlock] <;> rfl

theorem literalAll_append_text (s : String) (ops : List Op) :
    literalAll (Op.append [.text s] ops) = s.toList ++ literalAll ops := by
  cases ops with
  | nil => rfl
  | cons first ops =>
    cases first with
    | text s' => simp only [append, literalAll, literal, String.toList_append, List.append_assoc]
    | _ => rfl

end Forms

end Op

/-! ## Compiling -/

section Compiled

variable {partials : PartialSources} {delimiters : Delimiters} {left : Nat}
  {enclosing : List String} {nodes : List Node} {known known' : List Dependency} {ops : List Op}

theorem Expands.normal (h : Expands partials delimiters left enclosing nodes known ops known') :
    Op.Normal ops := by
  induction h with
  | nil => exact .nil
  | text _ ih => exact ih.append_text _
  | comment _ ih => exact ih
  | interpolation _ ih => exact .cons rfl .nil ih
  | block _ _ ihc ih => exact .cons (Op.isText_ofBlock ..) ((Op.body_ofBlock ..).symm ▸ ihc) ih
  | reference _ _ ih => exact .cons rfl .nil ih
  | missing _ _ _ _ ih => exact ih
  | inlined _ _ _ _ _ _ ihb ih => exact .cons rfl ihb ih

theorem textsAll_cons (node : Node) (nodes : List Node) :
    textsAll (node :: nodes) = node.leaves.filterMap text? ++ textsAll nodes := by
  rw [textsAll, leavesAll, List.filterMap_append, textsAll]

theorem not_mem_textsAll_cons {node : Node} :
    [] ∉ textsAll (node :: nodes) ↔ [] ∉ node.leaves.filterMap text? ∧ [] ∉ textsAll nodes := by
  rw [textsAll_cons, List.mem_append, not_or]

/-- Merging loses no text. -/
theorem Expands.literalAll_eq
    (h : Expands partials delimiters left enclosing nodes known ops known') :
    Op.literalAll ops = (textsAll nodes).flatten := by
  induction h with
  | nil => rfl
  | text _ ih => rw [Op.literalAll_append_text, ih, textsAll_cons]; rfl
  | comment _ ih => rw [ih, textsAll_cons]; rfl
  | interpolation _ ih => rw [Op.literalAll, ih, textsAll_cons]; rfl
  | block _ _ ihc ih =>
    rw [Op.literalAll, Op.literal_ofBlock, ihc, ih, textsAll_cons, List.flatten_append]
    rfl
  | reference _ _ ih => rw [Op.literalAll, ih, textsAll_cons]; rfl
  | missing _ _ _ _ ih => rw [ih, textsAll_cons]; rfl
  | inlined _ _ _ _ _ _ _ ih => rw [Op.literalAll, ih, textsAll_cons]; rfl

theorem Op.append_text_ne_empty {s : String} (hs : [] ∉ [Node.text s].filterMap text?)
    (s' : String) : Op.text (s ++ s') ≠ .text "" := by
  intro hempty
  have hboth : s = "" ∧ s' = "" := String.append_eq_empty_iff.1 (Op.text.inj hempty)
  rw [hboth.1] at hs
  exact hs List.mem_cons_self

/-- The trees of partials are parsed, so only the texts of the tree itself matter. -/
theorem Expands.ne_empty (h : Expands partials delimiters left enclosing nodes known ops known')
    (hne : [] ∉ textsAll nodes) : Op.All (· ≠ .text "") ops := by
  induction h with
  | nil => exact .nil
  | text _ ih =>
    obtain ⟨hs, hnodes⟩ := not_mem_textsAll_cons.1 hne
    exact .append_text (fun s' _ => Op.append_text_ne_empty hs s') (ih hnodes)
  | comment _ ih => exact ih (not_mem_textsAll_cons.1 hne).2
  | interpolation _ ih => exact .cons nofun .nil (ih (not_mem_textsAll_cons.1 hne).2)
  | block _ _ ihc ih =>
    obtain ⟨hchildren, hnodes⟩ := not_mem_textsAll_cons.1 hne
    exact .cons (Op.ne_text (Op.isText_ofBlock ..) "")
      ((Op.body_ofBlock ..).symm ▸ ihc hchildren) (ih hnodes)
  | reference _ _ ih => exact .cons nofun .nil (ih (not_mem_textsAll_cons.1 hne).2)
  | missing _ _ _ _ ih => exact ih (not_mem_textsAll_cons.1 hne).2
  | inlined _ _ _ htree _ _ ihb ih =>
    obtain ⟨_, _, _, _, htrimmed⟩ := parse_trimmed htree
    exact .cons nofun (ihb htrimmed.nonempty) (ih (not_mem_textsAll_cons.1 hne).2)

/-- Whatever tree is compiled, and with whatever partials, texts that meet are one text, and none is
lost. -/
theorem Tree.compile_normal {tree : Tree} {options : CompilerOptions} {t : Template}
    (h : tree.compile delimiters options partials = .ok t) :
    Op.Normal t.ops ∧ Op.literalAll t.ops = (textsAll tree).flatten ∧
      ((∃ source pair, Tree.parse source pair = .ok tree) → Op.All (· ≠ .text "") t.ops) := by
  obtain ⟨ops, dependencies, hops, rfl⟩ := compile_eq_ok_iff.1 h
  refine ⟨hops.normal, hops.literalAll_eq, fun ⟨source, pair, htree⟩ => hops.ne_empty ?_⟩
  obtain ⟨_, _, _, _, htrimmed⟩ := parse_trimmed htree
  exact htrimmed.nonempty

/-- Texts around a comment, new delimiters, a partial that does not exist, and one that does. -/
theorem Tree.compile_normal_merged :
    let source := "a\x7b\x7b! note \x7d\x7db\x7b\x7b=<% %>=\x7d\x7dc<%>missing%>d" ++
      "<%#s%>e<%>p%>f<%/s%>"
    let partials := PartialSources.ofList [("p", "x\x7b\x7b! note \x7d\x7dy")]
    let options : CompilerOptions := { includePartialCode := true }
    ∃ tree t, Tree.parse source.toList .standard = .ok tree ∧
      tree.compile .standard options partials = .ok t ∧
      (t.ops.map Op.isText = [true, false] ∧
        (t.ops.flatMap Op.body).map Op.isText = [true, false, true] ∧
        ((t.ops.flatMap Op.body).flatMap Op.body).map Op.isText = [true]) ∧
      Op.Normal t.ops ∧ Op.literalAll t.ops = (textsAll tree).flatten ∧
      Op.All (· ≠ .text "") t.ops := by
  intro source partials options
  obtain ⟨t, ht, hshape⟩ : ∃ t, Template.ofSource source .standard options partials = .ok t ∧
      (t.ops.map Op.isText = [true, false] ∧
        (t.ops.flatMap Op.body).map Op.isText = [true, false, true] ∧
        ((t.ops.flatMap Op.body).flatMap Op.body).map Op.isText = [true]) :=
    exists_ok_of_check (by decide +kernel)
  rw [Template.ofSource] at ht
  split at ht
  · cases ht
  · rename_i tree htree
    obtain ⟨hnormal, hliteral, hne⟩ := Tree.compile_normal ht
    exact ⟨tree, t, htree, ht, hshape, hnormal, hliteral, hne ⟨_, _, htree⟩⟩

end Compiled

end Mustache
