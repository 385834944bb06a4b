import Mustache.Proofs.Scanner.Standalone
import Mustache.Proofs.Tree.Lines

/-!
# Mustache.Proofs.Tree.Trimming

The texts of a tree against the source.

The nodes of a tree that are no sections, in document order (`Node.leavesAll`), are what the scanner
gives, one literal text after the other and each tag behind the text before it (`laidOut`). Of a
literal text the tree keeps what is left by the lone tags next to it (`Trims`), so what is lost of
the source are the tags and the lines of those that are alone, and nothing else (`parse_trimmed`).
-/

namespace Mustache

open Text

namespace Node

mutual

/-- The nodes that are no sections, at every depth, in document order. -/
def leaves : Node → List Node
  | .block _ _ children _ _ _ _ => leavesAll children
  | node => [node]

def leavesAll : List Node → List Node
  | [] => []
  | node :: nodes => leaves node ++ leavesAll nodes

end

def text? (node : Node) : Option (List Char) :=
  match node with
  | .text s => some s.toList
  | _ => none

def textsAll (nodes : List Node) : List (List Char) := (leavesAll nodes).filterMap text?

theorem leavesAll_append (nodes more : List Node) :
    leavesAll (nodes ++ more) = leavesAll nodes ++ leavesAll more := by
  induction nodes with
  | nil => rfl
  | cons node nodes ih => simp only [List.cons_append, leavesAll, ih, List.append_assoc]

theorem leavesAll_reverse_cons (node : Node) (nodes : List Node) :
    leavesAll (node :: nodes).reverse = leavesAll nodes.reverse ++ node.leaves := by
  simp only [List.reverse_cons, leavesAll_append, leavesAll, List.append_nil]

end Node

open Node

/-- The node of a tag that is no part of a section. -/
def SpannedToken.leaf? (source : List Char) (tag : SpannedToken) : Option Node :=
  match tag.token with
  | .interpolation path escaped => some (.interpolation path escaped tag.span)
  | .partialTag name => some (.partialTag name (String.ofList (tag.leading source)) tag.span)
  | .comment s => some (.comment s tag.span)
  | .text s => some (.text s)
  | _ => none

/-- The nodes of what the scanner gives, when these texts stay of the literal ones. -/
def laidOut (source : List Char) : List Scanned → List (List Char) → List Node
  | item :: items, left :: texts =>
    textNodes left ++ (item.tag.bind (SpannedToken.leaf? source)).toList ++
      laidOut source items texts
  | _, _ => []

/-! ## Nesting tag by tag -/

namespace Nesting

def outerLeaves : List OpenSection → List Node
  | [] => []
  | o :: outer => outerLeaves outer ++ leavesAll o.earlier.reverse

def leaves (n : Nesting) : List Node := outerLeaves n.outer ++ leavesAll n.nodes.reverse

section Steps

variable {n n' : Nesting} {source : List Char} {tag : SpannedToken}

theorem leaves_push (n : Nesting) {node : Node} (hnode : node.leaves = [node]) :
    (n.push node).leaves = n.leaves ++ [node] := by
  simp only [leaves, push, leavesAll_reverse_cons, hnode, List.append_assoc]

theorem leaves_literal (n : Nesting) (item : Scanned) :
    (n.literal item).leaves = n.leaves ++
      textNodes (trimmed item.literal n.strip (item.tag.bind SpannedToken.trimmable)) := by
  rw [literal, pushText]
  generalize trimmed item.literal n.strip (item.tag.bind SpannedToken.trimmable) = text
  cases htext : text.isEmpty with
  | true =>
    rw [textNodes, htext, if_pos rfl, if_pos rfl, List.append_nil]
    rfl
  | false =>
    rw [textNodes, htext, if_neg Bool.false_ne_true, if_neg Bool.false_ne_true]
    exact leaves_push n rfl

theorem addTag_partial {name : String} (htoken : tag.token = .partialTag name) :
    n.addTag source tag =
      .ok (n.push (.partialTag name (tag.trimmable.elim "" (·.indent)) tag.span)) := by
  obtain ⟨token, span, standalone⟩ := tag
  obtain rfl : token = .partialTag name := htoken
  cases standalone <;> rfl

theorem leaves_addTag (htold : tag.Told source) (hadd : n.addTag source tag = .ok n') :
    n'.leaves = n.leaves ++ (tag.leaf? source).toList := by
  cases htoken : tag.token with
  | partialTag name =>
    rw [addTag_partial htoken, htold.indent_eq] at hadd
    cases hadd
    simp only [SpannedToken.leaf?, htoken]
    exact leaves_push n rfl
  | text | interpolation | comment =>
    simp only [addTag, htoken] at hadd
    cases hadd
    simp only [SpannedToken.leaf?, htoken]
    exact leaves_push n rfl
  | sectionOpen | invertedOpen =>
    simp only [addTag, htoken] at hadd
    cases hadd
    simp [leaves, openSection, outerLeaves, leavesAll, SpannedToken.leaf?, htoken]
  | sectionClose name =>
    simp only [addTag, htoken] at hadd
    obtain ⟨o, outer, houter, -, rfl⟩ := of_closeSection hadd
    simp only [leaves, houter, outerLeaves, leavesAll_reverse_cons, Node.leaves,
      SpannedToken.leaf?, htoken, Option.toList_none, List.append_assoc, List.append_nil]
  | delimiterChange d =>
    simp only [addTag, htoken] at hadd
    cases hadd
    simp [leaves, SpannedToken.leaf?, htoken]

/-- The text that stays of a literal text; the counts reach no further than what they count. -/
theorem trimmed_eq (htold : tag.Told source) (claimed text : List Char) :
    trimmed (claimed ++ (text ++ tag.leading source)) claimed.length tag.trimmable = text := by
  have hindent := htold.indent_eq
  rw [trimmed.eq_def, List.drop_left]
  cases htrimmable : tag.trimmable with
  | none =>
    rw [htrimmable] at hindent
    have hleading : tag.leading source = [] := (String.ofList_eq_empty_iff).1 hindent.symm
    rw [hleading, List.append_nil]
  | some lone =>
    rw [htrimmable] at hindent
    have hindent : lone.indent = String.ofList (tag.leading source) := hindent
    simp [hindent]

end Steps

/-- A nesting that has been told of all tags holds the nodes of what is laid out. -/
theorem leaves_addAll {n n' : Nesting} {source scanned claimed rest : List Char}
    {items : List Scanned} {texts : List (List Char)}
    (h : Trims source scanned claimed rest items texts)
    (htold : ∀ tag ∈ Scanned.tags items, tag.Told source) (hstrip : n.strip = claimed.length)
    (hadd : n.addAll source items = .ok n') :
    n'.leaves = n.leaves ++ laidOut source items texts := by
  induction h generalizing n with
  | done =>
    cases hadd
    exact (List.append_nil _).symm
  | @last scanned claimed text span =>
    cases hadd
    show (n.literal ⟨claimed ++ text, span, none⟩).leaves = _
    rw [leaves_literal, hstrip]
    simp [trimmed, laidOut]
  | @tag scanned claimed literal text written rest span tag items texts hliteral hspan _ ih =>
    rw [Scanned.tags_some, List.forall_mem_cons] at htold
    rw [addAll, add_eq] at hadd
    split at hadd
    · cases hadd
    · rename_i n₁ hadd₁
      have hn₁ : n₁.leaves = n.leaves ++ textNodes text ++ (tag.leaf? source).toList := by
        rw [leaves_addTag htold.1 hadd₁, leaves_literal, Option.bind_some, hstrip, hliteral,
          trimmed_eq htold.1]
      have hstrip₁ : n₁.strip = (tag.trailing source).length := by
        rw [strip_addTag hadd₁, ← htold.1.claim_eq literal span]
        rfl
      rw [ih htold.2 hstrip₁ hadd, hn₁, laidOut, Option.bind_some]
      simp only [List.append_assoc]

end Nesting

/-! ## Trees -/

section LaidOut

variable {source scanned claimed rest : List Char} {items : List Scanned}
  {texts : List (List Char)}

theorem filterMap_textNodes (s : List Char) :
    (textNodes s).filterMap text? = [s].filter (· ≠ []) := by
  cases s with
  | nil => rfl
  | cons c s => simp [textNodes, text?]

theorem filterMap_leaf? {tag : SpannedToken} (htag : tag.token.IsTag) :
    (tag.leaf? source).toList.filterMap text? = [] := by
  cases htoken : tag.token with
  | text s =>
    rw [htoken] at htag
    exact htag.elim
  | _ => simp [SpannedToken.leaf?, htoken, text?]

theorem Trims.filterMap_laidOut (h : Trims source scanned claimed rest items texts)
    (htags : ∀ tag ∈ Scanned.tags items, tag.token.IsTag) :
    (laidOut source items texts).filterMap text? = texts.filter (· ≠ []) := by
  induction h with
  | done => rfl
  | @last scanned claimed text span =>
    rw [laidOut, List.filterMap_append, List.filterMap_append, filterMap_textNodes]
    simp [laidOut]
  | @tag scanned claimed literal text written rest span tag items texts _ _ _ ih =>
    rw [Scanned.tags_some, List.forall_mem_cons] at htags
    rw [laidOut, Option.bind_some, List.filterMap_append, List.filterMap_append,
      filterMap_textNodes, filterMap_leaf? htags.1, ih htags.2, List.append_nil,
      ← List.filter_append, List.singleton_append]

theorem partial_of_mem_laidOut {name indent : String} {span : Span}
    (h : Node.partialTag name indent span ∈ laidOut source items texts) :
    ∃ tag ∈ Scanned.tags items, tag.token = .partialTag name ∧ tag.span = span ∧
      indent = String.ofList (tag.leading source) := by
  induction items generalizing texts with
  | nil => simp [laidOut] at h
  | cons item items ih =>
    cases texts with
    | nil => simp [laidOut] at h
    | cons left texts =>
      rw [laidOut, List.mem_append, List.mem_append] at h
      obtain ⟨literal, covered, tag⟩ := item
      rcases h with (h | h) | h
      · rw [textNodes] at h
        split at h <;> simp at h
      · cases tag with
        | none => simp at h
        | some tag =>
          refine ⟨tag, by simp, ?_⟩
          have hleaf : tag.leaf? source = some (.partialTag name indent span) := by simpa using h
          cases htoken : tag.token <;> simp [SpannedToken.leaf?, htoken] at hleaf ⊢
          exact ⟨hleaf.1, hleaf.2.2, hleaf.2.1.symm⟩
      · obtain ⟨tag', htag', hspec⟩ := ih h
        refine ⟨tag', ?_, hspec⟩
        cases tag with
        | none => exact htag'
        | some tag => exact List.mem_cons_of_mem _ htag'

end LaidOut

theorem parse_laidOut {source : List Char} {pair : UsableDelimiters} {tree : Tree}
    (h : Tree.parse source pair.val = .ok tree) :
    ∃ items texts, Scans [] pair source items none ∧ Trims source [] [] source items texts ∧
      leavesAll tree = laidOut source items texts := by
  obtain ⟨items, n, hscans, hadd, houter, rfl⟩ := nested_of_parse h
  obtain ⟨texts, htrims⟩ := hscans.trims rfl rfl (claims_start source)
  have hleaves := Nesting.leaves_addAll htrims hscans.told rfl hadd
  refine ⟨items, texts, hscans, htrims, ?_⟩
  rw [Nesting.leaves, houter] at hleaves
  exact hleaves

/-- The literal texts of a tree against the source, when the scanner gives these items. -/
structure Tree.Trimmed (source : List Char) (items : List Scanned) (tree : Tree) : Prop where
  /-- The texts are the source without its tags and without what goes with the lone ones: the blanks
  before such a tag, and the blanks behind it with the line feed. -/
  texts : (textsAll tree).flatten =
    Text.without ((Scanned.tags items).flatMap (·.regions source)) 0 source
  nonempty : [] ∉ textsAll tree
  /-- What is lost is lost once. -/
  apart : ((Scanned.tags items).flatMap (·.regions source)).Pairwise fun a b => a.2 ≤ b.1
  /-- What goes with a tag lies in the literal texts next to it. -/
  inside : ∃ texts, Trims source [] [] source items texts ∧ textsAll tree = texts.filter (· ≠ [])
  /-- The indentation of a partial is what stands before it if it is alone, and else empty. -/
  indents : ∀ name indent span, Node.partialTag name indent span ∈ leavesAll tree →
    ∃ tag ∈ Scanned.tags items, tag.token = .partialTag name ∧ tag.span = span ∧
      indent = String.ofList (tag.leading source)

theorem parse_trimmed {source : List Char} {d : Delimiters} {tree : Tree}
    (h : Tree.parse source d = .ok tree) :
    ∃ scanner items, Scanner.ofSource source d = .ok scanner ∧ scanner.items = (items, none) ∧
      tree.Trimmed source items := by
  obtain ⟨pair, rfl⟩ := usable_of_parse h
  obtain ⟨items, texts, hscans, htrims, hleaves⟩ := parse_laidOut h
  have htexts : textsAll tree = texts.filter (· ≠ []) := by
    rw [textsAll, hleaves, htrims.filterMap_laidOut hscans.isTag]
  have hwithout := htrims.without_eq
  rw [without_cons (Nat.zero_le 0)] at hwithout
  refine ⟨.ofUsable source pair, items, Scanner.ofSource_val source pair, hscans.items_eq, ?_⟩
  constructor
  case texts => rw [htexts, List.flatten_filter_ne_nil, ← hwithout, byteLength]
  case nonempty => simp [htexts]
  case apart => exact htrims.ascending.pairwise
  case inside => exact ⟨texts, htrims, htexts⟩
  case indents =>
    intro name indent span hmem
    rw [hleaves] at hmem
    exact partial_of_mem_laidOut hmem

/-- Lone tags with carriage returns, with indentation and at the end of the source. -/
theorem parse_trimmed_lines :
    let source := ("a\n \t\x7b\x7b#s\x7d\x7d \r\n\x7b\x7bx\x7d\x7d \n" ++
      "  \x7b\x7b>p\x7d\x7d\r\n\x7b\x7b/s\x7d\x7d").toList
    ∃ tree scanner items, Tree.parse source .standard = .ok tree ∧
      Scanner.ofSource source .standard = .ok scanner ∧ scanner.items = (items, none) ∧
      tree.Trimmed source items ∧ textsAll tree = ["a\n".toList, " \n".toList] := by
  intro source
  have htexts : (Tree.parse source .standard).toOption.map textsAll =
      some ["a\n".toList, " \n".toList] := by decide +kernel
  cases hparse : Tree.parse source .standard with
  | error e =>
    rw [hparse] at htexts
    cases htexts
  | ok tree =>
    rw [hparse] at htexts
    obtain ⟨scanner, items, hscanner, hitems, h⟩ := parse_trimmed hparse
    exact ⟨tree, scanner, items, rfl, hscanner, hitems, h, Option.some.inj htexts⟩

end Mustache
