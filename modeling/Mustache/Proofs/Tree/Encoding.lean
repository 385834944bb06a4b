import Mustache.Proofs.Json.Fields
import Mustache.Proofs.Tree.Document
import Mustache.Tree.Json

/-!
# Mustache.Proofs.Tree.Encoding

Tokens and trees are read back as they were written.

A token is tagged beside what it carries and a node within it, so each has a decoder of its own, and
each decoder inverts its encoder (`Token.ofJson?_toJson`, `Node.ofJson?_toJson`). The numbers of a
place have to fit in 64 bits; those of a tree that was parsed do (`Tree.fits_of_parse`). The text of
a tree is decoded to the tree up to the depth that the reader accepts (`Tree.ofText?_pretty`), and a
section takes two levels of it (`Tree.depth_toJson_le`).
-/

namespace Mustache

open Json

/-! ## Places -/

/-- 64 bits hold each number of the place. -/
structure Point.Fits (p : Point) : Prop where
  line : p.line < UInt64.size
  column : p.column < UInt64.size
  offset : p.offset < UInt64.size

structure Span.Fits (span : Span) : Prop where
  start : span.start.Fits
  stop : span.stop.Fits

theorem Point.advance_le (p : Point) (text : List Char) :
    (p.advance text).line ≤ p.line + Text.byteLength text ∧
      (p.advance text).column ≤ p.column + Text.byteLength text := by
  induction text generalizing p with
  | nil => exact ⟨Nat.le_refl _, Nat.le_refl _⟩
  | cons c text ih =>
    have hpos := Char.utf8Size_pos c
    have hstep : (p.step c).line ≤ p.line + 1 ∧ (p.step c).column ≤ p.column + 1 := by
      rw [step]
      split <;> simp
    obtain ⟨hline, hcolumn⟩ := ih (p.step c)
    show ((p.step c).advance text).line ≤ _ ∧ ((p.step c).advance text).column ≤ _
    rw [Text.byteLength]
    omega

theorem Point.fits_behind {text : List Char} (h : Text.byteLength text + 1 < UInt64.size) :
    (Point.behind text).Fits := by
  obtain ⟨hline, hcolumn⟩ := Point.start.advance_le text
  have hoffset := Point.offset_behind text
  have hstart : Point.start.line = 1 ∧ Point.start.column = 1 := ⟨rfl, rfl⟩
  rw [Point.behind] at hoffset ⊢
  exact ⟨by omega, by omega, by omega⟩

theorem Span.Stands.fits {source : List Char} {span : Span} (h : span.Stands source)
    (hsource : Text.byteLength source + 1 < UInt64.size) : span.Fits := by
  obtain ⟨before, text, after, rfl, -, rfl⟩ := h
  rw [Text.byteLength_append, Text.byteLength_append] at hsource
  refine ⟨Point.fits_behind (by omega), ?_⟩
  show ((Point.behind before).advance text).Fits
  rw [Point.advance_behind]
  exact Point.fits_behind (by rw [Text.byteLength_append]; omega)

theorem Point.ofJson?_toJson {p : Point} (h : p.Fits) : ofJson? p.toJson = some p := by
  simp [toJson, ofJson?, fields?, valuesOf_cons, valuesOf_nil, nat?_ofNat h.line,
    nat?_ofNat h.column, nat?_ofNat h.offset]

theorem Point.isWordy_toJson {p : Point} (h : p.Fits) : p.toJson.isWordy = true := by
  simp [toJson, isWordy_object, isWordyMembers, isWordy_ofNat h.line, isWordy_ofNat h.column,
    isWordy_ofNat h.offset]

theorem Span.ofJson?_toJson {span : Span} (h : span.Fits) : ofJson? span.toJson = some span := by
  simp [toJson, ofJson?, fields?, valuesOf_cons, valuesOf_nil, Point.ofJson?_toJson h.start,
    Point.ofJson?_toJson h.stop]

theorem Span.isWordy_toJson {span : Span} (h : span.Fits) : span.toJson.isWordy = true := by
  simp [toJson, isWordy_object, isWordyMembers, Point.isWordy_toJson h.start,
    Point.isWordy_toJson h.stop]

theorem Span.depth_toJson (span : Span) : span.toJson.depth = 2 := rfl

/-! ## Tokens -/

namespace Token

theorem ofJson?_toJson (token : Token) : ofJson? token.toJson = some token := by
  cases token <;>
    simp [toJson, ofJson?, kind, content, ofKind?, interpolationOfJson?, fields?, valuesOf_cons,
      valuesOf_nil, string?, bool?, Delimiters.ofJson?_toJson]

theorem isWordy_toJson (token : Token) : token.toJson.isWordy = true := by
  cases token <;> rfl

theorem depth_toJson_le (token : Token) : token.toJson.depth ≤ 2 := by
  cases token <;> exact Nat.le_of_ble_eq_true rfl

end Token

/-! ## Trees -/

namespace Node

/-- 64 bits hold the numbers of all places in the nodes. -/
def Fit (nodes : List Node) : Prop := ∀ tag ∈ tagsAll nodes, tag.2.Fits

section Fit

variable {span opening closing : Span} {children nodes : List Node}

theorem fit_text {s : String} : Fit (.text s :: nodes) ↔ Fit nodes := by
  simp [Fit, tagsAll, tags]

theorem fit_interpolation {path : String} {escaped : Bool} :
    Fit (.interpolation path escaped span :: nodes) ↔ span.Fits ∧ Fit nodes := by
  simp [Fit, tagsAll, tags]

theorem fit_block {path raw : String} {inverted : Bool} {delimiters : Delimiters} :
    Fit (.block path inverted children raw delimiters opening closing :: nodes) ↔
      (opening.Fits ∧ closing.Fits) ∧ Fit children ∧ Fit nodes := by
  simp only [Fit, tagsAll, tags, List.cons_append, List.append_assoc, List.forall_mem_cons,
    List.forall_mem_append, List.nil_append]
  tauto

theorem fit_partialTag {name indent : String} :
    Fit (.partialTag name indent span :: nodes) ↔ span.Fits ∧ Fit nodes := by
  simp [Fit, tagsAll, tags]

theorem fit_comment {s : String} : Fit (.comment s span :: nodes) ↔ span.Fits ∧ Fit nodes := by
  simp [Fit, tagsAll, tags]

end Fit

theorem ofJsons?_toJsons (nodes : List Node) : Fit nodes →
    ofJsons? (toJsons nodes) = some nodes := by
  induction nodes using forestInduction with
  | nil => exact fun _ => rfl
  | text s nodes ih =>
    intro h
    have hnodes := ih (fit_text.1 h)
    simp [toJsons, toJson, ofJsons?, ofJson?, variant?, ofKind?, fields?, valuesOf_cons,
      valuesOf_nil, hnodes]
  | interpolation path escaped span nodes ih =>
    intro h
    obtain ⟨hspan, hnodes⟩ := fit_interpolation.1 h
    simp [toJsons, toJson, ofJsons?, ofJson?, variant?, ofKind?, fields?, valuesOf_cons,
      valuesOf_nil, Span.ofJson?_toJson hspan, ih hnodes]
  | block path inverted children raw delimiters opening closing nodes ihChildren ih =>
    intro h
    obtain ⟨⟨hopening, hclosing⟩, hchildren, hnodes⟩ := fit_block.1 h
    simp [toJsons, toJson, ofJsons?, ofJson?, variant?, ofKind?, fields?, valuesOf_cons,
      valuesOf_nil, childrenOf?, delimiters.ofJson?_toJson, Span.ofJson?_toJson hopening,
      Span.ofJson?_toJson hclosing, ihChildren hchildren, ih hnodes]
  | partialTag name indent span nodes ih =>
    intro h
    obtain ⟨hspan, hnodes⟩ := fit_partialTag.1 h
    simp [toJsons, toJson, ofJsons?, ofJson?, variant?, ofKind?, fields?, valuesOf_cons,
      valuesOf_nil, Span.ofJson?_toJson hspan, ih hnodes]
  | comment s span nodes ih =>
    intro h
    obtain ⟨hspan, hnodes⟩ := fit_comment.1 h
    simp [toJsons, toJson, ofJsons?, ofJson?, variant?, ofKind?, fields?, valuesOf_cons,
      valuesOf_nil, Span.ofJson?_toJson hspan, ih hnodes]

theorem isWordyItems_toJsons (nodes : List Node) : Fit nodes →
    isWordyItems (toJsons nodes) = true := by
  induction nodes using forestInduction with
  | nil => exact fun _ => rfl
  | text s nodes ih =>
    intro h
    have hnodes := ih (fit_text.1 h)
    simp [toJsons, toJson, isWordyItems, isWordy_object, isWordyMembers, isWordy_string, hnodes]
  | interpolation path escaped span nodes ih =>
    intro h
    obtain ⟨hspan, hnodes⟩ := fit_interpolation.1 h
    simp [toJsons, toJson, isWordyItems, isWordy_object, isWordyMembers, isWordy_string,
      isWordy_bool, Span.isWordy_toJson hspan, ih hnodes]
  | block path inverted children raw delimiters opening closing nodes ihChildren ih =>
    intro h
    obtain ⟨⟨hopening, hclosing⟩, hchildren, hnodes⟩ := fit_block.1 h
    simp [toJsons, toJson, isWordyItems, isWordy_object, isWordyMembers, isWordy_string,
      isWordy_bool, isWordy_array, delimiters.isWordy_toJson, Span.isWordy_toJson hopening,
      Span.isWordy_toJson hclosing, ihChildren hchildren, ih hnodes]
  | partialTag name indent span nodes ih =>
    intro h
    obtain ⟨hspan, hnodes⟩ := fit_partialTag.1 h
    simp [toJsons, toJson, isWordyItems, isWordy_object, isWordyMembers, isWordy_string,
      Span.isWordy_toJson hspan, ih hnodes]
  | comment s span nodes ih =>
    intro h
    obtain ⟨hspan, hnodes⟩ := fit_comment.1 h
    simp [toJsons, toJson, isWordyItems, isWordy_object, isWordyMembers, isWordy_string,
      Span.isWordy_toJson hspan, ih hnodes]

mutual

/-- How many sections are open at once in the node, at most. -/
def nesting : Node → Nat
  | .block _ _ children _ _ _ _ => 1 + nestingAll children
  | _ => 0

def nestingAll : List Node → Nat
  | [] => 0
  | node :: nodes => max (nesting node) (nestingAll nodes)

end

theorem depthItems_toJsons_le (nodes : List Node) :
    depthItems (toJsons nodes) ≤ 2 * nestingAll nodes + 3 := by
  induction nodes using forestInduction with
  | nil => exact Nat.zero_le _
  | block path inverted children raw delimiters opening closing nodes ihChildren ih =>
    have hdelimiters : delimiters.toJson.depth = 1 := rfl
    simp only [toJsons, toJson, depthItems, depth, depthMembers, Span.depth_toJson, hdelimiters,
      nestingAll, nesting]
    omega
  | text _ _ ih | interpolation _ _ _ _ ih | partialTag _ _ _ _ ih | comment _ _ _ ih =>
    simp only [toJsons, toJson, depthItems, depth, depthMembers, Span.depth_toJson, nestingAll,
      nesting]
    omega

end Node

namespace Tree

open Node

theorem ofJson?_toJson {tree : Tree} (h : Fit tree) : ofJson? tree.toJson = some tree :=
  ofJsons?_toJsons tree h

theorem isWordy_toJson {tree : Tree} (h : Fit tree) : tree.toJson.isWordy = true := by
  rw [toJson, isWordy_array]
  exact isWordyItems_toJsons tree h

/-- Each section around a node takes two levels. -/
theorem depth_toJson_le (tree : Tree) : tree.toJson.depth ≤ 2 * nestingAll tree + 4 := by
  have := depthItems_toJsons_le tree
  rw [toJson, depth]
  omega

theorem fit_of_parse {source : List Char} {d : Delimiters} {tree : Tree}
    (h : parse source d = .ok tree) (hsource : Text.byteLength source + 1 < UInt64.size) :
    Fit tree := by
  obtain ⟨pair, rfl⟩ := usable_of_parse h
  obtain ⟨items, hscans, htags, -⟩ := parse_tracks h
  intro tag htag
  rw [htags] at htag
  obtain ⟨scanned, hscanned, hspan⟩ := mem_keptTags htag
  exact hspan ▸ (hscans.stands scanned hscanned).1.fits hsource

end Tree

/-! ## Texts -/

def Token.ofText? (s : String) : Option Token := (Json.read s.toList).bind ofJson?

def Tree.ofText? (s : String) : Option Tree := (Json.read s.toList).bind ofJson?

theorem Token.ofText?_text (token : Token) :
    ofText? (.ofList token.toJson.compact) = some token ∧
      ofText? (.ofList (token.toJson.pretty 0)) = some token := by
  have hdepth : token.toJson.depth ≤ maxDepth := Nat.le_trans token.depth_toJson_le (by decide)
  simp [ofText?, read_compact token.isWordy_toJson, read_pretty token.isWordy_toJson, hdepth,
    token.ofJson?_toJson]

namespace Tree

open Node

def printed (tree : Tree) : String := String.ofList (tree.toJson.pretty 0) ++ "\n"

variable {tree : Tree} (h : Fit tree)
include h

theorem ofText?_of_read {s : List Char}
    (hread : Json.read s = if tree.toJson.depth ≤ maxDepth then some tree.toJson else none) :
    ofText? (.ofList s) = if tree.toJson.depth ≤ maxDepth then some tree else none := by
  rw [ofText?, String.toList_ofList, hread]
  split
  · exact ofJson?_toJson h
  · rfl

theorem ofText?_compact : ofText? (.ofList tree.toJson.compact) =
    if tree.toJson.depth ≤ maxDepth then some tree else none :=
  ofText?_of_read h (read_compact (isWordy_toJson h))

theorem ofText?_pretty : ofText? (.ofList (tree.toJson.pretty 0)) =
    if tree.toJson.depth ≤ maxDepth then some tree else none :=
  ofText?_of_read h (read_pretty (isWordy_toJson h) 0)

theorem ofText?_printed :
    ofText? tree.printed = if tree.toJson.depth ≤ maxDepth then some tree else none := by
  have hprinted : tree.printed = .ofList (tree.toJson.pretty 0 ++ ['\n']) := by
    rw [printed, String.ofList_append]
  rw [hprinted]
  exact ofText?_of_read h (read_pretty_line (isWordy_toJson h) 0)

end Tree

end Mustache
