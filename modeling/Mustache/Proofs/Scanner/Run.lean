import Mustache.Proofs.Text.Occurrence
import Mustache.Scanner

/-!
# Mustache.Proofs.Scanner.Run

Runs of the scanner, as derivations over the source.

`Scans scanned pair rest items failure`: behind the text `scanned`, with `pair` in force, scanning
`rest` gives `items` and ends with `failure`, if with any. A derivation speaks of parts of the
source only; the state of the scanner between two steps (`Scanner.behind`) follows from them.
`items_eq_iff` says that derivations are the runs of `Scanner.items`, so that what holds of runs is
proved by induction on the derivation.
-/

namespace Mustache

def Point.behind (text : List Char) : Point := Point.start.advance text

theorem Point.advance_behind (s t : List Char) :
    (Point.behind s).advance t = Point.behind (s ++ t) :=
  (Point.advance_append Point.start s t).symm

theorem Sigil.leading_append {s : List Char} (hs : s ≠ []) (t : List Char) :
    Sigil.leading (s ++ t) = Sigil.leading s := by
  cases s with
  | nil => exact absurd rfl hs
  | cons c s => rfl

theorem Delimiters.Usable.closing_ne_nil {d : Delimiters} (h : d.Usable) :
    d.closing.toList ≠ [] :=
  (markFault?_eq_none_iff.1 (usable_iff.1 h).2).1

theorem Delimiters.check_val (pair : UsableDelimiters) : pair.val.check = .ok pair := by
  rw [Delimiters.check]
  split
  · rename_i fault h
    have hnone : pair.val.fault? = none := pair.property
    rw [hnone] at h
    cases h
  · rfl

theorem Scanner.ofSource_val (source : List Char) (pair : UsableDelimiters) :
    Scanner.ofSource source pair.val = .ok (.ofUsable source pair) := by
  rw [Scanner.ofSource, Delimiters.check_val]

namespace UsableDelimiters

abbrev opening (pair : UsableDelimiters) : List Char := pair.val.opening.toList

/-- What closes a tag that has this sigil. -/
abbrev closer (pair : UsableDelimiters) (sigil : Sigil) : List Char :=
  sigil.closer pair.val.closing.toList

def tag (pair : UsableDelimiters) (sigil : Sigil) (body : List Char) : List Char :=
  pair.opening ++ sigil.text ++ (body ++ pair.closer sigil)

theorem opening_ne_nil (pair : UsableDelimiters) : pair.opening ≠ [] :=
  pair.property.opening_ne_nil

theorem closer_ne_nil (pair : UsableDelimiters) (sigil : Sigil) : pair.closer sigil ≠ [] := by
  cases sigil <;> simp [closer, Sigil.closer, pair.property.closing_ne_nil]

theorem tag_append (pair : UsableDelimiters) (sigil : Sigil) (body rest : List Char) :
    pair.tag sigil body ++ rest =
      pair.opening ++ (sigil.text ++ (body ++ (pair.closer sigil ++ rest))) := by
  simp only [tag, List.append_assoc]

/-- What closes a tag is not empty, so its sigil does not depend on what is behind it. -/
theorem leading_append (pair : UsableDelimiters) (sigil : Sigil) (body rest : List Char) :
    Sigil.leading (sigil.text ++ (body ++ (pair.closer sigil ++ rest))) =
      Sigil.leading (sigil.text ++ (body ++ pair.closer sigil)) := by
  rw [← List.append_assoc body, ← List.append_assoc, Sigil.leading_append]
  simp [pair.closer_ne_nil sigil]

theorem tag_ne_nil (pair : UsableDelimiters) (sigil : Sigil) (body : List Char) :
    pair.tag sigil body ≠ [] := by
  simp [tag, pair.opening_ne_nil]

/-- The tag ends where it is closed first, its sigil is the one with which it begins, and there is
no earlier opening mark in the text before it. -/
structure Delimits (pair : UsableDelimiters) (literal : List Char) (sigil : Sigil)
    (body : List Char) : Prop where
  opened : Text.EndsFirst pair.opening literal
  leading : Sigil.leading (sigil.text ++ (body ++ pair.closer sigil)) = sigil
  closed : Text.EndsFirst (pair.closer sigil) body

end UsableDelimiters

open UsableDelimiters

def Scanned.tags (items : List Scanned) : List SpannedToken := items.filterMap (·.tag)

theorem Scanned.tags_append (items more : List Scanned) :
    Scanned.tags (items ++ more) = Scanned.tags items ++ Scanned.tags more :=
  List.filterMap_append

@[simp] theorem Scanned.tags_nil : Scanned.tags [] = [] := rfl

@[simp] theorem Scanned.tags_some (literal : List Char) (span : Span) (tag : SpannedToken)
    (items : List Scanned) :
    Scanned.tags (⟨literal, span, some tag⟩ :: items) = tag :: Scanned.tags items := rfl

@[simp] theorem Scanned.tags_none (literal : List Char) (span : Span) (items : List Scanned) :
    Scanned.tags (⟨literal, span, none⟩ :: items) = Scanned.tags items := rfl

/-- What a scanned tag claims of the text behind it. -/
def Scanned.claim (item : Scanned) : Nat :=
  match item.tag.bind SpannedToken.trimmable with
  | some lone => lone.trailing
  | none => 0

/-- What a scan gives, part by part of what is left of the source. -/
inductive Scans :
    List Char → UsableDelimiters → List Char → List Scanned → Option Error → Prop where
  | done {scanned pair} : Scans scanned pair [] [] none
  | trailing {scanned pair text} : text ≠ [] → ¬ pair.opening <:+: text →
      Scans scanned pair text [⟨text, .covering (.behind scanned) text, none⟩] none
  | tag {scanned pair literal sigil body token pair' rest items failure} :
      pair.Delimits literal sigil body →
      readTag pair sigil (Text.trim body) = .ok (token, pair') →
      Scans (scanned ++ literal ++ pair.tag sigil body) pair' rest items failure →
      Scans scanned pair (literal ++ (pair.tag sigil body ++ rest))
        (⟨literal, .covering (.behind scanned) literal,
          some ⟨token, .covering (.behind (scanned ++ literal)) (pair.tag sigil body),
            standaloneAt (scanned ++ literal).reverse rest⟩⟩ :: items) failure
  | malformed {scanned pair literal sigil body fault rest} :
      pair.Delimits literal sigil body →
      readTag pair sigil (Text.trim body) = .error fault →
      Scans scanned pair (literal ++ (pair.tag sigil body ++ rest)) []
        (some (Scanner.malformed (pair.tag sigil body) fault (.behind (scanned ++ literal))))
  | unclosed {scanned pair literal sigil content} :
      Text.EndsFirst pair.opening literal → Sigil.leading (sigil.text ++ content) = sigil →
      ¬ pair.closer sigil <:+: content →
      Scans scanned pair (literal ++ (pair.opening ++ (sigil.text ++ content))) []
        (some (Scanner.malformed (pair.opening ++ sigil.text)
          (.unclosed (String.ofList (pair.closer sigil))) (.behind (scanned ++ literal))))

/-! ## Steps of the scanner -/

namespace Scanner

variable {source : List Char} {initial pair : UsableDelimiters}
  {scanned literal body rest content : List Char} {sigil : Sigil}

def behind (source : List Char) (initial pair : UsableDelimiters) (scanned rest : List Char) :
    Scanner :=
  ⟨source, initial, pair, scanned.reverse, rest, .behind scanned, false⟩

theorem ofUsable_eq_behind (source : List Char) (pair : UsableDelimiters) :
    ofUsable source pair = behind source pair pair [] source := rfl

theorem advance_behind (text rest' : List Char) :
    (behind source initial pair scanned rest).advance text rest' =
      behind source initial pair (scanned ++ text) rest' := by
  simp only [advance, behind, Point.advance_behind, List.reverse_append]

theorem tagAt_behind (hleading : Sigil.leading (sigil.text ++ (body ++ pair.closer sigil)) = sigil)
    (hclosed : Text.EndsFirst (pair.closer sigil) body) (rest' : List Char) :
    (behind source initial pair scanned rest').tagAt
        (sigil.text ++ (body ++ (pair.closer sigil ++ rest))) =
      match readTag pair sigil (Text.trim body) with
      | .error fault => .error (malformed (pair.tag sigil body) fault (.behind scanned))
      | .ok (token, pair') =>
        .ok (⟨token, .covering (.behind scanned) (pair.tag sigil body),
          standaloneAt scanned.reverse rest⟩,
          behind source initial pair' (scanned ++ pair.tag sigil body) rest) := by
  have hsigil : Sigil.leading (sigil.text ++ (body ++ (pair.closer sigil ++ rest))) = sigil := by
    rw [pair.leading_append, hleading]
  simp only [tagAt, hsigil, List.drop_left]
  rw [show (behind source initial pair scanned rest').inForce = pair from rfl,
    Text.cut_append hclosed]
  simp only [advance_behind]
  cases readTag pair sigil (Text.trim body) with
  | error fault => rfl
  | ok read => rfl

theorem tagAt_behind_unclosed (hleading : Sigil.leading (sigil.text ++ content) = sigil)
    (hclosed : ¬ pair.closer sigil <:+: content) (rest' : List Char) :
    (behind source initial pair scanned rest').tagAt (sigil.text ++ content) =
      .error (malformed (pair.opening ++ sigil.text)
        (.unclosed (String.ofList (pair.closer sigil))) (.behind scanned)) := by
  simp only [tagAt, hleading, List.drop_left]
  rw [show (behind source initial pair scanned rest').inForce = pair from rfl,
    Text.cut_eq_none_iff.2 hclosed]
  rfl

theorem next_behind (source : List Char) (initial : UsableDelimiters) (scanned : List Char)
    (hopened : Text.EndsFirst pair.opening literal) (after : List Char) :
    (behind source initial pair scanned (literal ++ (pair.opening ++ after))).next =
      match (behind source initial pair (scanned ++ literal)
        (pair.opening ++ after)).tagAt after with
      | .error error =>
        (some (.error error),
          (behind source initial pair (scanned ++ literal) (pair.opening ++ after)).finish)
      | .ok (tag, s) =>
        (some (.ok ⟨literal, .covering (.behind scanned) literal, some tag⟩), s) := by
  generalize hs : behind source initial pair scanned (literal ++ (pair.opening ++ after)) = s
  have hcut : Text.cut s.inForce.val.opening.toList s.rest = some (literal, after) := by
    subst hs
    exact Text.cut_append hopened after
  have hfinished : ¬ s.finished = true := by
    subst hs
    exact Bool.false_ne_true
  rw [next, if_neg hfinished, hcut, ← hs]
  simp only [advance_behind]
  rfl

/-! ## Runs of the scanner -/

theorem items_of_next {s s' : Scanner} {item : Scanned} (h : s.next = (some (.ok item), s')) :
    s.items = (item :: s'.items.1, s'.items.2) := by
  rw [items]
  split <;> rename_i hnext <;> rw [h] at hnext <;> cases hnext
  rfl

theorem items_of_next_error {s s' : Scanner} {e : Error} (h : s.next = (some (.error e), s')) :
    s.items = ([], some e) := by
  rw [items]
  split <;> rename_i hnext <;> rw [h] at hnext <;> cases hnext
  rfl

theorem items_of_next_none {s s' : Scanner} (h : s.next = (none, s')) : s.items = ([], none) := by
  rw [items]
  split <;> rename_i hnext <;> rw [h] at hnext <;> cases hnext

theorem items_of_finished {s : Scanner} (h : s.finished = true) : s.items = ([], none) := by
  have hnext : s.next = (none, s) := by rw [next, if_pos h]
  exact items_of_next_none hnext

theorem next_behind_nil :
    (behind source initial pair scanned []).next =
      (none, (behind source initial pair scanned []).finish) := by
  have hcut : Text.cut (behind source initial pair scanned []).inForce.val.opening.toList
      (behind source initial pair scanned []).rest = none :=
    Text.cut_eq_none_iff.2 fun h => pair.opening_ne_nil (List.eq_nil_of_infix_nil h)
  rw [next, if_neg (by exact Bool.false_ne_true), hcut]
  rfl

theorem next_behind_trailing {text : List Char} (hne : text ≠ []) (h : ¬ pair.opening <:+: text) :
    (behind source initial pair scanned text).next =
      (some (.ok ⟨text, .covering (.behind scanned) text, none⟩),
        (behind source initial pair (scanned ++ text) []).finish) := by
  have hcut : Text.cut (behind source initial pair scanned text).inForce.val.opening.toList
      (behind source initial pair scanned text).rest = none := Text.cut_eq_none_iff.2 h
  rw [next, if_neg (by exact Bool.false_ne_true), hcut]
  have hrest : (behind source initial pair scanned text).rest.isEmpty = false :=
    List.isEmpty_eq_false_iff.2 hne
  simp only [hrest, advance_behind]
  rfl

end Scanner

section Runs

variable {source : List Char} {initial pair : UsableDelimiters} {scanned rest : List Char}
  {items : List Scanned} {failure : Option Error}

open Scanner

theorem Scans.items_eq (h : Scans scanned pair rest items failure) :
    (Scanner.behind source initial pair scanned rest).items = (items, failure) := by
  induction h with
  | done => exact items_of_next_none next_behind_nil
  | trailing hne htext =>
    rw [items_of_next (next_behind_trailing hne htext), items_of_finished rfl]
  | @tag scanned pair literal sigil body token pair' rest items failure hd hread _ ih =>
    have hnext := next_behind source initial scanned hd.opened
      (sigil.text ++ (body ++ (pair.closer sigil ++ rest)))
    rw [tagAt_behind hd.leading hd.closed, hread] at hnext
    rw [pair.tag_append, items_of_next hnext, ih]
  | @malformed scanned pair literal sigil body fault rest hd hread =>
    have hnext := next_behind source initial scanned hd.opened
      (sigil.text ++ (body ++ (pair.closer sigil ++ rest)))
    rw [tagAt_behind hd.leading hd.closed, hread] at hnext
    rw [pair.tag_append, items_of_next_error hnext]
  | @unclosed scanned pair literal sigil content hopened hleading hclosed =>
    have hnext := next_behind source initial scanned hopened (sigil.text ++ content)
    rw [tagAt_behind_unclosed hleading hclosed] at hnext
    rw [items_of_next_error hnext]

theorem Scans.unique {items' : List Scanned} {failure' : Option Error}
    (h : Scans scanned pair rest items failure) (h' : Scans scanned pair rest items' failure') :
    items = items' ∧ failure = failure' := by
  have hitems : (Scanner.behind rest pair pair scanned rest).items = (items, failure) := h.items_eq
  exact Prod.mk.inj (hitems.symm.trans h'.items_eq)

theorem scans_total (scanned : List Char) (pair : UsableDelimiters) (rest : List Char) :
    ∃ items failure, Scans scanned pair rest items failure := by
  induction hn : rest.length using Nat.strongRecOn generalizing scanned pair rest with
  | ind n ih =>
    cases hcut : Text.cut pair.opening rest with
    | none =>
      by_cases hrest : rest = []
      · subst hrest
        exact ⟨[], none, .done⟩
      · exact ⟨_, none, .trailing hrest (Text.cut_eq_none_iff.1 hcut)⟩
    | some found =>
      obtain ⟨literal, after⟩ := found
      obtain ⟨rfl, hopened⟩ := Text.cut_eq_some_iff.1 hcut
      have hafter := Sigil.text_append_drop after
      generalize hsigil : Sigil.leading after = sigil at hafter
      generalize after.drop sigil.text.length = content at hafter
      subst hafter
      cases hcut' : Text.cut (pair.closer sigil) content with
      | none => exact ⟨[], _, .unclosed hopened hsigil (Text.cut_eq_none_iff.1 hcut')⟩
      | some found =>
        obtain ⟨body, rest⟩ := found
        obtain ⟨rfl, hclosed⟩ := Text.cut_eq_some_iff.1 hcut'
        have hdelimits : pair.Delimits literal sigil body :=
          ⟨hopened, by rwa [pair.leading_append] at hsigil, hclosed⟩
        rw [← pair.tag_append] at hn ⊢
        cases hread : readTag pair sigil (Text.trim body) with
        | error fault => exact ⟨[], _, .malformed hdelimits hread⟩
        | ok read =>
          obtain ⟨token, pair'⟩ := read
          have hlen : rest.length < n := by
            have := List.length_pos_iff.2 (pair.tag_ne_nil sigil body)
            simp only [List.length_append] at hn
            omega
          obtain ⟨items, failure, hscans⟩ :=
            ih rest.length hlen (scanned ++ literal ++ pair.tag sigil body) pair' rest rfl
          exact ⟨_, failure, .tag hdelimits hread hscans⟩

/-- Derivations are the runs of the scanner. -/
theorem items_eq_iff :
    (Scanner.behind source initial pair scanned rest).items = (items, failure) ↔
      Scans scanned pair rest items failure := by
  constructor
  · intro h
    obtain ⟨items', failure', hscans⟩ := scans_total scanned pair rest
    rw [hscans.items_eq] at h
    cases h
    exact hscans
  · exact Scans.items_eq

end Runs

end Mustache
