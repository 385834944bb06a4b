import Mustache.Proofs.Scanner.Grammar

/-!
# Mustache.Proofs.Scanner.Places

Where the tags of a source stand. The span of a tag that the scanner gives covers a text of the
source that is not empty (`Span.Stands`), and each tag ends before the next one begins
(`InOrder`). Between two such spans lies a text of the source, and `Text.slice` finds that text from
their offsets (`slice_between`).

`Token.inForce` and `inForceBehind` say which pair of delimiters is in force behind tags; the
scanner works with that pair.
-/

namespace Mustache

/-! ## Offsets -/

theorem Point.offset_advance (p : Point) (text : List Char) :
    (p.advance text).offset = p.offset + Text.byteLength text := by
  induction text generalizing p with
  | nil => rfl
  | cons c text ih =>
    have hstep : (p.step c).offset = p.offset + c.utf8Size := by
      simp only [Point.step]
      split <;> rfl
    show ((p.step c).advance text).offset = _
    rw [ih, hstep, Text.byteLength, Nat.add_assoc]

theorem Point.offset_behind (text : List Char) :
    (Point.behind text).offset = Text.byteLength text := by
  rw [Point.behind, Point.offset_advance]
  exact Nat.zero_add _

theorem Text.byteLength_pos {s : List Char} (hs : s ≠ []) : 0 < Text.byteLength s := by
  cases s with
  | nil => exact absurd rfl hs
  | cons c s =>
    have := Char.utf8Size_pos c
    simp only [Text.byteLength]
    omega

theorem Text.prefix_of_byteLength_le {p q s : List Char} (hp : p <+: s) (hq : q <+: s)
    (h : Text.byteLength p ≤ Text.byteLength q) : p <+: q := by
  rcases List.prefix_or_prefix_of_prefix hp hq with hpq | ⟨r, rfl⟩
  · exact hpq
  · have hr : r = [] := by
      by_contra hne
      have := Text.byteLength_pos hne
      rw [Text.byteLength_append] at h
      omega
    exact ⟨[], by rw [hr, List.append_nil, List.append_nil]⟩

theorem Text.eq_of_byteLength_eq {p q s : List Char} (hp : p <+: s) (hq : q <+: s)
    (h : Text.byteLength p = Text.byteLength q) : p = q := by
  have hpq := prefix_of_byteLength_le hp hq (Nat.le_of_eq h)
  have hqp := prefix_of_byteLength_le hq hp (Nat.le_of_eq h.symm)
  exact hpq.eq_of_length (Nat.le_antisymm hpq.length_le hqp.length_le)

/-! ## Tags in their places -/

/-- The span covers a text of the source that is not empty. -/
def Span.Stands (source : List Char) (span : Span) : Prop :=
  ∃ before text after, source = before ++ (text ++ after) ∧ text ≠ [] ∧
    span = .covering (.behind before) text

/-- Spans that are not empty, each of which ends before the next one begins. -/
structure InOrder (spans : List Span) : Prop where
  nonempty : ∀ span ∈ spans, span.start.offset < span.stop.offset
  pairwise : spans.Pairwise fun a b => a.stop.offset ≤ b.start.offset

theorem InOrder.sublist {spans spans' : List Span} (h : InOrder spans)
    (hsub : spans'.Sublist spans) : InOrder spans' :=
  ⟨fun span hspan => h.nonempty span (hsub.subset hspan), h.pairwise.sublist hsub⟩

theorem Span.Stands.nonempty {source : List Char} {span : Span} (h : span.Stands source) :
    span.start.offset < span.stop.offset := by
  obtain ⟨before, text, after, -, hne, rfl⟩ := h
  have := Text.byteLength_pos hne
  show (Point.behind before).offset < ((Point.behind before).advance text).offset
  rw [Point.offset_advance]
  omega

theorem slice_between {source : List Char} {a b : Span} (ha : a.Stands source)
    (hb : b.Stands source) (hab : a.stop.offset ≤ b.start.offset) :
    ∃ before after,
      source = before ++ (Text.slice source a.stop.offset b.start.offset ++ after) ∧
      a.stop = .behind before ∧
      b.start = .behind (before ++ Text.slice source a.stop.offset b.start.offset) := by
  obtain ⟨beforeA, textA, afterA, hsourceA, -, rfl⟩ := ha
  obtain ⟨beforeB, textB, afterB, hsourceB, -, rfl⟩ := hb
  have hstop : (Span.covering (.behind beforeA) textA).stop = .behind (beforeA ++ textA) :=
    Point.advance_behind beforeA textA
  have hstart : (Span.covering (.behind beforeB) textB).start = .behind beforeB := rfl
  rw [hstop, hstart, Point.offset_behind, Point.offset_behind] at hab
  have hprefix : beforeA ++ textA <+: beforeB :=
    Text.prefix_of_byteLength_le ⟨afterA, by rw [hsourceA, List.append_assoc]⟩
      ⟨textB ++ afterB, hsourceB.symm⟩ hab
  obtain ⟨between, rfl⟩ := hprefix
  rw [hstop, hstart]
  have hslice : Text.slice source (Point.behind (beforeA ++ textA)).offset
      (Point.behind (beforeA ++ textA ++ between)).offset = between := by
    rw [Point.offset_behind, Point.offset_behind, Text.byteLength_append _ between,
      hsourceB, List.append_assoc, Text.slice_append]
  rw [hslice]
  exact ⟨beforeA ++ textA, textB ++ afterB, by rw [hsourceB, List.append_assoc], rfl, rfl⟩

section Scans

variable {pair : UsableDelimiters} {scanned rest : List Char} {items : List Scanned}
  {failure : Option Error}

/-- A tag stands in the source, and not before the text that is scanned. -/
theorem Scans.stands (h : Scans scanned pair rest items failure) :
    ∀ tag ∈ Scanned.tags items,
      tag.span.Stands (scanned ++ rest) ∧ Text.byteLength scanned ≤ tag.span.start.offset := by
  induction h with
  | done => simp [Scanned.tags]
  | trailing => simp [Scanned.tags]
  | @tag scanned pair literal sigil body token pair' rest items failure _ _ _ ih =>
    rw [Scanned.tags_some]
    intro tag htag
    rcases List.mem_cons.1 htag with rfl | htag
    · refine ⟨⟨scanned ++ literal, pair.tag sigil body, rest, ?_, pair.tag_ne_nil sigil body, rfl⟩,
        ?_⟩
      · rw [List.append_assoc]
      · simp only [Span.covering, Point.offset_behind, Text.byteLength_append]
        omega
    · obtain ⟨hstands, hle⟩ := ih tag htag
      simp only [Text.byteLength_append] at hle
      refine ⟨?_, by omega⟩
      simpa only [List.append_assoc] using hstands
  | malformed => simp [Scanned.tags]
  | unclosed => simp [Scanned.tags]

theorem Scans.inOrder (h : Scans scanned pair rest items failure) :
    InOrder ((Scanned.tags items).map (·.span)) := by
  constructor
  · intro span hspan
    obtain ⟨tag, htag, rfl⟩ := List.mem_map.1 hspan
    exact (h.stands tag htag).1.nonempty
  · induction h with
    | done => exact .nil
    | trailing => exact .nil
    | @tag scanned pair literal sigil body token pair' rest items failure _ _ hscans ih =>
      rw [Scanned.tags_some, List.map_cons]
      refine .cons ?_ ih
      intro span hspan
      obtain ⟨tag, htag, rfl⟩ := List.mem_map.1 hspan
      have hle := (hscans.stands tag htag).2
      rwa [Span.covering, Point.advance_behind, Point.offset_behind]
    | malformed => exact .nil
    | unclosed => exact .nil

end Scans

/-! ## Delimiters in force -/

/-- The pair in force behind a tag that stands where `d` is in force. -/
def Token.inForce (d : Delimiters) : Token → Delimiters
  | .delimiterChange d' => d'
  | _ => d

def inForceBehind (d : Delimiters) (tags : List SpannedToken) : Delimiters :=
  tags.foldl (fun d tag => tag.token.inForce d) d

/-- What the scanner gives as a tag: no text, and no change to delimiters that cannot be used. -/
def Token.IsTag : Token → Prop
  | .text _ => False
  | .delimiterChange d => d.Usable
  | _ => True

theorem Denotes.isTag {pair pair' : UsableDelimiters} {sigil : Sigil} {body : List Char}
    {token : Token} (h : Denotes pair sigil body token pair') : token.IsTag := by
  cases h with
  | delimiterChange => exact pair'.property
  | _ => trivial

theorem Denotes.inForce {pair pair' : UsableDelimiters} {sigil : Sigil} {body : List Char}
    {token : Token} (h : Denotes pair sigil body token pair') :
    token.inForce pair.val = pair'.val := by
  cases h <;> rfl

theorem Scans.isTag {pair : UsableDelimiters} {scanned rest : List Char} {items : List Scanned}
    {failure : Option Error} (h : Scans scanned pair rest items failure) :
    ∀ tag ∈ Scanned.tags items, tag.token.IsTag := by
  induction h with
  | done => simp [Scanned.tags]
  | trailing => simp [Scanned.tags]
  | tag _ hread _ ih =>
    rw [Scanned.tags_some]
    exact List.forall_mem_cons.2 ⟨(readTag_eq_ok_iff.1 hread).isTag, ih⟩
  | malformed => simp [Scanned.tags]
  | unclosed => simp [Scanned.tags]

theorem inForceBehind_append (d : Delimiters) (tags more : List SpannedToken) :
    inForceBehind d (tags ++ more) = inForceBehind (inForceBehind d tags) more :=
  List.foldl_append

theorem inForceBehind_usable {d : Delimiters} {tags : List SpannedToken} (hd : d.Usable)
    (h : ∀ tag ∈ tags, tag.token.IsTag) : (inForceBehind d tags).Usable := by
  induction tags generalizing d with
  | nil => exact hd
  | cons tag tags ih =>
    obtain ⟨htag, htags⟩ := List.forall_mem_cons.1 h
    refine ih (d := tag.token.inForce d) ?_ htags
    cases htoken : tag.token with
    | delimiterChange d' =>
      rw [htoken] at htag
      exact htag
    | _ => exact hd

end Mustache
