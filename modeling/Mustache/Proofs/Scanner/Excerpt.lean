import Mustache.Proofs.Scanner.Places

/-!
# Mustache.Proofs.Scanner.Excerpt

Scanning a part of a source that is cut out between two of its tags.

Behind a tag, a scan goes on as a scan of what is left, with the pair in force there
(`Scans.behind_tags`). A text that ends where a tag begins has no opening mark after its own last
tag, so scanning the text alone gives the tags that stand in it and then ends (`Scans.excerpt`):
the same tags, their offsets less by the text in front of it (`SpannedToken.Moved`).
`Scans.between` says both of the text between two tags.
-/

namespace Mustache

open Text UsableDelimiters

/-! ## Behind a tag -/

section Behind

variable {pair : UsableDelimiters} {scanned rest : List Char} {items : List Scanned}
  {failure : Option Error} {tag : SpannedToken} {before after : List SpannedToken}

theorem Scans.behind_tag (h : Scans scanned pair rest items failure)
    (htags : Scanned.tags items = tag :: after) :
    ∃ scanned' pair' rest' items', Scans scanned' pair' rest' items' failure ∧
      Scanned.tags items' = after ∧ scanned' ++ rest' = scanned ++ rest ∧
      pair'.val = tag.token.inForce pair.val ∧ tag.span.stop = .behind scanned' := by
  cases h with
  | @tag _ _ literal sigil body token pair' rest items _ hd hread hscans =>
    rw [Scanned.tags_some, List.cons.injEq] at htags
    obtain ⟨rfl, htags⟩ := htags
    refine ⟨_, pair', rest, items, hscans, htags, ?_, ?_, ?_⟩
    · simp only [List.append_assoc]
    · exact (readTag_eq_ok_iff.1 hread).inForce.symm
    · exact Point.advance_behind _ _
  | _ => simp at htags

theorem Scans.behind_tags (h : Scans scanned pair rest items failure)
    (htags : Scanned.tags items = before ++ after) :
    ∃ scanned' pair' rest' items', Scans scanned' pair' rest' items' failure ∧
      Scanned.tags items' = after ∧ scanned' ++ rest' = scanned ++ rest ∧
      pair'.val = inForceBehind pair.val before := by
  induction before generalizing scanned pair rest items with
  | nil => exact ⟨scanned, pair, rest, items, h, htags, rfl, rfl⟩
  | cons tag before ih =>
    obtain ⟨scanned₁, pair₁, rest₁, items₁, h₁, htags₁, hsource₁, hpair₁, -⟩ := h.behind_tag htags
    obtain ⟨scanned', pair', rest', items', h', hafter, hsource, hpair⟩ := ih h₁ htags₁
    exact ⟨scanned', pair', rest', items', h', hafter, hsource.trans hsource₁,
      by rw [hpair, hpair₁]; rfl⟩

end Behind

/-! ## Up to a tag -/

/-- The offsets of a span, further back by as many bytes as the text in front has. -/
structure Span.Moved (front : List Char) (span moved : Span) : Prop where
  start : moved.start.offset = span.start.offset + byteLength front
  stop : moved.stop.offset = span.stop.offset + byteLength front

/-- The same tag, further back. -/
structure SpannedToken.Moved (front : List Char) (tag moved : SpannedToken) : Prop where
  token : tag.token = moved.token
  span : tag.span.Moved front moved.span

section Excerpt

variable {pair : UsableDelimiters} {scanned front alone text more : List Char}
  {items : List Scanned} {failure : Option Error} {closing : SpannedToken}
  {inside after : List SpannedToken}

theorem Scans.literal (alone : List Char) (hmark : ¬ pair.opening <:+: text) :
    ∃ items, Scans alone pair text items none ∧ Scanned.tags items = [] := by
  by_cases htext : text = []
  · subst htext
    exact ⟨[], .done, rfl⟩
  · exact ⟨_, .trailing htext hmark, rfl⟩

/-- A text up to a tag, scanned alone. -/
theorem Scans.excerpt (h : Scans (front ++ alone) pair (text ++ more) items failure)
    (htags : Scanned.tags items = inside ++ closing :: after)
    (hclosing : closing.span.start.offset = byteLength (front ++ alone ++ text)) :
    ∃ items', Scans alone pair text items' none ∧
      List.Forall₂ (SpannedToken.Moved front) (Scanned.tags items') inside := by
  generalize hscanned : front ++ alone = scanned at h hclosing
  generalize hrest : text ++ more = rest at h
  induction h generalizing alone text inside with
  | @tag scanned pair literal sigil body token pair' rest items failure hd hread hscans ih =>
    subst hscanned
    have htext : text <+: literal ++ (pair.tag sigil body ++ rest) := ⟨more, hrest⟩
    cases inside with
    | nil =>
      -- The text is the literal text before the tag at which it ends.
      rw [Scanned.tags_some, List.nil_append, List.cons.injEq] at htags
      obtain ⟨rfl, -⟩ := htags
      have hliteral : text = literal := by
        refine eq_of_byteLength_eq htext (List.prefix_append _ _) ?_
        simp only [Span.covering, Point.offset_behind, byteLength_append] at hclosing
        omega
      subst hliteral
      obtain ⟨items', hscans', htags'⟩ :=
        Scans.literal alone (EndsFirst.not_infix hd.opened pair.opening_ne_nil)
      exact ⟨items', hscans', by rw [htags']; exact .nil⟩
    | cons tag inside =>
      rw [Scanned.tags_some, List.cons_append, List.cons.injEq] at htags
      obtain ⟨rfl, htags⟩ := htags
      have hle : byteLength (front ++ alone ++ literal ++ pair.tag sigil body) ≤
          byteLength (front ++ alone ++ text) := by
        rw [← hclosing]
        exact (hscans.stands closing (by rw [htags]; simp)).2
      obtain ⟨text', rfl⟩ : literal ++ pair.tag sigil body <+: text := by
        refine prefix_of_byteLength_le ⟨rest, by rw [List.append_assoc]⟩ htext ?_
        simp only [byteLength_append] at hle ⊢
        omega
      have hrest' : text' ++ more = rest := by simpa only [List.append_assoc,
        List.append_cancel_left_eq] using hrest
      obtain ⟨items', hscans', hmoved⟩ := ih htags (by rw [List.append_assoc, List.append_assoc])
        (by simpa only [List.append_assoc] using hclosing) hrest'
      rw [← List.append_assoc] at hscans'
      rw [List.append_assoc literal]
      refine ⟨_, .tag hd hread hscans', .cons ⟨rfl, ?_, ?_⟩ hmoved⟩
      · simp only [Span.covering, Point.offset_behind, byteLength_append]
        omega
      · simp only [Span.covering, Point.offset_advance, Point.offset_behind, byteLength_append]
        omega
  | _ => simp at htags

/-- The text between two tags, scanned alone with the pair in force behind the first one. -/
theorem Scans.between {source : List Char} {before : List SpannedToken} {opening : SpannedToken}
    (h : Scans [] pair source items failure)
    (htags : Scanned.tags items = before ++ opening :: (inside ++ closing :: after)) :
    ∃ front more pair' items',
      source = front ++ (slice source opening.span.stop.offset closing.span.start.offset ++ more) ∧
      pair'.val = opening.token.inForce (inForceBehind pair.val before) ∧
      Scans [] pair' (slice source opening.span.stop.offset closing.span.start.offset) items'
        none ∧
      List.Forall₂ (SpannedToken.Moved front) (Scanned.tags items') inside := by
  obtain ⟨_, pair₁, _, items₁, h₁, htags₁, hsource₁, hpair₁⟩ := h.behind_tags htags
  obtain ⟨front, pair', rest, items₂, h₂, htags₂, hsource₂, hpair', hstop⟩ := h₁.behind_tag htags₁
  have hsource : front ++ rest = source := hsource₂.trans hsource₁
  have hstands (tag : SpannedToken) (htag : tag ∈ Scanned.tags items) : tag.span.Stands source :=
    (h.stands tag htag).1
  have hclosing := (h₂.stands closing (by rw [htags₂]; simp)).2
  obtain ⟨front', more, hsource', hstop', hstart⟩ :=
    slice_between (hstands opening (by rw [htags]; simp)) (hstands closing (by rw [htags]; simp))
      (by rw [hstop, Point.offset_behind]; exact hclosing)
  generalize slice source opening.span.stop.offset closing.span.start.offset = text
    at hsource' hstart ⊢
  obtain rfl : front' = front := by
    refine eq_of_byteLength_eq ⟨_, hsource'.symm⟩ ⟨_, hsource⟩ ?_
    rw [← Point.offset_behind, ← Point.offset_behind, ← hstop, ← hstop']
  obtain rfl : rest = text ++ more := List.append_cancel_left (hsource.trans hsource')
  rw [← List.append_nil front'] at h₂ hstart
  obtain ⟨items', hscans, hmoved⟩ := h₂.excerpt htags₂ (by rw [hstart, Point.offset_behind])
  exact ⟨front', more, pair', items', hsource', by rw [hpair', hpair₁], hscans, hmoved⟩

end Excerpt

end Mustache
