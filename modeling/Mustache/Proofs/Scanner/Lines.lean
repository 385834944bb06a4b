import Mathlib.Data.List.TakeWhile
import Mustache.Proofs.Scanner.Places

/-!
# Mustache.Proofs.Scanner.Lines

Scanning a source that is cut behind a line feed.

A mark holds no line feed, so no tag reaches across the cut, and whether a tag is alone on its line
is settled on its own side of it. The scan of the whole is therefore the scan of the text above
followed by that of the text below (`Scans.join`), with two changes: the places of what is below
move down by the text above (`Scans.under`), and the last literal text above runs on into the first
one below (`Scans.prepend`).
-/

namespace Mustache

open Text UsableDelimiters

/-- The text ends where a line begins. -/
def EndsLine (text : List Char) : Prop := text = [] ∨ ∃ s, text = s ++ ['\n']

/-! ## Places below a text -/

/-- The place of a point when a text that ends a line is put above. -/
def Point.under (text : List Char) (p : Point) : Point :=
  ⟨p.line + text.count '\n', p.column, p.offset + Text.byteLength text⟩

def Span.under (text : List Char) (span : Span) : Span :=
  ⟨span.start.under text, span.stop.under text⟩

def SpannedToken.under (text : List Char) (tag : SpannedToken) : SpannedToken :=
  { tag with span := tag.span.under text }

def Scanned.under (text : List Char) (item : Scanned) : Scanned :=
  ⟨item.literal, item.span.under text, item.tag.map (·.under text)⟩

/-- The same error, reported on its line below the text. -/
def Error.under (text : List Char) : Error → Error
  | .unmatchedClose name expected line column =>
    .unmatchedClose name expected (line + text.count '\n') column
  | .unterminatedSection name line column =>
    .unterminatedSection name (line + text.count '\n') column
  | .malformedTag tag fault line column =>
    .malformedTag tag fault (line + text.count '\n') column
  | error => error

section Below

variable {text : List Char}

theorem Point.line_advance (p : Point) (s : List Char) :
    (p.advance s).line = p.line + s.count '\n' := by
  induction s generalizing p with
  | nil => rfl
  | cons c s ih =>
    show ((p.step c).advance s).line = _
    rw [ih, List.count_cons]
    simp only [Point.step, beq_iff_eq]
    split
    · simp only
      omega
    · simp only
      omega

theorem Point.advance_under (p : Point) (s : List Char) :
    (p.under text).advance s = (p.advance s).under text := by
  induction s generalizing p with
  | nil => rfl
  | cons c s ih =>
    have hstep : (p.under text).step c = (p.step c).under text := by
      simp only [Point.step, Point.under]
      split
      · simp only [Point.mk.injEq, true_and]
        omega
      · simp only [Point.mk.injEq, true_and]
        omega
    show ((p.under text).step c).advance s = _
    rw [hstep, ih]
    rfl

theorem EndsLine.behind (h : EndsLine text) : Point.behind text = Point.start.under text := by
  rcases h with rfl | ⟨s, rfl⟩
  · rfl
  · have hline : (Point.behind s).line = 1 + s.count '\n' := Point.line_advance _ s
    have hoffset := Point.offset_behind s
    rw [Point.behind, Point.advance_append, ← Point.behind]
    show (Point.behind s).step '\n' = _
    rw [Point.step, if_pos rfl, Point.under, hline, hoffset, List.count_append,
      Text.byteLength_append]
    simp [Point.start, Text.byteLength, Nat.add_assoc]

theorem EndsLine.behind_append (h : EndsLine text) (s : List Char) :
    Point.behind (text ++ s) = (Point.behind s).under text := by
  rw [← Point.advance_behind, h.behind, Point.advance_under]
  rfl

theorem EndsLine.covering (h : EndsLine text) (s covered : List Char) :
    Span.covering (.behind (text ++ s)) covered =
      (Span.covering (.behind s) covered).under text := by
  rw [Span.covering, Span.covering, h.behind_append, Point.advance_under]
  rfl

end Below

/-! ## Lone tags -/

section Standalone

variable {p : Char → Bool} {c : Char}

theorem takeWhile_append_stop (hc : p c = false) (s t : List Char) :
    (s ++ c :: t).takeWhile p = s.takeWhile p := by
  induction s with
  | nil => simp [hc]
  | cons x s ih => simp only [List.cons_append, List.takeWhile_cons, ih]

theorem dropWhile_append_stop (hc : p c = false) (s t : List Char) :
    (s ++ c :: t).dropWhile p = s.dropWhile p ++ c :: t := by
  induction s with
  | nil => simp [hc]
  | cons x s ih =>
    simp only [List.cons_append, List.dropWhile_cons, ih]
    split <;> rfl

/-- A tag is alone on its line if, blanks apart, the source or its line begins before it and ends
behind it. -/
theorem standaloneAt_eq (before after : List Char) :
    standaloneAt before after =
      if (before.dropWhile isIndent).head?.getD '\n' = '\n' ∧
          (after.dropWhile isTrailing).head?.getD '\n' = '\n' then
        some ⟨String.ofList (before.takeWhile isIndent).reverse,
          (after.takeWhile isTrailing).length +
            if (after.dropWhile isTrailing).isEmpty then 0 else 1⟩
      else none := by
  rw [standaloneAt]
  generalize before.dropWhile isIndent = start
  generalize after.dropWhile isTrailing = rest
  cases start with
  | nil =>
    cases rest with
    | nil => simp
    | cons e rest => by_cases he : e = '\n' <;> simp [he]
  | cons c start =>
    cases rest with
    | nil => by_cases hc : c = '\n' <;> simp [hc]
    | cons e rest => by_cases hc : c = '\n' <;> by_cases he : e = '\n' <;> simp [hc, he]

theorem head?_getD_append_stop (s t : List Char) (c : Char) :
    (s ++ c :: t).head?.getD c = s.head?.getD c := by
  cases s <;> rfl

theorem EndsLine.standaloneAt {text : List Char} (h : EndsLine text) (before after : List Char) :
    standaloneAt (before ++ text.reverse) after = Mustache.standaloneAt before after := by
  rcases h with rfl | ⟨s, rfl⟩
  · simp
  · have hreverse : (s ++ ['\n']).reverse = '\n' :: s.reverse := by simp
    rw [standaloneAt_eq, standaloneAt_eq, hreverse, takeWhile_append_stop (by decide),
      dropWhile_append_stop (by decide), head?_getD_append_stop]

theorem standaloneAt_append (before s more : List Char) :
    standaloneAt before (s ++ '\n' :: more) = standaloneAt before (s ++ ['\n']) := by
  have hbelow (t : List Char) :
      (if (s.dropWhile isTrailing ++ '\n' :: t).isEmpty then 0 else 1) = 1 := by simp
  simp only [standaloneAt_eq, takeWhile_append_stop (p := isTrailing) (c := '\n') (by decide),
    dropWhile_append_stop (p := isTrailing) (c := '\n') (by decide), head?_getD_append_stop, hbelow]

theorem trailing_le {before s : List Char} {lone : Standalone}
    (h : standaloneAt before (s ++ ['\n']) = some lone) :
    lone.trailing ≤ (s ++ ['\n']).length := by
  rw [standaloneAt_eq] at h
  split at h
  case isFalse => cases h
  case isTrue =>
  obtain rfl := Option.some.inj h
  have hle := (List.takeWhile_sublist isTrailing (l := s)).length_le
  rw [takeWhile_append_stop (by decide), List.length_append]
  show _ + (if _ then 0 else 1) ≤ s.length + 1
  split <;> omega

theorem indent_le {before after : List Char} {lone : Standalone}
    (h : standaloneAt before after = some lone) : lone.indent.length ≤ before.length := by
  rw [standaloneAt_eq] at h
  split at h
  case isFalse => cases h
  case isTrue =>
  obtain rfl := Option.some.inj h
  rw [String.length_ofList, List.length_reverse]
  exact (List.takeWhile_sublist _).length_le

end Standalone

/-! ## The two scans -/

section Join

variable {pair pair' : UsableDelimiters} {scanned text rest more : List Char}
  {items items' : List Scanned} {failure : Option Error}

theorem newline_not_mem_opening (pair : UsableDelimiters) : '\n' ∉ pair.opening := by
  intro h
  have := pair.isWord_opening.2 '\n' h
  revert this
  decide

theorem newline_not_mem_closer (pair : UsableDelimiters) (sigil : Sigil) :
    '\n' ∉ pair.closer sigil := by
  have hclosing : '\n' ∉ pair.closing := by
    intro h
    have := pair.isWord_closing.2 '\n' h
    revert this
    decide
  cases sigil <;> simpa [closer, Sigil.closer] using hclosing

theorem Scans.under (hline : EndsLine text) (h : Scans scanned pair rest items failure) :
    Scans (text ++ scanned) pair rest (items.map (·.under text)) (failure.map (·.under text)) := by
  induction h with
  | done => exact .done
  | @trailing scanned pair rest hne hmark =>
    have h : Scans (text ++ scanned) pair rest _ none := .trailing hne hmark
    rw [hline.covering] at h
    exact h
  | @tag scanned pair literal sigil body token pair' rest items failure hd hread _ ih =>
    rw [← List.append_assoc, ← List.append_assoc] at ih
    have h := Scans.tag hd hread ih
    rw [hline.covering, List.append_assoc text, hline.covering, List.reverse_append,
      hline.standaloneAt] at h
    exact h
  | @malformed scanned pair literal sigil body fault rest hd hread =>
    have h : Scans (text ++ scanned) pair (literal ++ (pair.tag sigil body ++ rest)) [] _ :=
      .malformed hd hread
    rw [List.append_assoc text, hline.behind_append] at h
    exact h
  | @unclosed scanned pair literal sigil content hopened hleading hclosed =>
    have h : Scans (text ++ scanned) pair
        (literal ++ (pair.opening ++ (sigil.text ++ content))) [] _ :=
      .unclosed hopened hleading hclosed
    rw [List.append_assoc text, hline.behind_append] at h
    exact h

/-- What a scan gives when this text, which has no tag, runs on into what it scans. -/
def runOn (scanned text : List Char) : List Scanned → Option Error → List Scanned
  | [], none => [⟨text, .covering (.behind scanned) text, none⟩]
  | [], some _ => []
  | item :: items, _ =>
    ⟨text ++ item.literal, .covering (.behind scanned) (text ++ item.literal), item.tag⟩ :: items

theorem runOn_cons (scanned text literal : List Char) (span : Span) (tag : Option SpannedToken)
    (items : List Scanned) (failure : Option Error) :
    runOn scanned text (⟨literal, span, tag⟩ :: items) failure =
      ⟨text ++ literal, .covering (.behind scanned) (text ++ literal), tag⟩ :: items := rfl

theorem Scans.prepend (htext : ∃ s, text = s ++ ['\n']) (hmark : ¬ pair.opening <:+: text)
    (h : Scans (scanned ++ text) pair rest items failure) :
    Scans scanned pair (text ++ rest) (runOn scanned text items failure) failure := by
  have happart : ∀ {t}, ¬ pair.opening <:+: t → ¬ pair.opening <:+: text ++ t := by
    intro t ht
    obtain ⟨s, rfl⟩ := htext
    rw [← List.append_cons]
    exact not_infix_append (newline_not_mem_opening pair) hmark ht
  have hopened : ∀ {t}, EndsFirst pair.opening t → EndsFirst pair.opening (text ++ t) := by
    intro t ht
    obtain ⟨s, rfl⟩ := htext
    rw [← List.append_cons]
    exact ht.behind (newline_not_mem_opening pair) hmark
  have hne : text ≠ [] := by
    obtain ⟨s, rfl⟩ := htext
    simp
  generalize hscanned : scanned ++ text = scanned' at h
  cases h with
  | done =>
    rw [List.append_nil]
    exact .trailing hne hmark
  | trailing _ hrest => exact .trailing (by simp [hne]) (happart hrest)
  | tag hd hread hscans =>
    subst hscanned
    rw [List.append_assoc] at hscans ⊢
    rw [runOn_cons, ← List.append_assoc text]
    exact .tag ⟨hopened hd.opened, hd.leading, hd.closed⟩ hread (by
      simpa only [List.append_assoc] using hscans)
  | malformed hd hread =>
    subst hscanned
    rw [List.append_assoc, ← List.append_assoc text]
    exact .malformed ⟨hopened hd.opened, hd.leading, hd.closed⟩ hread
  | unclosed hd hleading hclosed =>
    subst hscanned
    rw [List.append_assoc, ← List.append_assoc text]
    exact .unclosed (hopened hd) hleading hclosed

theorem claim_le {literal s : List Char} {span : Span} {tag : SpannedToken} {before : List Char}
    (h : tag.standalone = standaloneAt before (s ++ ['\n'])) :
    Scanned.claim ⟨literal, span, some tag⟩ ≤ (s ++ ['\n']).length := by
  rw [Scanned.claim, Option.bind_some, SpannedToken.trimmable]
  split
  · rename_i lone hlone
    split at hlone
    · exact trailing_le (h ▸ hlone)
    · cases hlone
  · exact Nat.zero_le _

/-- What is behind the last tag of a text that ends with a line feed ends with it too. -/
theorem endsLine_of_tag {literal body rest s : List Char} {sigil : Sigil}
    (h : literal ++ (pair.tag sigil body ++ rest) = s ++ ['\n']) : ∃ s', rest = s' ++ ['\n'] := by
  rcases List.eq_nil_or_concat rest with rfl | ⟨s', c, rfl⟩
  · obtain ⟨closer, c, hcloser⟩ :=
      (List.eq_nil_or_concat (pair.closer sigil)).resolve_left (pair.closer_ne_nil sigil)
    rw [List.append_nil, tag, hcloser, List.concat_eq_append, ← List.append_assoc body,
      ← List.append_assoc _ _ [c], ← List.append_assoc literal] at h
    have hc : c = '\n' := List.singleton_inj.1 (List.append_inj' h rfl).2
    have hmem : '\n' ∈ pair.closer sigil := by simp [hcloser, hc]
    exact absurd hmem (newline_not_mem_closer pair sigil)
  · rw [List.concat_eq_append, ← List.append_assoc, ← List.append_assoc] at h
    have hc : c = '\n' := List.singleton_inj.1 (List.append_inj' h rfl).2
    exact ⟨s', by rw [hc, List.concat_eq_append]⟩

/-- The scan of a text that ends with a line feed ends in a literal text, into which the scan of
what is below goes on. -/
theorem Scans.join {s : List Char} (hrest : rest = s ++ ['\n'])
    (h : Scans scanned pair rest items none)
    (hpair : pair'.val = inForceBehind pair.val (Scanned.tags items))
    (h' : Scans (scanned ++ rest) pair' more items' failure) :
    ∃ front text span scanned', items = front ++ [⟨text, span, none⟩] ∧
      (∃ s, text = s ++ ['\n']) ∧ (front = [] → text = rest) ∧
      (∀ item ∈ front.getLast?, item.claim ≤ text.length) ∧
      Scans scanned pair (rest ++ more) (front ++ runOn scanned' text items' failure) failure := by
  generalize hnone : (none : Option Error) = ending at h
  induction h generalizing s with
  | done => simp at hrest
  | @trailing scanned pair rest hne hmark =>
    obtain rfl : pair' = pair := Subtype.ext hpair
    exact ⟨[], rest, _, scanned, rfl, ⟨s, hrest⟩, fun _ => rfl, by simp,
      h'.prepend ⟨s, hrest⟩ hmark⟩
  | @tag scanned pair literal sigil body token pair₁ rest items ending hd hread hscans ih =>
    obtain ⟨s', rfl⟩ := endsLine_of_tag hrest
    have hpair' : pair'.val = inForceBehind pair₁.val (Scanned.tags items) := by
      rw [hpair, ← (readTag_eq_ok_iff.1 hread).inForce]
      rfl
    obtain ⟨front, text, span, scanned', hitems, htext, hfront, hclaim, hjoined⟩ :=
      ih rfl hpair' (by simpa only [List.append_assoc] using h') hnone
    have hscans' := Scans.tag hd hread hjoined
    rw [List.append_assoc s', List.singleton_append, standaloneAt_append] at hscans'
    refine ⟨_ :: front, text, span, scanned', by rw [hitems]; rfl, htext, by simp, ?_,
      by simpa only [List.append_assoc, List.cons_append, List.nil_append] using hscans'⟩
    intro item hitem
    rw [List.getLast?_cons] at hitem
    obtain rfl := Option.some.inj hitem
    cases hlast : front.getLast? with
    | none =>
      rw [hfront (List.getLast?_eq_none_iff.1 hlast)]
      exact claim_le rfl
    | some last => exact hclaim last hlast
  | malformed => cases hnone
  | unclosed => cases hnone

end Join

/-! ## A change of delimiters on its line -/

/-- A line with a change to `pair'` on it and nothing else. -/
inductive ChangeLine (pair pair' : UsableDelimiters) : List Char → Prop where
  | intro {indent before gap after trailing : List Char} : (∀ c ∈ indent, isIndent c = true) →
      AllBlank before → gap ≠ [] → AllBlank gap → AllBlank after →
      (∀ c ∈ trailing, isTrailing c = true) →
      ChangeLine pair pair' (indent ++
        (pair.tag .equals (before ++ (pair'.opening ++ (gap ++ pair'.closing) ++ after)) ++
          (trailing ++ ['\n'])))

section ChangeLine

variable {pair pair' : UsableDelimiters}

theorem equals_not_mem_opening (pair : UsableDelimiters) : '=' ∉ pair.opening := fun h =>
  ((Delimiters.markFault?_eq_none_iff.1 (Delimiters.usable_iff.1 pair.property).1).2 '=' h).2 rfl

theorem equals_not_mem_closing (pair : UsableDelimiters) : '=' ∉ pair.closing := fun h =>
  ((Delimiters.markFault?_eq_none_iff.1 (Delimiters.usable_iff.1 pair.property).2).2 '=' h).2 rfl

theorem Text.AllBlank.equals_not_mem {s : List Char} (h : AllBlank s) : '=' ∉ s := by
  intro hmem
  have := h '=' hmem
  revert this
  decide

theorem isTrailing_of_isIndent {c : Char} (h : isIndent c = true) : isTrailing c = true := by
  simp only [isIndent, isTrailing, Bool.or_eq_true] at h ⊢
  exact .inl h

theorem allBlank_of_isTrailing {s : List Char} (h : ∀ c ∈ s, isTrailing c = true) :
    AllBlank s := by
  intro c hc
  have hc := h c hc
  simp only [isTrailing, Bool.or_eq_true, beq_iff_eq] at hc
  rcases hc with (rfl | rfl) | rfl <;> decide

theorem opening_eq_cons (pair : UsableDelimiters) :
    ∃ m mark, pair.opening = m :: mark ∧ ∀ {s}, AllBlank s → m ∉ s := by
  obtain ⟨hne, hword⟩ := pair.isWord_opening
  cases hopening : pair.opening with
  | nil => exact absurd hopening hne
  | cons m mark =>
    refine ⟨m, mark, rfl, fun hs hm => ?_⟩
    have hblank := hs m hm
    rw [hword m (hopening ▸ List.mem_cons_self)] at hblank
    cases hblank

theorem ChangeLine.endsLine {line : List Char} (h : ChangeLine pair pair' line) :
    EndsLine line := by
  obtain ⟨⟩ := h
  rw [← List.append_assoc, ← List.append_assoc]
  exact .inr ⟨_, rfl⟩

theorem ChangeLine.scans {line : List Char} (h : ChangeLine pair pair' line) :
    ∃ (indent trailing : List Char) (span span' : Span) (tag : SpannedToken),
      Scans [] pair line [⟨indent, span, some tag⟩, ⟨trailing ++ ['\n'], span', none⟩] none ∧
        tag.token = .delimiterChange pair'.val ∧
        tag.standalone = some ⟨String.ofList indent, trailing.length + 1⟩ := by
  obtain @⟨indent, before, gap, after, trailing, hindent, hbefore, hne, hgap, hafter,
    htrailing⟩ := h
  have hblank : AllBlank (trailing ++ ['\n']) :=
    (allBlank_of_isTrailing htrailing).append (by decide)
  have hindentBlank : AllBlank indent :=
    allBlank_of_isTrailing fun c hc => isTrailing_of_isIndent (hindent c hc)
  have hd : pair.Delimits indent .equals
      (before ++ (pair'.opening ++ (gap ++ pair'.closing) ++ after)) := by
    obtain ⟨m, mark, hopening, hm⟩ := opening_eq_cons pair
    refine ⟨?_, rfl, endsFirst_of_not_mem ?_⟩
    · rw [hopening]
      exact endsFirst_of_not_mem (hm hindentBlank)
    · simp [hbefore.equals_not_mem, hgap.equals_not_mem, hafter.equals_not_mem,
        equals_not_mem_opening, equals_not_mem_closing]
  have hread : readTag pair .equals
      (trim (before ++ (pair'.opening ++ (gap ++ pair'.closing) ++ after))) =
        .ok (.delimiterChange pair'.val, pair') := by
    refine readTag_eq_ok_iff.2 ?_
    rw [trim_padded (pair'.isWord_opening.trimmed_append pair'.isWord_closing gap)
      (by simp [pair'.opening_ne_nil]) hbefore hafter]
    exact .delimiterChange hne hgap
  have hrest (scanned : List Char) : Scans scanned pair' (trailing ++ ['\n'])
      [⟨trailing ++ ['\n'], .covering (.behind scanned) (trailing ++ ['\n']), none⟩] none := by
    obtain ⟨m, mark, hopening, hm⟩ := opening_eq_cons pair'
    refine .trailing (by simp) ?_
    rw [hopening]
    exact not_infix_of_not_mem (hm hblank)
  have hlone : standaloneAt ([] ++ indent).reverse (trailing ++ ['\n']) =
      some ⟨String.ofList indent, trailing.length + 1⟩ := by
    have hreverse : ∀ c ∈ indent.reverse, isIndent c = true :=
      fun c hc => hindent c (List.mem_reverse.1 hc)
    rw [standaloneAt_eq, List.nil_append, List.dropWhile_eq_nil_iff.2 hreverse,
      List.takeWhile_eq_self_iff.2 hreverse, List.reverse_reverse,
      List.dropWhile_append_of_pos htrailing, List.takeWhile_append_of_pos htrailing]
    simp [isTrailing]
  exact ⟨indent, trailing, _, _, _, .tag hd hread (hrest _), rfl, hlone⟩

end ChangeLine

end Mustache
