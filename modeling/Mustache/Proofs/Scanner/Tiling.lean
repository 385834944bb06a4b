import Mathlib.Data.List.Induction
import Mustache.Proofs.Scanner.Lines

/-!
# Mustache.Proofs.Scanner.Tiling

The spans that a scan gives tile the source.

`Span.Tile` says that spans follow each other from one point to another, without a gap and without
overlap, and `Point.Ends` that a point is where a text ends with which the source starts. The
literals and tags of a scan that succeeds tile the whole source; those of a scan that fails tile
what is before the step that failed, and between them and the malformed tag stands the literal text
of that step (`Scanner.BreaksOff`), which no item gives: `items_tile`.
-/

namespace Mustache

open Text UsableDelimiters

/-! ## Calls of a scanner -/

/-- What one call of `next` after the other gives, the first one being number 0. -/
def Scanner.call : Scanner → Nat → Option (Except Error Scanned)
  | s, 0 => s.next.1
  | s, n + 1 => s.next.2.call n

namespace Scanner

variable {s s' : Scanner}

theorem finished_of_next {answer : Option (Except Error Scanned)} (h : s.next = (answer, s'))
    (hanswer : ∀ item, answer ≠ some (.ok item)) : s'.finished = true := by
  rw [next] at h
  split at h
  · rename_i hfinished
    cases h
    exact hfinished
  · split at h
    · split at h <;> cases h <;> rfl
    · dsimp only at h
      split at h
      · cases h
        rfl
      · cases h
        exact absurd rfl (hanswer _)

theorem call_of_finished (h : s.finished = true) (n : Nat) : s.call n = none := by
  have hnext : s.next = (none, s) := by rw [next, if_pos h]
  induction n with
  | zero => rw [call, hnext]
  | succ n ih => rw [call, hnext, ih]

/-- The calls give the items, then the error, if there is one, and then nothing any more. -/
theorem call_eq (s : Scanner) (n : Nat) :
    s.call n = (s.items.1.map Except.ok ++ s.items.2.toList.map Except.error)[n]? := by
  induction n generalizing s with
  | zero =>
    rcases hnext : s.next with ⟨_ | error | item, s'⟩
    · rw [call, items_of_next_none hnext, hnext]
      rfl
    · rw [call, items_of_next_error hnext, hnext]
      rfl
    · rw [call, items_of_next hnext, hnext]
      rfl
  | succ n ih =>
    rcases hnext : s.next with ⟨_ | error | item, s'⟩
    · rw [call, items_of_next_none hnext, hnext,
        call_of_finished (finished_of_next hnext (by simp))]
      rfl
    · rw [call, items_of_next_error hnext, hnext,
        call_of_finished (finished_of_next hnext (by simp))]
      rfl
    · rw [call, items_of_next hnext, hnext, ih]
      rfl

end Scanner

/-! ## Points -/

/-- The point where a text ends with which the source starts. Its offset counts the bytes of the
text, its line the line feeds, and its column the characters behind the last of these. -/
structure Point.Ends (text : List Char) (p : Point) : Prop where
  reached : p = Point.start.advance text
  offset : p.offset = byteLength text
  line : p.line = 1 + text.count '\n'
  column : p.column = 1 + (text.reverse.takeWhile (· != '\n')).length

theorem Point.column_behind (text : List Char) :
    (Point.behind text).column = 1 + (text.reverse.takeWhile (· != '\n')).length := by
  induction text using List.reverseRecOn with
  | nil => rfl
  | append_singleton text c ih =>
    have hstep : Point.behind (text ++ [c]) = (Point.behind text).step c :=
      Point.advance_append Point.start text [c]
    rw [hstep, List.reverse_append, List.reverse_singleton, List.singleton_append, Point.step]
    by_cases hc : c = '\n'
    · simp [hc]
    · have hstop : (c != '\n') = true := bne_iff_ne.2 hc
      rw [if_neg hc, List.takeWhile_cons, if_pos hstop, List.length_cons]
      dsimp only
      omega

theorem Point.ends_behind (text : List Char) : (Point.behind text).Ends text :=
  ⟨rfl, Point.offset_behind text, Point.line_advance Point.start text, Point.column_behind text⟩

/-! ## Spans -/

/-- The spans of literals and tags, in the order of the source. -/
def Scanned.spans (items : List Scanned) : List Span :=
  items.flatMap fun item => item.span :: item.tag.toList.map (·.span)

/-- The spans follow each other from one point to the other. -/
def Span.Tile : Point → List Span → Point → Prop
  | start, [], stop => start = stop
  | start, span :: spans, stop => span.start = start ∧ Tile span.stop spans stop

/-- The span is that of this text of the source. -/
def Span.Covers (source : List Char) (span : Span) (text : List Char) : Prop :=
  ∃ before after, source = before ++ (text ++ after) ∧ span = .covering (.behind before) text

theorem Span.Covers.slice_eq {source text : List Char} {span : Span}
    (h : span.Covers source text) : text = slice source span.start.offset span.stop.offset := by
  obtain ⟨before, after, rfl, rfl⟩ := h
  rw [Span.covering, Point.advance_behind, Point.offset_behind, Point.offset_behind,
    byteLength_append, slice_append]

theorem Span.Covers.ends {source text : List Char} {span : Span} (h : span.Covers source text) :
    ∃ before, before ++ text <+: source ∧ span.start.Ends before ∧
      span.stop.Ends (before ++ text) := by
  obtain ⟨before, after, rfl, rfl⟩ := h
  refine ⟨before, ⟨after, by rw [List.append_assoc]⟩, Point.ends_behind before, ?_⟩
  rw [Span.covering, Point.advance_behind]
  exact Point.ends_behind (before ++ text)

/-! ## Scans -/

/-- A scan fails with an error at a tag. `covered` is what is before the step that failed, and
`literal` what is between that and the tag, without an earlier opening mark. -/
structure Scanner.BreaksOff (source opening : List Char) (error : Error)
    (covered literal tag : List Char) : Prop where
  stands : covered ++ literal ++ tag <+: source
  opens : opening <+: tag
  first : EndsFirst opening literal
  reported : ∃ fault, ∃ point : Point, point.Ends (covered ++ literal) ∧
    error = .malformedTag (String.ofList tag) fault point.line point.column

theorem Scanner.breaksOff_malformed {source opening covered literal tag : List Char}
    (fault : TagFault) (hstands : covered ++ literal ++ tag <+: source) (hopens : opening <+: tag)
    (hfirst : EndsFirst opening literal) :
    BreaksOff source opening (malformed tag fault (.behind (covered ++ literal))) covered literal
      tag :=
  ⟨hstands, hopens, hfirst, fault, _, Point.ends_behind _, rfl⟩

section Scans

variable {pair : UsableDelimiters} {scanned rest : List Char} {items : List Scanned}
  {failure : Option Error}

/-- Every span of a scan is that of a text of the source, and a literal is the text of its span. -/
theorem Scans.covers (h : Scans scanned pair rest items failure) :
    ∀ item ∈ items, item.span.Covers (scanned ++ rest) item.literal ∧
      ∀ tag ∈ item.tag, ∃ text, tag.span.Covers (scanned ++ rest) text := by
  induction h with
  | done => simp
  | @trailing scanned pair text =>
    intro item hitem
    obtain rfl := List.mem_singleton.1 hitem
    exact ⟨⟨scanned, [], by simp, rfl⟩, by simp⟩
  | @tag scanned pair literal sigil body token pair' rest items failure _ _ _ ih =>
    intro item hitem
    rcases List.mem_cons.1 hitem with rfl | hitem
    · refine ⟨⟨scanned, _, rfl, rfl⟩, ?_⟩
      rintro tag ⟨⟩
      exact ⟨pair.tag sigil body, scanned ++ literal, rest, by rw [List.append_assoc], rfl⟩
    · simpa only [List.append_assoc] using ih item hitem
  | malformed => simp
  | unclosed => simp

/-- The spans of a scan tile what it scans, up to the step that fails, if one does. -/
theorem Scans.tile (h : Scans scanned pair rest items failure) :
    match failure with
    | none => Span.Tile (.behind scanned) (Scanned.spans items) (.behind (scanned ++ rest))
    | some error => ∃ covered literal tag,
        Span.Tile (.behind scanned) (Scanned.spans items) (.behind covered) ∧
        Scanner.BreaksOff (scanned ++ rest)
          (inForceBehind pair.val (Scanned.tags items)).opening.toList error covered literal
          tag := by
  induction h with
  | @done scanned =>
    rw [List.append_nil]
    rfl
  | @trailing scanned pair text => exact ⟨rfl, Point.advance_behind scanned text⟩
  | @tag scanned pair literal sigil body token pair' rest items failure _ hread _ ih =>
    have htile {stop : Point}
        (h : Span.Tile (.behind (scanned ++ literal ++ pair.tag sigil body)) (Scanned.spans items)
          stop) :
        Span.Tile (.behind scanned) (Scanned.spans (⟨literal, .covering (.behind scanned) literal,
          some ⟨token, .covering (.behind (scanned ++ literal)) (pair.tag sigil body),
            standaloneAt (scanned ++ literal).reverse rest⟩⟩ :: items)) stop := by
      refine ⟨rfl, (Point.advance_behind scanned literal).symm, ?_⟩
      rwa [Span.covering, Point.advance_behind]
    cases failure with
    | none =>
      have h := htile ih
      simpa only [List.append_assoc] using h
    | some error =>
      obtain ⟨covered, literal', tag, h, hbreaks⟩ := ih
      refine ⟨covered, literal', tag, htile h, ?_⟩
      rw [← (readTag_eq_ok_iff.1 hread).inForce] at hbreaks
      rwa [List.append_assoc, List.append_assoc] at hbreaks
  | @malformed scanned pair literal sigil body fault rest hd =>
    refine ⟨scanned, literal, pair.tag sigil body, rfl, Scanner.breaksOff_malformed fault
      ⟨rest, by simp only [List.append_assoc]⟩ ?_ hd.opened⟩
    rw [UsableDelimiters.tag, List.append_assoc]
    exact List.prefix_append _ _
  | @unclosed scanned pair literal sigil content hopened =>
    exact ⟨scanned, literal, pair.opening ++ sigil.text, rfl, Scanner.breaksOff_malformed _
      ⟨content, by simp only [List.append_assoc]⟩ (List.prefix_append _ _) hopened⟩

end Scans

/-- A scan ends, and its spans tile the source. Each literal is the text of its span, and all spans
begin and end where texts end with which the source starts. A scan that fails tiles what is before
the step that failed, and its error tells the first character of the malformed tag. -/
theorem items_tile (source : List Char) (pair : UsableDelimiters) :
    let scanner := Scanner.ofUsable source pair
    let items := scanner.items.1
    let failure := scanner.items.2
    (∀ n, scanner.call n = (items.map Except.ok ++ failure.toList.map Except.error)[n]?) ∧
    (∀ item ∈ items, item.literal = slice source item.span.start.offset item.span.stop.offset) ∧
    (∀ span ∈ Scanned.spans items, ∃ before text, before ++ text <+: source ∧
      span.start.Ends before ∧ span.stop.Ends (before ++ text)) ∧
    match failure with
    | none => ∃ stop, Span.Tile .start (Scanned.spans items) stop ∧ stop.Ends source
    | some error => ∃ covered literal tag stop,
        Span.Tile .start (Scanned.spans items) stop ∧ stop.Ends covered ∧
        Scanner.BreaksOff source (inForceBehind pair.val (Scanned.tags items)).opening.toList error
          covered literal tag := by
  intro scanner items failure
  have hscans : Scans [] pair source items failure := items_eq_iff.1 rfl
  refine ⟨scanner.call_eq, fun item hitem => (hscans.covers item hitem).1.slice_eq, ?_, ?_⟩
  · intro span hspan
    obtain ⟨item, hitem, hspan⟩ := List.mem_flatMap.1 hspan
    obtain ⟨hliteral, htag⟩ := hscans.covers item hitem
    rcases List.mem_cons.1 hspan with rfl | hspan
    · obtain ⟨before, h⟩ := hliteral.ends
      exact ⟨before, _, h⟩
    · obtain ⟨tag, hmem, rfl⟩ := List.mem_map.1 hspan
      obtain ⟨text, htext⟩ := htag tag (Option.mem_toList.1 hmem)
      obtain ⟨before, h⟩ := htext.ends
      exact ⟨before, text, h⟩
  · clear_value failure
    have htile := hscans.tile
    cases failure with
    | none => exact ⟨_, htile, Point.ends_behind source⟩
    | some error =>
      obtain ⟨covered, literal, tag, h, hbreaks⟩ := htile
      exact ⟨covered, literal, tag, _, h, Point.ends_behind covered, hbreaks⟩

/-- The literal text in front of a malformed tag is in no item, so these do not tile the source up
to the tag. -/
theorem items_break_off :
    let scanner := Scanner.ofUsable "ab\x7b\x7bx".toList ⟨.standard, Delimiters.standard_usable⟩
    scanner.items =
      ([], some (.malformedTag "\x7b\x7b" (.unclosed "\x7d\x7d") 1 3)) ∧
    (Point.behind "ab".toList).line = 1 ∧ (Point.behind "ab".toList).column = 3 ∧
    ¬ Span.Tile .start (Scanned.spans scanner.items.1) (.behind "ab".toList) := by
  intro scanner
  have hitems : scanner.items =
      ([], some (.malformedTag "\x7b\x7b" (.unclosed "\x7d\x7d") 1 3)) := by decide +kernel
  refine ⟨hitems, rfl, rfl, ?_⟩
  rw [hitems]
  exact fun h : Point.start = Point.behind "ab".toList => absurd h (by decide)

end Mustache
