import Mustache.Proofs.Scanner.Lines
import Mustache.Proofs.Text.Deletion

/-!
# Mustache.Proofs.Scanner.Standalone

Tags that are alone on their lines, and what goes with them.

A tag is alone if nothing but blanks is between it and the line feeds around it (`Text.Alone`); the
scanner finds just these tags (`standaloneAt_eq_alone`). `Trims` lays a source out: each literal
text is what the tag before it claims, then the text that stays, and then the indentation of the tag
behind it. Every scan that succeeds lays its source out so (`Scans.trims`), and then what is claimed
makes up regions one behind the other (`Trims.ascending`), and the texts that stay are the source
without these (`Trims.without_eq`).
-/

namespace Mustache

open Text UsableDelimiters

/-! ## The lines around a place -/

namespace Text

def lastLine (s : List Char) : List Char := (s.reverse.takeWhile (· != '\n')).reverse

def firstLine (s : List Char) : List Char := s.takeWhile (· != '\n')

/-- The first line with its line feed, if it has one. -/
def throughLine (s : List Char) : List Char := s.take ((firstLine s).length + 1)

/-- Nothing but blanks stands between the two texts and the line feeds next to where they meet. -/
def Alone (before after : List Char) : Prop :=
  (∀ c ∈ lastLine before, isIndent c = true) ∧ ∀ c ∈ firstLine after, isTrailing c = true

instance (before after : List Char) : Decidable (Alone before after) :=
  inferInstanceAs (Decidable (_ ∧ _))

section Lines

variable {p : Char → Bool} {s : List Char}

theorem dropWhile_stops_iff (hp : p '\n' = false) :
    (s.dropWhile p).head?.getD '\n' = '\n' ↔ ∀ c ∈ s.takeWhile (· != '\n'), p c = true := by
  induction s with
  | nil => simp
  | cons c s ih =>
    by_cases hc : c = '\n'
    · subst hc
      simp [hp]
    · rw [List.takeWhile_cons_of_pos (by simpa using hc), List.forall_mem_cons, ← ih,
        List.dropWhile_cons]
      cases hpc : p c <;> simp [hc]

theorem takeWhile_eq_of_blank (hp : p '\n' = false)
    (h : ∀ c ∈ s.takeWhile (· != '\n'), p c = true) :
    s.takeWhile p = s.takeWhile (· != '\n') := by
  induction s with
  | nil => rfl
  | cons c s ih =>
    by_cases hc : c = '\n'
    · subst hc
      simp [hp]
    · rw [List.takeWhile_cons_of_pos (by simpa using hc), List.forall_mem_cons] at h
      rw [List.takeWhile_cons_of_pos h.1, ih h.2,
        List.takeWhile_cons_of_pos (p := (· != '\n')) (by simpa using hc)]

theorem throughLine_eq_or (s : List Char) :
    throughLine s = firstLine s ∧ firstLine s = s ∨ throughLine s = firstLine s ++ ['\n'] := by
  have hsplit := List.takeWhile_append_dropWhile (p := (· != '\n')) (l := s)
  cases hrest : s.dropWhile (· != '\n') with
  | nil =>
    rw [hrest, List.append_nil] at hsplit
    exact .inl ⟨by rw [throughLine, firstLine, hsplit, List.take_of_length_le (by omega)], hsplit⟩
  | cons c rest =>
    have hc : c = '\n' := by
      have := List.head?_dropWhile_not (fun c => c != '\n') s
      rw [hrest] at this
      simpa using this
    rw [hrest, hc] at hsplit
    refine .inr ?_
    rw [throughLine, firstLine]
    nth_rewrite 2 [← hsplit]
    rw [List.take_length_add_append, List.take_one, List.head?_cons, Option.toList_some]

theorem prefix_throughLine (s : List Char) : throughLine s <+: s := List.take_prefix _ _

theorem lastLine_suffix (s : List Char) : lastLine s <:+ s := by
  rw [← List.reverse_prefix, lastLine, List.reverse_reverse]
  exact List.takeWhile_prefix _

/-- Behind a text that does not end with indentation, a line of indentation has yet to begin. -/
theorem lastLine_append_suffix {t : List Char} (hs : ∀ x ∈ s.getLast?, isIndent x = false)
    (h : ∀ c ∈ lastLine (s ++ t), isIndent c = true) : lastLine (s ++ t) <:+ t := by
  rcases List.eq_nil_or_concat s with rfl | ⟨s, x, rfl⟩
  · exact lastLine_suffix t
  · have hx := hs x (by simp)
    rw [List.concat_eq_append, List.append_assoc, List.singleton_append] at h ⊢
    rcases List.suffix_or_suffix_of_suffix (List.suffix_append s (x :: t))
      (lastLine_suffix (s ++ x :: t)) with hin | hin
    · rw [h x (hin.subset List.mem_cons_self)] at hx
      cases hx
    · rcases List.suffix_cons_iff.1 hin with heq | hin
      · rw [h x (by rw [heq]; exact List.mem_cons_self)] at hx
        cases hx
      · exact hin

end Lines

end Text

/-- The scanner tells just the tags that are alone, with the blanks around them. -/
theorem standaloneAt_eq_alone (before after : List Char) :
    standaloneAt before.reverse after =
      if Alone before after then
        some ⟨String.ofList (lastLine before), (throughLine after).length⟩
      else none := by
  have hbefore : (∀ c ∈ before.reverse.takeWhile (· != '\n'), isIndent c = true) ↔
      ∀ c ∈ lastLine before, isIndent c = true := by
    simp only [lastLine, List.mem_reverse]
  have halone : (before.reverse.dropWhile isIndent).head?.getD '\n' = '\n' ∧
      (after.dropWhile isTrailing).head?.getD '\n' = '\n' ↔ Alone before after :=
    and_congr ((dropWhile_stops_iff (by decide)).trans hbefore)
      (dropWhile_stops_iff (by decide))
  rw [standaloneAt_eq]
  by_cases h : Alone before after
  · have hlength : (throughLine after).length = (firstLine after).length +
        if (after.dropWhile isTrailing).isEmpty then 0 else 1 := by
      have hsplit := congrArg List.length
        (List.takeWhile_append_dropWhile (p := isTrailing) (l := after))
      rw [takeWhile_eq_of_blank (by decide) h.2, List.length_append] at hsplit
      rw [throughLine, List.length_take, firstLine]
      split
      · rename_i hnil
        rw [List.isEmpty_iff.1 hnil, List.length_nil] at hsplit
        omega
      · rename_i hne
        have := List.length_pos_iff.2 (fun h => hne (List.isEmpty_iff.2 h))
        omega
    rw [if_pos (halone.2 h), if_pos h, takeWhile_eq_of_blank (by decide) (hbefore.2 h.1),
      takeWhile_eq_of_blank (by decide) h.2, hlength]
    rfl
  · rw [if_neg (mt halone.1 h), if_neg h]

/-! ## Tags in a source -/

section Covering

variable (before written rest : List Char)

theorem takeBytes_covering :
    takeBytes (Span.covering (.behind before) written).start.offset
      (before ++ (written ++ rest)) = before := by
  rw [Span.covering, Point.offset_behind, takeBytes_append]

theorem dropBytes_covering :
    dropBytes (Span.covering (.behind before) written).stop.offset
      (before ++ (written ++ rest)) = rest := by
  rw [Span.covering, Point.advance_behind, Point.offset_behind, ← List.append_assoc,
    dropBytes_append]

end Covering

/-- What the span covers is alone on its line, or on its lines. -/
def Span.Alone (source : List Char) (span : Span) : Prop :=
  Text.Alone (takeBytes span.start.offset source) (dropBytes span.stop.offset source)

instance (source : List Char) (span : Span) : Decidable (span.Alone source) :=
  inferInstanceAs (Decidable (Text.Alone _ _))

namespace SpannedToken

variable {source : List Char} {tag : SpannedToken}

/-- The tag leaves no line: it is alone, and writes nothing itself. -/
def Lone (source : List Char) (tag : SpannedToken) : Prop :=
  tag.token.allowsStandalone = true ∧ tag.span.Alone source

instance (source : List Char) (tag : SpannedToken) : Decidable (tag.Lone source) :=
  inferInstanceAs (Decidable (_ ∧ _))

/-- What goes with the tag of the text before it. -/
def leading (source : List Char) (tag : SpannedToken) : List Char :=
  if tag.Lone source then lastLine (takeBytes tag.span.start.offset source) else []

/-- What goes with the tag of the text behind it. -/
def trailing (source : List Char) (tag : SpannedToken) : List Char :=
  if tag.Lone source then throughLine (dropBytes tag.span.stop.offset source) else []

/-- Where the tag and what goes with it stand, in bytes. -/
def regions (source : List Char) (tag : SpannedToken) : List (Nat × Nat) :=
  [(tag.span.start.offset - byteLength (tag.leading source), tag.span.start.offset),
    tag.span.bytes,
    (tag.span.stop.offset, tag.span.stop.offset + byteLength (tag.trailing source))]

end SpannedToken

/-- What the scanner tells of the tag is what the source around it is. -/
def SpannedToken.Told (source : List Char) (tag : SpannedToken) : Prop :=
  tag.standalone = standaloneAt (takeBytes tag.span.start.offset source).reverse
    (dropBytes tag.span.stop.offset source)

namespace SpannedToken

variable {source : List Char} {tag : SpannedToken}

theorem Told.trimmable (h : tag.Told source) :
    tag.trimmable = if tag.Lone source then
      some ⟨String.ofList (tag.leading source), (tag.trailing source).length⟩ else none := by
  rw [SpannedToken.trimmable, h, standaloneAt_eq_alone]
  by_cases hlone : tag.Lone source
  · have halone : Text.Alone _ _ := hlone.2
    rw [if_pos hlone, if_pos hlone.1, if_pos halone, leading, if_pos hlone,
      SpannedToken.trailing, if_pos hlone]
  · rw [if_neg hlone]
    by_cases hallows : tag.token.allowsStandalone = true
    · have halone : ¬ Text.Alone _ _ := fun halone => hlone ⟨hallows, halone⟩
      rw [if_pos hallows, if_neg halone]
    · rw [if_neg hallows]

theorem Told.indent_eq (h : tag.Told source) :
    tag.trimmable.elim "" (·.indent) = String.ofList (tag.leading source) := by
  rw [h.trimmable]
  split
  · rfl
  · rename_i hlone
    rw [leading, if_neg hlone]
    rfl

theorem Told.claim_eq (h : tag.Told source) (literal : List Char) (span : Span) :
    Scanned.claim ⟨literal, span, some tag⟩ = (tag.trailing source).length := by
  rw [Scanned.claim, Option.bind_some, h.trimmable]
  by_cases hlone : tag.Lone source
  · rw [if_pos hlone]
  · rw [if_neg hlone, SpannedToken.trailing, if_neg hlone]
    rfl

end SpannedToken

theorem Scans.told {pair : UsableDelimiters} {scanned rest : List Char} {items : List Scanned}
    {failure : Option Error} (h : Scans scanned pair rest items failure) :
    ∀ tag ∈ Scanned.tags items, tag.Told (scanned ++ rest) := by
  induction h with
  | @tag scanned pair literal sigil body token pair' rest items failure _ _ _ ih =>
    rw [Scanned.tags_some, List.forall_mem_cons]
    have hsource : scanned ++ (literal ++ (pair.tag sigil body ++ rest)) =
        scanned ++ literal ++ (pair.tag sigil body ++ rest) := (List.append_assoc ..).symm
    refine ⟨?_, by simpa only [List.append_assoc] using ih⟩
    rw [SpannedToken.Told, hsource, takeBytes_covering, dropBytes_covering]
  | _ => exact fun tag htag => (List.not_mem_nil htag).elim

/-! ## Literal texts without what is claimed of them -/

/-- Behind `scanned` and with `claimed` gone already, the items lay out `rest`: a literal text is
what the tag before it claims, then one of the `texts`, and then what the tag behind it claims. -/
inductive Trims (source : List Char) :
    List Char → List Char → List Char → List Scanned → List (List Char) → Prop where
  | done {scanned} : Trims source scanned [] [] [] []
  | last {scanned claimed text span} :
      Trims source scanned claimed (claimed ++ text) [⟨claimed ++ text, span, none⟩] [text]
  | tag {scanned claimed literal text written rest span tag items texts} :
      literal = claimed ++ (text ++ tag.leading source) →
      tag.span = .covering (.behind (scanned ++ literal)) written →
      Trims source (scanned ++ literal ++ written) (tag.trailing source) rest items texts →
      Trims source scanned claimed (literal ++ (written ++ rest))
        (⟨literal, span, some tag⟩ :: items) (text :: texts)

/-- What is claimed of the text to come is blanks, and with them the line ends or the source. -/
structure Claims (scanned claimed rest : List Char) : Prop where
  starts : claimed <+: rest
  blank : AllBlank claimed
  ended : claimed = rest ∨ ∀ x ∈ (scanned ++ claimed).getLast?, isIndent x = false

theorem claims_start (source : List Char) : Claims [] [] source :=
  ⟨List.nil_prefix, by simp [AllBlank], .inr (by simp)⟩

theorem isBlank_of_isIndent {c : Char} (h : isIndent c = true) : isBlank c = true :=
  allBlank_of_isTrailing (s := [c]) (by simpa using isTrailing_of_isIndent h) c
    List.mem_cons_self

section Claims

variable {scanned claimed literal written rest : List Char} {source : List Char}

/-- No tag begins within what is claimed, so the next literal text starts with all of it. -/
theorem Claims.prefix_literal (h : Claims scanned claimed (literal ++ (written ++ rest)))
    (hwritten : ∃ m mark, written = m :: mark ∧ isBlank m = false) : claimed <+: literal := by
  obtain ⟨m, mark, rfl, hm⟩ := hwritten
  rcases List.prefix_or_prefix_of_prefix h.starts (List.prefix_append ..) with hin | ⟨more, rfl⟩
  · exact hin
  · have hmore := (List.prefix_append_right_inj literal).1 h.starts
    cases more with
    | nil => simp
    | cons c more =>
      obtain ⟨rfl, -⟩ := List.cons_prefix_cons.1 hmore
      have := h.blank c (by simp)
      rw [hm] at this
      cases this

theorem Claims.of_tag {before : List Char} {tag : SpannedToken}
    (hspan : tag.span = .covering (.behind before) written)
    (hwritten : ∀ x ∈ written.getLast?, isBlank x = false) (hne : written ≠ [])
    (hsource : source = before ++ (written ++ rest)) :
    Claims (before ++ written) (tag.trailing source) rest := by
  have hbehind : dropBytes tag.span.stop.offset source = rest := by
    rw [hspan, hsource, dropBytes_covering]
  have hindent {x : Char} (hx : isBlank x = false) : isIndent x = false :=
    Bool.eq_false_iff.2 fun h => by rw [isBlank_of_isIndent h] at hx; cases hx
  rw [SpannedToken.trailing]
  split
  · rename_i hlone
    have hblank := hlone.2.2
    rw [hbehind] at hblank ⊢
    have hfirst := allBlank_of_isTrailing hblank
    refine ⟨prefix_throughLine rest, ?_, ?_⟩
    · rcases throughLine_eq_or rest with ⟨heq, -⟩ | heq
      · rwa [heq]
      · rw [heq]
        exact hfirst.append (by decide)
    · rcases throughLine_eq_or rest with ⟨heq, hall⟩ | heq
      · exact .inl (heq.trans hall)
      · rw [heq, ← List.append_assoc]
        exact .inr (by simp; decide)
  · refine ⟨List.nil_prefix, by simp [AllBlank], .inr fun x hx => hindent (hwritten x ?_)⟩
    rwa [List.append_nil, List.getLast?_append_of_ne_nil _ hne] at hx

/-- What a tag claims of the literal text before it stands behind what is claimed of it already. -/
theorem Claims.leading_suffix {text : List Char} {tag : SpannedToken}
    (h : Claims scanned claimed (claimed ++ text ++ (written ++ rest))) (hne : written ≠ [])
    (hspan : tag.span = .covering (.behind (scanned ++ (claimed ++ text))) written)
    (hsource : source = scanned ++ (claimed ++ text) ++ (written ++ rest)) :
    tag.leading source <:+ text := by
  have hbefore : takeBytes tag.span.start.offset source = scanned ++ claimed ++ text := by
    rw [hspan, hsource, takeBytes_covering, List.append_assoc]
  have hended := h.ended.resolve_left fun hall => by
    have hlength := congrArg List.length hall
    have := List.length_pos_iff.2 hne
    simp only [List.length_append] at hlength
    omega
  rw [SpannedToken.leading]
  split
  · rename_i hlone
    have hblank := hlone.2.1
    rw [hbefore] at hblank ⊢
    exact lastLine_append_suffix hended hblank
  · exact List.nil_suffix

end Claims

theorem tag_eq_cons (pair : UsableDelimiters) (sigil : Sigil) (body : List Char) :
    ∃ m mark, pair.tag sigil body = m :: mark ∧ isBlank m = false := by
  obtain ⟨hne, hword⟩ := pair.isWord_opening
  obtain ⟨m, mark, hopening⟩ := List.exists_cons_of_ne_nil hne
  refine ⟨m, mark ++ sigil.text ++ (body ++ pair.closer sigil), ?_,
    hword m (hopening ▸ List.mem_cons_self)⟩
  rw [UsableDelimiters.tag, hopening, List.cons_append, List.cons_append]

theorem isBlank_getLast?_tag (pair : UsableDelimiters) (sigil : Sigil) (body : List Char) :
    ∀ x ∈ (pair.tag sigil body).getLast?, isBlank x = false := by
  have hlast : (pair.tag sigil body).getLast? = pair.closing.getLast? := by
    have hcloser : pair.closer sigil <:+ pair.tag sigil body :=
      (List.suffix_append ..).trans (List.suffix_append ..)
    have hclosing : pair.closing <:+ pair.closer sigil := by
      cases sigil <;> simp [closer, Sigil.closer]
    obtain ⟨s, hs⟩ := hclosing.trans hcloser
    rw [← hs, List.getLast?_append_of_ne_nil _ pair.isWord_closing.1]
  rw [hlast]
  exact fun x hx => pair.isWord_closing.2 x (List.mem_of_getLast? hx)

theorem Scans.trims {pair : UsableDelimiters} {source scanned claimed rest : List Char}
    {items : List Scanned} {failure : Option Error} (h : Scans scanned pair rest items failure)
    (hnone : failure = none) (hsource : source = scanned ++ rest)
    (hclaims : Claims scanned claimed rest) :
    ∃ texts, Trims source scanned claimed rest items texts := by
  induction h generalizing claimed with
  | done =>
    obtain rfl := List.prefix_nil.1 hclaims.starts
    exact ⟨[], .done⟩
  | trailing =>
    obtain ⟨text, rfl⟩ := hclaims.starts
    exact ⟨[text], .last⟩
  | @tag scanned pair literal sigil body token pair' rest items failure hd hread hscans ih =>
    have hne := pair.tag_ne_nil sigil body
    have hsource' : source = scanned ++ literal ++ (pair.tag sigil body ++ rest) := by
      rw [hsource, List.append_assoc]
    obtain ⟨text, rfl⟩ := hclaims.prefix_literal (tag_eq_cons pair sigil body)
    generalize htag : SpannedToken.mk token
      (.covering (.behind (scanned ++ (claimed ++ text))) (pair.tag sigil body)) _ = tag
    have hspan : tag.span = .covering (.behind (scanned ++ (claimed ++ text)))
        (pair.tag sigil body) := by rw [← htag]
    have hclaims' := Claims.of_tag hspan (isBlank_getLast?_tag pair sigil body) hne hsource'
    obtain ⟨texts, htexts⟩ := ih hnone (by rw [hsource', List.append_assoc _ _ rest]) hclaims'
    obtain ⟨left, hleft⟩ := hclaims.leading_suffix hne hspan hsource'
    exact ⟨left :: texts, .tag (by rw [hleft]) hspan htexts⟩
  | malformed => cases hnone
  | unclosed => cases hnone

section Trims

variable {source scanned claimed rest : List Char} {items : List Scanned}
  {texts : List (List Char)}

theorem regions_covering {before written : List Char} {tag : SpannedToken}
    (hspan : tag.span = .covering (.behind (before ++ tag.leading source)) written) :
    tag.regions source =
      [(byteLength before, byteLength (before ++ tag.leading source)),
        (byteLength (before ++ tag.leading source),
          byteLength (before ++ tag.leading source ++ written)),
        (byteLength (before ++ tag.leading source ++ written),
          byteLength (before ++ tag.leading source ++ written ++ tag.trailing source))] := by
  rw [SpannedToken.regions, hspan, Span.bytes, Span.covering, Point.advance_behind,
    Point.offset_behind, Point.offset_behind, byteLength_append before, Nat.add_sub_cancel,
    ← byteLength_append, ← byteLength_append]

/-- What is claimed lies in regions one behind the other. -/
theorem Trims.ascending (h : Trims source scanned claimed rest items texts) :
    Ascending (byteLength (scanned ++ claimed))
      ((Scanned.tags items).flatMap (·.regions source)) := by
  induction h with
  | done => trivial
  | last => trivial
  | @tag scanned claimed literal text written rest span tag items texts hliteral hspan _ ih =>
    have hbefore : scanned ++ literal = scanned ++ claimed ++ text ++ tag.leading source := by
      rw [hliteral]
      simp only [List.append_assoc]
    rw [hbefore] at hspan ih
    rw [Scanned.tags_some, List.flatMap_cons, regions_covering hspan]
    simp only [byteLength_append, Ascending, List.cons_append, List.nil_append] at ih ⊢
    exact ⟨by omega, by omega, by omega, by omega, by omega, by omega, ih⟩

theorem Trims.without_eq (h : Trims source scanned claimed rest items texts) :
    without ((byteLength scanned, byteLength (scanned ++ claimed)) ::
      (Scanned.tags items).flatMap (·.regions source)) (byteLength scanned) rest =
        texts.flatten := by
  induction h with
  | done => rfl
  | @last scanned claimed text span =>
    rw [without_append, without_covered List.mem_cons_self (Nat.le_refl _)
        (by rw [byteLength_append]), without_clear]
    · simp
    · simp [byteLength_append]
  | @tag scanned claimed literal text written rest span tag items texts hliteral hspan hrest ih =>
    have hbefore : scanned ++ literal = scanned ++ claimed ++ text ++ tag.leading source := by
      rw [hliteral]
      simp only [List.append_assoc]
    have hascending := hrest.ascending
    rw [hbefore] at hspan ih hascending
    have hparts : literal ++ (written ++ rest) =
        claimed ++ (text ++ (tag.leading source ++ (written ++ rest))) := by
      rw [hliteral]
      simp only [List.append_assoc]
    rw [Scanned.tags_some, List.flatMap_cons, regions_covering hspan, hparts, List.flatten_cons,
      ← ih]
    exact without_parts (byteLength_append scanned claimed) (byteLength_append _ text)
      (byteLength_append ..) (byteLength_append _ written)
      (by rw [byteLength_append _ (tag.trailing source)]; exact Nat.le_add_right ..)
      hascending.begin_le

end Trims

end Mustache
