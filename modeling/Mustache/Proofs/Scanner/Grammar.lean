import Mustache.Proofs.Scanner.Run
import Mustache.Proofs.Text.Words

/-!
# Mustache.Proofs.Scanner.Grammar

The grammar of templates, and that the scanner accepts exactly what is written in it.

`Denotes` says which token a tag is, by its sigil and its trimmed body. `Written` says how a source
is put together from literal texts and tags, each tag under the pair of delimiters in force where
it stands. Neither speaks of positions or of searching from the left: that a mark does not occur
earlier is a condition on the parts. `gives_iff_written` says that the scanner succeeds on the
sources that are written so, and only on them, with the texts and tokens of which they are written;
no source is written in two ways.
-/

namespace Mustache

open Text UsableDelimiters

def Sigil.marks : List Char := ['#', '^', '/', '!', '>', '&', '\x7b', '=']

theorem Sigil.ofChar_eq_plain_iff {c : Char} : Sigil.ofChar c = .plain ↔ c ∉ Sigil.marks := by
  unfold Sigil.ofChar
  split <;> simp_all [Sigil.marks]

namespace UsableDelimiters

abbrev closing (pair : UsableDelimiters) : List Char := pair.val.closing.toList

theorem isWord_opening (pair : UsableDelimiters) : IsWord pair.opening := by
  obtain ⟨hne, h⟩ := Delimiters.markFault?_eq_none_iff.1 (Delimiters.usable_iff.1 pair.property).1
  exact ⟨hne, fun c hc => (h c hc).1⟩

theorem isWord_closing (pair : UsableDelimiters) : IsWord pair.closing := by
  obtain ⟨hne, h⟩ := Delimiters.markFault?_eq_none_iff.1 (Delimiters.usable_iff.1 pair.property).2
  exact ⟨hne, fun c hc => (h c hc).1⟩

end UsableDelimiters

/-! ## Tags -/

/-- A tag with this sigil and this trimmed body is `token`, and has `pair'` in force behind it. -/
inductive Denotes (pair : UsableDelimiters) :
    Sigil → List Char → Token → UsableDelimiters → Prop where
  | escaped {name} : IsWord name →
      Denotes pair .plain name (.interpolation (String.ofList name) true) pair
  | braced {name} : IsWord name →
      Denotes pair .brace name (.interpolation (String.ofList name) false) pair
  | unescaped {name} : IsWord name →
      Denotes pair .ampersand name (.interpolation (String.ofList name) false) pair
  | sectionOpen {name} : IsWord name →
      Denotes pair .hash name (.sectionOpen (String.ofList name)) pair
  | invertedOpen {name} : IsWord name →
      Denotes pair .caret name (.invertedOpen (String.ofList name)) pair
  | sectionClose {name} : IsWord name →
      Denotes pair .slash name (.sectionClose (String.ofList name)) pair
  | partialTag {name} : IsWord name →
      Denotes pair .greater name (.partialTag (String.ofList name)) pair
  | comment {text} : Denotes pair .bang text (.comment (String.ofList text)) pair
  | delimiterChange {pair' : UsableDelimiters} {gap} : gap ≠ [] → AllBlank gap →
      Denotes pair .equals (pair'.opening ++ (gap ++ pair'.closing)) (.delimiterChange pair'.val)
        pair'

theorem readName_eq_ok_iff {body : List Char} {name : String} :
    readName body = .ok name ↔ IsWord body ∧ name = String.ofList body := by
  unfold readName IsWord
  constructor
  · intro h
    split at h
    · cases h
    · rename_i hne
      split at h
      · cases h
      · rename_i hblank
        cases h
        refine ⟨⟨by simpa using hne, fun c hc => ?_⟩, rfl⟩
        simp only [List.any_eq_true, not_exists, not_and, Bool.not_eq_true] at hblank
        exact hblank c hc
  · rintro ⟨⟨hne, hblank⟩, rfl⟩
    rw [if_neg (by simpa using hne), if_neg]
    simp only [List.any_eq_true, not_exists, not_and, Bool.not_eq_true]
    exact hblank

theorem Delimiters.check_eq_ok_iff {d : Delimiters} {pair : UsableDelimiters} :
    d.check = .ok pair ↔ d = pair.val := by
  constructor
  · intro h
    rw [Delimiters.check] at h
    split at h <;> cases h
    rfl
  · rintro rfl
    exact Delimiters.check_val pair

theorem readDelimiters_eq_ok_iff {s : List Char} {pair : UsableDelimiters} :
    readDelimiters (trim s) = .ok pair ↔
      ∃ gap, gap ≠ [] ∧ AllBlank gap ∧ trim s = pair.opening ++ (gap ++ pair.closing) := by
  constructor
  · intro h
    rw [readDelimiters] at h
    split at h
    · rename_i o c hwords
      split at h
      · cases h
      · rename_i delimiters hcheck
        cases h
        obtain ⟨-, -, gap, hne, hgap, hs⟩ := words_trim_eq_pair_iff.1 hwords
        refine ⟨gap, hne, hgap, ?_⟩
        rw [hs, opening, closing, ← Delimiters.check_eq_ok_iff.1 hcheck]
        simp only [String.toList_ofList]
    · cases h
  · rintro ⟨gap, hne, hgap, hs⟩
    have hwords : words (trim s) = [pair.opening, pair.closing] :=
      words_trim_eq_pair_iff.2 ⟨pair.isWord_opening, pair.isWord_closing, gap, hne, hgap, hs⟩
    have hcheck : Delimiters.check ⟨String.ofList pair.opening, String.ofList pair.closing⟩ =
        .ok pair := by
      rw [Delimiters.check_eq_ok_iff, String.ofList_toList, String.ofList_toList]
    rw [readDelimiters, hwords]
    simp only [hcheck]

theorem readTag_eq_ok_iff {pair pair' : UsableDelimiters} {sigil : Sigil} {body : List Char}
    {token : Token} :
    readTag pair sigil (trim body) = .ok (token, pair') ↔
      Denotes pair sigil (trim body) token pair' := by
  constructor
  · intro h
    cases sigil with
    | bang =>
      cases h
      exact .comment
    | equals =>
      simp only [readTag] at h
      split at h
      · cases h
      · rename_i delimiters hread
        cases h
        obtain ⟨gap, hne, hgap, hbody⟩ := readDelimiters_eq_ok_iff.1 hread
        rw [hbody]
        exact .delimiterChange hne hgap
    | _ =>
      simp only [readTag] at h
      split at h
      · cases h
      · rename_i name hread
        obtain ⟨hword, rfl⟩ := readName_eq_ok_iff.1 hread
        cases h
        constructor
        exact hword
  · intro h
    generalize hcore : trim body = core at h
    cases h with
    | comment => rfl
    | delimiterChange hne hgap =>
      have hread := readDelimiters_eq_ok_iff.2 ⟨_, hne, hgap, hcore⟩
      rw [hcore] at hread
      simp only [readTag, hread]
    | _ hword => simp only [readTag, readName_eq_ok_iff.2 ⟨hword, rfl⟩]

theorem Denotes.ne_nil {pair pair' : UsableDelimiters} {sigil : Sigil} {body : List Char}
    {token : Token} (h : Denotes pair sigil (trim body) token pair') (hsigil : sigil = .plain) :
    body ≠ [] := by
  rintro rfl
  subst hsigil
  generalize hcore : trim [] = core at h
  cases h with
  | escaped hword => exact hword.1 hcore.symm

/-- Which sigil a tag begins with, said of its body alone. -/
theorem leading_eq_iff (pair : UsableDelimiters) {sigil : Sigil} {body : List Char}
    (hbody : sigil = .plain → body ≠ []) :
    Sigil.leading (sigil.text ++ (body ++ pair.closer sigil)) = sigil ↔
      (sigil = .plain → ∀ c ∈ body.head?, c ∉ Sigil.marks) := by
  cases sigil with
  | plain =>
    obtain ⟨c, body, rfl⟩ := List.exists_cons_of_ne_nil (hbody rfl)
    rw [show Sigil.leading (Sigil.text .plain ++ (c :: body ++ pair.closer .plain)) =
      Sigil.ofChar c from rfl, Sigil.ofChar_eq_plain_iff]
    simp
  | _ =>
    constructor
    · intro _ h
      cases h
    · intro _
      rfl

/-! ## Sources -/

/-- A tag as it is written, with the literal text before it, and the token that it is. -/
structure Lexeme where
  literal : List Char
  sigil : Sigil
  body : List Char
  token : Token

/-- With `pair` in force at its start, the source is written with these tags, each behind its
literal text, and this text behind the last of them. -/
inductive Written : UsableDelimiters → List Lexeme → List Char → List Char → Prop where
  | trailing {pair text} : ¬ pair.opening <:+: text → Written pair [] text text
  | tag {pair literal sigil body token pair' lexemes text rest} :
      EndsFirst pair.opening literal →
      EndsFirst (pair.closer sigil) body →
      (sigil = .plain → ∀ c ∈ body.head?, c ∉ Sigil.marks) →
      Denotes pair sigil (trim body) token pair' →
      Written pair' lexemes text rest →
      Written pair (⟨literal, sigil, body, token⟩ :: lexemes) text
        (literal ++ (pair.tag sigil body ++ rest))

/-- What a scan gives: tags, each with the literal text before it, and the text behind the last. -/
inductive Gives : List Scanned → List (List Char × Token) → List Char → Prop where
  | nothing : Gives [] [] []
  | trailing {text span} : text ≠ [] → Gives [⟨text, span, none⟩] [] text
  | tag {literal span tag items tags text} : Gives items tags text →
      Gives (⟨literal, span, some tag⟩ :: items) ((literal, tag.token) :: tags) text

def Lexeme.heard (x : Lexeme) : List Char × Token := (x.literal, x.token)

theorem Gives.unique {items : List Scanned} {tags tags' : List (List Char × Token)}
    {text text' : List Char} (h : Gives items tags text) (h' : Gives items tags' text') :
    tags = tags' ∧ text = text' := by
  induction h generalizing tags' text' with
  | nothing =>
    cases h'
    exact ⟨rfl, rfl⟩
  | trailing =>
    cases h'
    exact ⟨rfl, rfl⟩
  | tag _ ih =>
    cases h' with
    | tag h' =>
      obtain ⟨rfl, rfl⟩ := ih h'
      exact ⟨rfl, rfl⟩

section Sources

variable {pair : UsableDelimiters} {scanned rest : List Char} {items : List Scanned}

theorem Scans.written {failure : Option Error} (h : Scans scanned pair rest items failure)
    (hok : failure = none) :
    ∃ lexemes text, Written pair lexemes text rest ∧
      Gives items (lexemes.map Lexeme.heard) text := by
  induction h with
  | @done _ pair =>
    exact ⟨[], [], .trailing fun h => pair.opening_ne_nil (List.eq_nil_of_infix_nil h), .nothing⟩
  | trailing hne htext => exact ⟨[], _, .trailing htext, .trailing hne⟩
  | @tag _ pair literal sigil body token _ _ _ _ hd hread _ ih =>
    obtain ⟨lexemes, text, hwritten, hgives⟩ := ih hok
    have hdenotes := readTag_eq_ok_iff.1 hread
    have hmarks := (leading_eq_iff pair hdenotes.ne_nil).1 hd.leading
    exact ⟨⟨literal, sigil, body, token⟩ :: lexemes, text,
      .tag hd.opened hd.closed hmarks hdenotes hwritten, .tag hgives⟩
  | malformed => cases hok
  | unclosed => cases hok

theorem Written.scans {lexemes : List Lexeme} {text : List Char}
    (h : Written pair lexemes text rest) (scanned : List Char) :
    ∃ items, Scans scanned pair rest items none ∧ Gives items (lexemes.map Lexeme.heard) text := by
  induction h generalizing scanned with
  | @trailing pair text htext =>
    by_cases hne : text = []
    · subst hne
      exact ⟨[], .done, .nothing⟩
    · exact ⟨_, .trailing hne htext, .trailing hne⟩
  | @tag pair _ _ _ _ _ _ _ _ hopened hclosed hmarks hdenotes _ ih =>
    obtain ⟨items, hscans, hgives⟩ := ih _
    have hleading := (leading_eq_iff pair hdenotes.ne_nil).2 hmarks
    exact ⟨_, .tag ⟨hopened, hleading, hclosed⟩ (readTag_eq_ok_iff.2 hdenotes) hscans,
      .tag hgives⟩

/-- No source is written in two ways. -/
theorem Written.unique {lexemes lexemes' : List Lexeme} {text text' : List Char}
    (h : Written pair lexemes text rest) (h' : Written pair lexemes' text' rest) :
    lexemes = lexemes' ∧ text = text' := by
  induction h generalizing lexemes' text' with
  | trailing htext =>
    cases h' with
    | trailing => exact ⟨rfl, rfl⟩
    | tag =>
      rw [tag_append] at htext
      exact absurd ⟨_, _, List.append_assoc ..⟩ htext
  | @tag pair literal sigil body token pair' lexemes text rest hopened hclosed hmarks hdenotes
      _ ih =>
    generalize hsource : literal ++ (pair.tag sigil body ++ rest) = source at h'
    cases h' with
    | trailing htext =>
      rw [← hsource, tag_append] at htext
      exact absurd ⟨_, _, List.append_assoc ..⟩ htext
    | @tag _ literal' sigil' body' token' _ _ _ rest' hopened' hclosed' hmarks' hdenotes'
        hwritten' =>
      -- The first opening mark tells the literal texts, the character behind it the sigils, and
      -- the first place that closes the tag the bodies.
      rw [tag_append, tag_append] at hsource
      have hcut := cut_append hopened (sigil.text ++ (body ++ (pair.closer sigil ++ rest)))
      rw [hsource, cut_append hopened'] at hcut
      obtain ⟨rfl, hafter⟩ := Prod.mk.inj (Option.some.inj hcut)
      have hsigil : sigil' = sigil := by
        have hleading := congrArg Sigil.leading hafter
        rw [pair.leading_append, pair.leading_append,
          (leading_eq_iff pair hdenotes.ne_nil).2 hmarks,
          (leading_eq_iff pair hdenotes'.ne_nil).2 hmarks'] at hleading
        exact hleading
      subst hsigil
      have hcut' := cut_append hclosed rest
      rw [← List.append_cancel_left hafter, cut_append hclosed'] at hcut'
      obtain ⟨rfl, rfl⟩ := Prod.mk.inj (Option.some.inj hcut')
      have hread := readTag_eq_ok_iff.2 hdenotes
      rw [readTag_eq_ok_iff.2 hdenotes'] at hread
      cases hread
      obtain ⟨rfl, rfl⟩ := ih hwritten'
      exact ⟨rfl, rfl⟩

end Sources

/-- The scanner succeeds, with these texts and tokens, just on a source that is written with them;
and no source is written in two ways. -/
theorem gives_iff_written (source : List Char) (pair : UsableDelimiters) :
    (∀ tags text,
      (∃ items, (Scanner.ofUsable source pair).items = (items, none) ∧ Gives items tags text) ↔
        ∃ lexemes, Written pair lexemes text source ∧ tags = lexemes.map Lexeme.heard) ∧
    ∀ lexemes text lexemes' text', Written pair lexemes text source →
      Written pair lexemes' text' source → lexemes = lexemes' ∧ text = text' := by
  refine ⟨fun tags text => ⟨?_, ?_⟩, fun _ _ _ _ => Written.unique⟩
  · rintro ⟨items, hitems, hgives⟩
    rw [Scanner.ofUsable_eq_behind] at hitems
    obtain ⟨lexemes, text', hwritten, hgives'⟩ := (items_eq_iff.1 hitems).written rfl
    obtain ⟨rfl, rfl⟩ := hgives.unique hgives'
    exact ⟨lexemes, hwritten, rfl⟩
  · rintro ⟨lexemes, hwritten, rfl⟩
    obtain ⟨items, hscans, hgives⟩ := hwritten.scans []
    exact ⟨items, hscans.items_eq, hgives⟩

/-- One mark for both ends of a tag, and a change to marks that differ. -/
theorem gives_iff_written_switch :
    let bars : UsableDelimiters := ⟨⟨"|", "|"⟩, by decide⟩
    let angles : UsableDelimiters := ⟨⟨"<%", "%>"⟩, by decide⟩
    let source := "x|=<% %>=|<%{y}%>|".toList
    let lexemes : List Lexeme :=
      [⟨['x'], .equals, "<% %>".toList, .delimiterChange angles.val⟩,
        ⟨[], .brace, ['y'], .interpolation "y" false⟩]
    Written bars lexemes ['|'] source ∧
      (∃ items, (Scanner.ofUsable source bars).items = (items, none) ∧
        Gives items (lexemes.map Lexeme.heard) ['|']) ∧
      ∀ lexemes' text', Written bars lexemes' text' source →
        lexemes' = lexemes ∧ text' = ['|'] := by
  intro bars angles source lexemes
  have hcut {mark s t : List Char} (h : cut mark s = some (t, [])) : EndsFirst mark t :=
    endsFirst_of_cut h
  have hname : Denotes angles .brace (trim ['y']) (.interpolation "y" false) angles :=
    readTag_eq_ok_iff.1 (by decide)
  have hchange : Denotes bars .equals (trim "<% %>".toList) (.delimiterChange angles.val) angles :=
    readTag_eq_ok_iff.1 (by decide)
  have hsecond : Written angles lexemes.tail ['|'] ([] ++ (angles.tag .brace ['y'] ++ ['|'])) :=
    .tag (endsFirst_nil _) (hcut (s := "y\x7d%>".toList) (by decide)) (by decide) hname
      (.trailing (by decide))
  have h : Written bars lexemes ['|'] (['x'] ++ (bars.tag .equals "<% %>".toList ++
      ([] ++ (angles.tag .brace ['y'] ++ ['|'])))) :=
    .tag (hcut (s := "x|".toList) (by decide)) (hcut (s := "<% %>=|".toList) (by decide))
      (by decide) hchange hsecond
  have hsource : ['x'] ++ (bars.tag .equals "<% %>".toList ++
      ([] ++ (angles.tag .brace ['y'] ++ ['|']))) = source := by decide
  rw [hsource] at h
  obtain ⟨hgives, hunique⟩ := gives_iff_written source bars
  exact ⟨h, (hgives _ _).2 ⟨lexemes, h, rfl⟩, fun _ _ h' => hunique _ _ _ _ h' h⟩

end Mustache
