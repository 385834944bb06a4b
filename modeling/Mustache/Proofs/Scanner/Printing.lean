import Mustache.Proofs.Scanner.Lines

/-!
# Mustache.Proofs.Scanner.Printing

Scanning a tag in the form in which it is printed.

A tag is printed in one spelling, under the standard delimiters (`Token.written`); in a source it
may have blanks around its body, stand in braces, or be written under other delimiters. What is
printed is a tag for the printed sigil and the body (`Token.toList_written`), and a tag for these
is read as the token, however it was written before (`Denotes.printed`). So the printed form gives
the token back just if it begins with this sigil and is closed behind this body and not before
(`Denotes.scansBack_iff_delimits`), which is a condition on the characters of the body
(`Token.Legible`): `Token.scansBack_iff`.
-/

namespace Mustache

open Text UsableDelimiters

def UsableDelimiters.standard : UsableDelimiters := ⟨.standard, Delimiters.standard_usable⟩

namespace Token

def printedSigil : Token → Sigil
  | .text _ => .plain
  | .interpolation _ true => .plain
  | .interpolation _ false => .ampersand
  | .sectionOpen _ => .hash
  | .invertedOpen _ => .caret
  | .sectionClose _ => .slash
  | .partialTag _ => .greater
  | .comment _ => .bang
  | .delimiterChange _ => .equals

def printedBody : Token → List Char
  | .delimiterChange d => d.text.toList
  | token => token.body.toList

/-- Scanning the printed form gives the token, with no text before it, and nothing else. -/
def ScansBack (token : Token) : Prop :=
  ∃ item : Scanned, (Scanner.ofUsable token.written.toList standard).items = ([item], none) ∧
    item.literal = [] ∧ item.tag.map (·.token) = some token

/-- The body neither holds two closing braces nor ends in one, and where no sigil is printed it does
not begin with one. The marks of a change of delimiters are closed by another character. -/
def Legible (token : Token) : Prop :=
  (token.printedSigil ≠ .equals → ¬ ['\x7d', '\x7d'] <:+: token.printedBody ∧
    token.printedBody.getLast? ≠ some '\x7d') ∧
  (token.printedSigil = .plain → ∀ c ∈ token.printedBody.head?, c ∉ Sigil.marks)

instance (token : Token) : Decidable token.Legible :=
  have : Decidable (∀ c ∈ token.printedBody.head?, c ∉ Sigil.marks) := Option.decidableForallMem _
  inferInstanceAs (Decidable (_ ∧ _))

theorem toList_text (d : Delimiters) :
    d.text.toList = d.opening.toList ++ ([' '] ++ d.closing.toList) := by
  rw [Delimiters.text]
  simp [String.toList_append, toString]

theorem toList_written {token : Token} (h : token.IsTag) :
    token.written.toList = standard.tag token.printedSigil token.printedBody := by
  cases token with
  | text => exact h.elim
  | interpolation path escaped => cases escaped <;> simp [written, String.toList_append] <;> rfl
  | delimiterChange d =>
    simp only [written, String.toList_append, body]
    simp [UsableDelimiters.tag, printedBody, List.append_assoc]
    rfl
  | _ =>
    simp only [written, String.toList_append]
    simp [UsableDelimiters.tag, printedBody, List.append_assoc]
    rfl

end Token

/-! ## Tags in their printed form -/

section Printed

variable {pair pair' : UsableDelimiters} {sigil : Sigil} {body : List Char} {token : Token}

theorem Denotes.trim_printedBody (h : Denotes pair sigil (trim body) token pair') :
    trim token.printedBody = token.printedBody := by
  refine Trimmed.trim_eq ?_
  generalize hcore : trim body = core at h
  cases h with
  | comment =>
    show Trimmed (String.ofList core).toList
    rw [String.toList_ofList, ← hcore]
    exact trim_ends body
  | delimiterChange =>
    show Trimmed pair'.val.text.toList
    rw [Token.toList_text]
    exact pair'.isWord_opening.trimmed_append pair'.isWord_closing _
  | _ hword =>
    show Trimmed (String.ofList core).toList
    rw [String.toList_ofList]
    exact hword.trimmed

/-- With its printed sigil and body, a tag is the token that it was. -/
theorem Denotes.printed (h : Denotes pair sigil (trim body) token pair') :
    ∃ pair'', Denotes standard token.printedSigil (trim token.printedBody) token pair'' := by
  rw [h.trim_printedBody]
  generalize trim body = core at h
  cases h with
  | delimiterChange =>
    have hchange : Denotes standard .equals pair'.val.text.toList (.delimiterChange pair'.val)
        pair' := by
      rw [Token.toList_text]
      exact .delimiterChange (by simp) (by decide)
    exact ⟨pair', hchange⟩
  | comment =>
    have hcomment : Denotes standard .bang (String.ofList core).toList
        (.comment (String.ofList core)) standard := by
      rw [String.toList_ofList]
      exact .comment
    exact ⟨standard, hcomment⟩
  | _ hword =>
    refine ⟨standard, ?_⟩
    simp only [Token.printedBody, Token.body, String.toList_ofList]
    constructor
    exact hword

/-- A token that is written with another sigil than the printed one is written in braces. -/
theorem Denotes.sigil_eq_or (h : Denotes pair sigil body token pair') :
    sigil = token.printedSigil ∨ sigil = .brace ∧ token.printedSigil = .ampersand := by
  cases h with
  | braced => exact .inr ⟨rfl, rfl⟩
  | _ => exact .inl rfl

/-- The printed form gives the token back just if it begins with the printed sigil and is closed
behind the printed body, and not before. -/
theorem Denotes.scansBack_iff_delimits (h : Denotes pair sigil (trim body) token pair') :
    token.ScansBack ↔ standard.Delimits [] token.printedSigil token.printedBody := by
  obtain ⟨pair₁, hprinted⟩ := h.printed
  have hwritten := Token.toList_written h.isTag
  constructor
  · rintro ⟨item, hitems, hliteral, htoken⟩
    rw [Scanner.ofUsable_eq_behind] at hitems
    have hscans := items_eq_iff.1 hitems
    generalize hsource : token.written.toList = source at hscans
    cases hscans with
    | trailing => cases htoken
    | @tag _ _ literal sigil' body' token' pair₂ rest _ _ hd hread hrest =>
      obtain rfl : token' = token := Option.some.inj htoken
      obtain rfl : literal = [] := hliteral
      cases hrest
      have htag : standard.tag token'.printedSigil token'.printedBody =
          standard.tag sigil' body' := by
        rw [← hwritten, hsource, List.nil_append, List.append_nil]
      rcases (readTag_eq_ok_iff.1 hread).sigil_eq_or with rfl | ⟨rfl, hsigil⟩
      · have hbody : token'.printedBody = body' :=
          List.append_cancel_right (List.append_cancel_left htag)
        rw [hbody]
        exact hd
      · -- A brace is not printed, so the two tags differ behind their opening marks.
        rw [hsigil] at htag
        cases htag
  · intro hd
    have hscans : Scans [] standard
        ([] ++ (standard.tag token.printedSigil token.printedBody ++ [])) _ none :=
      .tag hd (readTag_eq_ok_iff.2 hprinted) .done
    rw [List.nil_append, List.append_nil, ← hwritten] at hscans
    exact ⟨_, hscans.items_eq, rfl, rfl⟩

theorem Token.standard_closer (token : Token) :
    standard.closer token.printedSigil =
      if token.printedSigil = .equals then ['=', '\x7d', '\x7d'] else ['\x7d', '\x7d'] := by
  cases token with
  | interpolation path escaped => cases escaped <;> rfl
  | _ => rfl

theorem Token.equals_not_mem_printedBody (h : token.IsTag) (hsigil : token.printedSigil = .equals) :
    '=' ∉ token.printedBody := by
  cases token with
  | delimiterChange d =>
    have hopening : '=' ∉ d.opening.toList := equals_not_mem_opening ⟨d, h⟩
    have hclosing : '=' ∉ d.closing.toList := equals_not_mem_closing ⟨d, h⟩
    show '=' ∉ d.text.toList
    rw [toList_text]
    simp [hopening, hclosing]
  | interpolation path escaped => cases escaped <;> cases hsigil
  | _ => cases hsigil

/-- Where the printed form is closed, said of the characters of the body. -/
theorem Denotes.endsFirst_iff (h : Denotes pair sigil (trim body) token pair') :
    EndsFirst (standard.closer token.printedSigil) token.printedBody ↔
      (token.printedSigil ≠ .equals → ¬ ['\x7d', '\x7d'] <:+: token.printedBody ∧
        token.printedBody.getLast? ≠ some '\x7d') := by
  rw [token.standard_closer]
  by_cases hsigil : token.printedSigil = .equals
  · have hfirst : EndsFirst ['=', '\x7d', '\x7d'] token.printedBody :=
      endsFirst_of_not_mem (Token.equals_not_mem_printedBody h.isTag hsigil)
    rw [if_pos hsigil]
    exact ⟨fun _ hne => absurd hsigil hne, fun _ => hfirst⟩
  · rw [if_neg hsigil, endsFirst_twice_iff]
    exact ⟨fun hclosed _ => hclosed, fun hclosed => hclosed hsigil⟩

theorem Denotes.scansBack_iff_legible (h : Denotes pair sigil (trim body) token pair') :
    token.ScansBack ↔ token.Legible := by
  obtain ⟨_, hprinted⟩ := h.printed
  rw [h.scansBack_iff_delimits, Token.Legible, ← h.endsFirst_iff,
    ← leading_eq_iff standard hprinted.ne_nil]
  exact ⟨fun hd => ⟨hd.closed, hd.leading⟩, fun hd => ⟨endsFirst_nil _, hd.2, hd.1⟩⟩

end Printed

theorem Scans.denotes {pair : UsableDelimiters} {scanned rest : List Char} {items : List Scanned}
    {failure : Option Error} (h : Scans scanned pair rest items failure) :
    ∀ tag ∈ Scanned.tags items, ∃ pair sigil body pair',
      Denotes pair sigil (trim body) tag.token pair' := by
  induction h with
  | done => simp
  | trailing => simp
  | tag _ hread _ ih =>
    rw [Scanned.tags_some]
    exact List.forall_mem_cons.2 ⟨⟨_, _, _, _, readTag_eq_ok_iff.1 hread⟩, ih⟩
  | malformed => simp
  | unclosed => simp

/-- A scan of the source that is begun under the standard delimiters gives the token as a tag. -/
def Token.IsIn (source : List Char) (token : Token) : Prop :=
  ∃ tag ∈ Scanned.tags (Scanner.ofUsable source standard).items.1, tag.token = token

instance (source : List Char) (token : Token) : Decidable (token.IsIn source) :=
  inferInstanceAs (Decidable (∃ tag ∈ _, _))

/-- A tag of any source, under whichever pair it is written there, is given back by its printed form
just if it is legible. -/
theorem Token.scansBack_iff (source : List Char) (token : Token) (h : token.IsIn source) :
    token.ScansBack ↔ token.Legible := by
  obtain ⟨tag, htag, rfl⟩ := h
  have hscans : Scans [] standard source (Scanner.ofUsable source standard).items.1
    (Scanner.ofUsable source standard).items.2 := items_eq_iff.1 rfl
  obtain ⟨_, _, _, _, hdenotes⟩ := hscans.denotes tag htag
  exact hdenotes.scansBack_iff_legible

/-- A name in braces, under other delimiters, that begins with a sigil and holds braces of both
kinds. -/
theorem Token.scansBack_iff_braced :
    let source := "\x7b\x7b=<% %>=\x7d\x7dx<%\x7b #a\x7d\x7b\x7db \x7d%>".toList
    let token := Token.interpolation "#a\x7d\x7b\x7db" false
    token.IsIn source ∧ token.Legible ∧ token.ScansBack := by
  intro source token
  have hin : token.IsIn source := by decide +kernel
  have hlegible : token.Legible := by decide
  exact ⟨hin, hlegible, (scansBack_iff source token hin).2 hlegible⟩

/-- Tags that are not given back: names with blanks around them, of which one begins with a sigil
and one ends in a brace, and a name in braces that holds two. -/
theorem Token.not_scansBack :
    let sigil := Token.interpolation "#a" true
    let brace := Token.sectionOpen "a\x7d"
    let braces := Token.interpolation "a\x7d\x7db" false
    (sigil.IsIn "\x7b\x7b #a\x7d\x7d".toList ∧ ¬ sigil.ScansBack) ∧
    (brace.IsIn "\x7b\x7b#a\x7d \x7d\x7d".toList ∧ ¬ brace.ScansBack) ∧
    (braces.IsIn "\x7b\x7b\x7ba\x7d\x7db\x7d\x7d\x7d".toList ∧ ¬ braces.ScansBack) := by
  intro sigil brace braces
  have hsigil : Denotes standard .plain (trim " #a".toList) sigil standard :=
    readTag_eq_ok_iff.1 (by decide)
  have hbrace : Denotes standard .hash (trim "a\x7d ".toList) brace standard :=
    readTag_eq_ok_iff.1 (by decide)
  have hbraces : Denotes standard .brace (trim "a\x7d\x7db".toList) braces standard :=
    readTag_eq_ok_iff.1 (by decide)
  exact ⟨⟨by decide +kernel, mt hsigil.scansBack_iff_legible.1 (by decide)⟩,
    ⟨by decide +kernel, mt hbrace.scansBack_iff_legible.1 (by decide)⟩,
    ⟨by decide +kernel, mt hbraces.scansBack_iff_legible.1 (by decide)⟩⟩

end Mustache
