import Mathlib.Logic.Basic
import Mustache.Json.Reader

/-!
# Mustache.Proofs.Json.RoundTrip

What is printed is read back as it was.

Printing a value, on one line or on many, and cutting the text gives the lexemes of the value
(`lexemes_compact`, `lexemes_pretty`), and nesting those gives the value (`run_lexemesOf`). What is
then read is the value as far as there is room for it (`skim_of_lexemes`). So `read_compact` and
`read_pretty` say what is read of a text that was printed. All of this is about values whose numbers
are words (`Json.isWordy`), as are those that the cache writes.
-/

namespace Mustache.Json

/-! ## Digits -/

theorem head_toDigits_ne_zero : ∀ {n : Nat}, 0 < n → (Nat.toDigits 10 n).head? ≠ some '0' := by
  intro n
  induction n using Nat.strongRecOn with
  | ind n ih =>
    intro hn
    by_cases h : n < 10
    · rw [Nat.toDigits_of_lt_base h]
      have : ∀ d, d < 10 → 0 < d → Nat.digitChar d ≠ '0' := by decide
      simpa using this n h hn
    · rw [Nat.toDigits_of_base_le (by decide) (by omega)]
      obtain ⟨c, cs, hcs⟩ :=
        List.exists_cons_of_ne_nil (Nat.toDigits_ne_nil (n := n / 10) (b := 10))
      have := ih (n / 10) (by omega) (by omega)
      rw [hcs] at this ⊢
      exact this

theorem not_leading_zero {n : Nat} {c : Char} {cs : List Char} :
    Nat.toDigits 10 n ≠ '0' :: c :: cs := by
  intro h
  by_cases hn : 0 < n
  · exact head_toDigits_ne_zero hn (by rw [h]; rfl)
  · obtain rfl : n = 0 := by omega
    rw [Nat.toDigits_zero] at h
    cases h

theorem le_ofDigitChars (digits : List Char) : ∀ m, m ≤ Nat.ofDigitChars 10 digits m := by
  induction digits with
  | nil => exact fun m => Nat.le_of_eq Nat.ofDigitChars_nil.symm
  | cons c cs ih =>
    intro m
    rw [Nat.ofDigitChars_cons]
    have := ih (10 * m + (c.toNat - '0'.toNat))
    omega

theorem appendDigits_eq (digits : List Char) : ∀ m, Nat.ofDigitChars 10 digits m < UInt64.size →
    appendDigits m digits = (Nat.ofDigitChars 10 digits m, []) := by
  induction digits with
  | nil => exact fun m _ => by rw [Nat.ofDigitChars_nil, appendDigits]
  | cons c cs ih =>
    intro m h
    have hstep : m * 10 + digitValue c = 10 * m + (c.toNat - '0'.toNat) := by
      rw [digitValue, Nat.mul_comm]
    rw [Nat.ofDigitChars_cons] at h ⊢
    have hle := le_ofDigitChars cs (10 * m + (c.toNat - '0'.toNat))
    simp only [appendDigits, hstep]
    rw [if_pos (by omega)]
    exact ih _ h

/-! ## What may stand behind a number -/

/-- The text is at its end, or goes on with a character that ends a number. -/
def Ends : List Char → Prop
  | [] => True
  | c :: _ => c = ',' ∨ c = ']' ∨ c = '\x7d' ∨ c = '\n'

theorem digitsOf_append {digits rest : List Char} (hd : ∀ c ∈ digits, c.isDigit = true)
    (hrest : Ends rest) : digitsOf (digits ++ rest) = (digits, rest) := by
  have hstop : rest.takeWhile Char.isDigit = [] ∧ rest.dropWhile Char.isDigit = rest := by
    cases rest with
    | nil => exact ⟨rfl, rfl⟩
    | cons c cs =>
      have hc : c.isDigit = false := by
        rcases hrest with rfl | rfl | rfl | rfl <;> decide
      exact ⟨List.takeWhile_cons_of_neg (by simp [hc]), List.dropWhile_cons_of_neg (by simp [hc])⟩
  rw [digitsOf, List.takeWhile_append_of_pos hd, List.dropWhile_append_of_pos hd, hstop.1, hstop.2,
    List.append_nil]

theorem readPlaces_ends {rest : List Char} (h : Ends rest) :
    readPlaces rest = some (none, rest) := by
  cases rest with
  | nil => rfl
  | cons c cs => rcases h with rfl | rfl | rfl | rfl <;> rfl

theorem readExponent_ends {rest : List Char} (h : Ends rest) :
    readExponent rest = some (none, rest) := by
  cases rest with
  | nil => rfl
  | cons c cs => rcases h with rfl | rfl | rfl | rfl <;> rfl

theorem readUnsigned_toDigits (n : Nat) {rest : List Char} (h : Ends rest) :
    readUnsigned false (Nat.toDigits 10 n ++ rest)
      = some (⟨false, Nat.toDigits 10 n, none, none⟩, rest) := by
  have hdigits : digitsOf (Nat.toDigits 10 n ++ rest) = (Nat.toDigits 10 n, rest) :=
    digitsOf_append (fun c hc => Nat.isDigit_of_mem_toDigits (by decide) (by decide) hc) h
  simp only [readUnsigned, hdigits]
  split
  · rename_i hnil
    exact absurd hnil Nat.toDigits_ne_nil
  · rename_i hzero
    exact absurd hzero not_leading_zero
  · simp only [readPlaces_ends h, readExponent_ends h]

theorem readNumber_toDigits {n : Nat} (hn : n < UInt64.size) {rest : List Char} (h : Ends rest) :
    readNumber (Nat.toDigits 10 n ++ rest) = some (.integer n, rest) := by
  have hsign : ∀ cs, Nat.toDigits 10 n ++ rest ≠ '-' :: cs := by
    intro cs hcs
    cases hdigits : Nat.toDigits 10 n with
    | nil => exact Nat.toDigits_ne_nil hdigits
    | cons c ds =>
      rw [hdigits, List.cons_append] at hcs
      injection hcs with hc
      have : c.isDigit = true := Nat.isDigit_of_mem_toDigits (by decide) (by decide)
        (by rw [hdigits]; exact List.mem_cons_self) (b := 10) (n := n)
      rw [hc] at this
      exact absurd this (by decide)
  have hliteral : readLiteral (Nat.toDigits 10 n ++ rest) =
      some (⟨false, Nat.toDigits 10 n, none, none⟩, rest) := by
    rw [readLiteral]
    · exact readUnsigned_toDigits n h
    · exact hsign
  have hvalue : appendDigits 0 (Nat.toDigits 10 n) = (n, []) := by
    rw [appendDigits_eq _ _ (by rw [Nat.ofDigitChars_ten_toDigits]; exact hn),
      Nat.ofDigitChars_ten_toDigits]
  simp only [readNumber, hliteral, Literal.toJson, hvalue]
  rfl

/-! ## Strings -/

theorem readString_control : ∀ n, n < 0x20 →
    hex4 '0' '0' (hexDigit (n / 16)) (hexDigit n) = some n := by decide

theorem readString_escaped (c : Char) (more : List Char) :
    readString (escaped c ++ more) =
      (readString more).map fun (s, rest) => (.char c :: s, rest) := by
  unfold escaped
  split
  case h_8 h₁ h₂ h₃ h₄ h₅ h₆ h₇ =>
    split
    · rename_i hc
      simp only [List.cons_append, List.nil_append]
      rw [readString]
      simp only [readString_control c.toNat hc]
      rw [Part.ofCode, if_neg (by omega), Char.ofNat_toNat]
    · rename_i hc
      rw [List.singleton_append, readString]
      · rw [if_neg (by simpa [hc] using h₂)]
      · exact fun h => h₁ h
      · exact fun _ _ _ _ _ h => absurd h h₂
      · exact fun _ _ h => absurd h h₂
  all_goals rfl

theorem readString_flatMap (cs rest : List Char) :
    readString (cs.flatMap escaped ++ '"' :: rest) = some (cs.map .char, rest) := by
  induction cs with
  | nil => rfl
  | cons c cs ih =>
    rw [List.flatMap_cons, List.append_assoc, readString_escaped, ih]
    rfl

theorem joinParts_map (cs : List Char) : joinParts (cs.map .char) = some cs := by
  induction cs with
  | nil => rfl
  | cons c cs ih => rw [List.map_cons, joinParts, ih, Option.map_some]

theorem readLexeme_printString (s : String) (rest : List Char) :
    readLexeme (printString s ++ rest) = some (.text (some s), rest) := by
  rw [printString, List.cons_append, List.cons_append, List.append_assoc, readLexeme]
  rw [show ['"'] ++ rest = '"' :: rest from rfl, readString_flatMap]
  simp [joinParts_map]

/-! ## Lexemes -/

mutual

/-- The numbers in the value are words. -/
def isWordy : Json → Bool
  | .integer n => decide (0 ≤ n ∧ n < UInt64.size)
  | .number _ => false
  | .array items => isWordyItems items
  | .object members => isWordyMembers members
  | _ => true

def isWordyItems : List Json → Bool
  | [] => true
  | item :: items => isWordy item && isWordyItems items

def isWordyMembers : List (String × Json) → Bool
  | [] => true
  | (_, value) :: members => isWordy value && isWordyMembers members

end

mutual

def lexemesOf : Json → List Lexeme
  | .array [] => [.openArray, .closeArray]
  | .array (item :: items) => .openArray :: lexemesOf item ++ lexemesOfItems items
  | .object [] => [.openObject, .closeObject]
  | .object ((name, value) :: members) =>
    .openObject :: .text (some name) :: .colon :: lexemesOf value ++ lexemesOfMembers members
  | .null => [.value .null]
  | .bool b => [.value (.bool b)]
  | .integer n => [.value (.integer n)]
  | .number x => [.value (.number x)]
  | .string s => [.text (some s)]

def lexemesOfItems : List Json → List Lexeme
  | [] => [.closeArray]
  | item :: items => .comma :: lexemesOf item ++ lexemesOfItems items

def lexemesOfMembers : List (String × Json) → List Lexeme
  | [] => [.closeObject]
  | (name, value) :: members =>
    .comma :: .text (some name) :: .colon :: lexemesOf value ++ lexemesOfMembers members

end

/-- Cutting a text that begins with the lexemes `first`, before `rest`. -/
def Cuts (text : List Char) (first : List Lexeme) (rest : List Char) : Prop :=
  lexemes text = (lexemes rest).map (first ++ ·)

theorem Cuts.nil (rest : List Char) : Cuts rest [] rest := by
  rw [Cuts]
  exact (Option.map_id' ..).symm

theorem Cuts.trans {text middle rest : List Char} {first second : List Lexeme}
    (h : Cuts text first middle) (h' : Cuts middle second rest) :
    Cuts text (first ++ second) rest := by
  rw [Cuts] at *
  rw [h, h', Option.map_map]
  congr 1
  funext ls
  simp

theorem Cuts.of_readLexeme {text rest : List Char} {lexeme : Lexeme}
    (h : readLexeme text = some (lexeme, rest)) (hblank : ∀ c ∈ text.head?, isBlank c = false) :
    Cuts text [lexeme] rest := by
  rw [Cuts]
  cases text with
  | nil => cases h
  | cons c cs =>
    rw [lexemes, hblank c rfl]
    simp only [Bool.false_eq_true, if_false]
    split
    · rename_i hnone
      rw [h] at hnone
      cases hnone
    · rename_i hsome
      rw [h] at hsome
      cases hsome
      rfl

theorem cuts_printString (s : String) (rest : List Char) :
    Cuts (printString s ++ rest) [.text (some s)] rest :=
  .of_readLexeme (readLexeme_printString s rest) (by rintro c ⟨⟩; rfl)

theorem cuts_toDigits {n : Nat} (hn : n < UInt64.size) {rest : List Char} (h : Ends rest) :
    Cuts (Nat.toDigits 10 n ++ rest) [.value (.integer n)] rest := by
  have hread := readNumber_toDigits hn h
  have hdigit : ∀ c ∈ Nat.toDigits 10 n, c.isDigit = true :=
    fun c hc => Nat.isDigit_of_mem_toDigits (by decide) (by decide) hc
  cases hdigits : Nat.toDigits 10 n with
  | nil => exact absurd hdigits Nat.toDigits_ne_nil
  | cons c cs =>
    rw [hdigits] at hread hdigit
    have hc := hdigit c List.mem_cons_self
    rw [List.cons_append] at hread ⊢
    refine .of_readLexeme ?_ ?_
    · -- A digit begins none of the other lexemes.
      unfold readLexeme
      split
      case h_11 => rw [hread]; rfl
      all_goals
        rename_i heq
        injection heq with hhead
        rw [hhead] at hc
        exact absurd hc (by decide)
    · rintro _ ⟨⟩
      have hne : ∀ d, d.isDigit = false → c ≠ d := by
        rintro d hd rfl
        rw [hc] at hd
        cases hd
      simp [isBlank, hne ' ' rfl, hne '\n' rfl, hne '\t' rfl, hne '\r' rfl]

theorem cuts_mark {c : Char} {lexeme : Lexeme} {rest : List Char}
    (h : readLexeme (c :: rest) = some (lexeme, rest)) (hblank : isBlank c = false) :
    Cuts (c :: rest) [lexeme] rest :=
  .of_readLexeme h (by rintro _ ⟨⟩; exact hblank)

theorem ends_compactItems (items : List Json) (rest : List Char) :
    Ends (compactItems items ++ rest) := by
  cases items <;> simp [compactItems, Ends]

theorem ends_compactMembers (members : List (String × Json)) (rest : List Char) :
    Ends (compactMembers members ++ rest) := by
  cases members <;> simp [compactMembers, Ends]

mutual

/-- What is printed is cut into the lexemes of the value. -/
theorem cuts_compact : ∀ (j : Json), j.isWordy = true → ∀ rest, Ends rest →
    Cuts (compact j ++ rest) (lexemesOf j) rest
  | .null, _, rest, _ => .of_readLexeme rfl (by rintro _ ⟨⟩; rfl)
  | .bool true, _, rest, _ => .of_readLexeme rfl (by rintro _ ⟨⟩; rfl)
  | .bool false, _, rest, _ => .of_readLexeme rfl (by rintro _ ⟨⟩; rfl)
  | .integer n, h, rest, hrest => by
    obtain ⟨h₀, h₁⟩ : 0 ≤ n ∧ n < UInt64.size := by simpa [isWordy] using h
    obtain ⟨n, rfl⟩ := Int.eq_ofNat_of_zero_le h₀
    have hprint : compact (.integer n) = Nat.toDigits 10 n := by
      rw [compact]
      exact Nat.toList_repr
    rw [hprint, lexemesOf]
    exact cuts_toDigits (by omega) hrest
  | .number _, h, _, _ => by cases h
  | .string s, _, rest, _ => by
    rw [compact, lexemesOf]
    exact cuts_printString s rest
  | .array [], _, rest, _ => by
    rw [compact, lexemesOf]
    exact (cuts_mark rfl rfl).trans (cuts_mark rfl rfl)
  | .array (item :: items), h, rest, _ => by
    rw [isWordy, isWordyItems, Bool.and_eq_true] at h
    rw [compact, lexemesOf, List.cons_append, List.cons_append, List.append_assoc]
    exact (cuts_mark rfl rfl).trans ((cuts_compact item h.1 _ (ends_compactItems ..)).trans
      (cuts_compactItems items h.2 rest))
  | .object [], _, rest, _ => by
    rw [compact, lexemesOf]
    exact (cuts_mark rfl rfl).trans (cuts_mark rfl rfl)
  | .object ((name, value) :: members), h, rest, _ => by
    rw [isWordy, isWordyMembers, Bool.and_eq_true] at h
    rw [compact, lexemesOf]
    simp only [List.cons_append, List.append_assoc]
    exact (cuts_mark rfl rfl).trans ((cuts_printString name _).trans ((cuts_mark rfl rfl).trans
      ((cuts_compact value h.1 _ (ends_compactMembers ..)).trans
        (cuts_compactMembers members h.2 rest))))

theorem cuts_compactItems : ∀ (items : List Json), isWordyItems items = true → ∀ rest,
    Cuts (compactItems items ++ rest) (lexemesOfItems items) rest
  | [], _, rest => by
    rw [compactItems, lexemesOfItems]
    exact cuts_mark rfl rfl
  | item :: items, h, rest => by
    rw [isWordyItems, Bool.and_eq_true] at h
    rw [compactItems, lexemesOfItems]
    simp only [List.cons_append, List.append_assoc]
    exact (cuts_mark rfl rfl).trans ((cuts_compact item h.1 _ (ends_compactItems ..)).trans
      (cuts_compactItems items h.2 rest))

theorem cuts_compactMembers : ∀ (members : List (String × Json)),
    isWordyMembers members = true → ∀ rest,
      Cuts (compactMembers members ++ rest) (lexemesOfMembers members) rest
  | [], _, rest => by
    rw [compactMembers, lexemesOfMembers]
    exact cuts_mark rfl rfl
  | (name, value) :: members, h, rest => by
    rw [isWordyMembers, Bool.and_eq_true] at h
    rw [compactMembers, lexemesOfMembers]
    simp only [List.cons_append, List.append_assoc]
    exact (cuts_mark rfl rfl).trans ((cuts_printString name _).trans ((cuts_mark rfl rfl).trans
      ((cuts_compact value h.1 _ (ends_compactMembers ..)).trans
        (cuts_compactMembers members h.2 rest))))

end

theorem lexemes_of_cuts {text : List Char} {first : List Lexeme} (h : Cuts text first []) :
    lexemes text = some first := by
  rw [Cuts, lexemes] at h
  simpa using h

theorem lexemes_compact {j : Json} (h : j.isWordy = true) :
    lexemes j.compact = some (lexemesOf j) := by
  have := cuts_compact j h [] trivial
  rw [List.append_nil] at this
  exact lexemes_of_cuts this

/-! ### On many lines -/

theorem Cuts.blank {c : Char} {text rest : List Char} {first : List Lexeme} (hc : isBlank c = true)
    (h : Cuts text first rest) : Cuts (c :: text) first rest := by
  rw [Cuts, lexemes, if_pos hc]
  exact h

theorem Cuts.blanks {blanks text rest : List Char} {first : List Lexeme}
    (hblanks : ∀ c ∈ blanks, isBlank c = true) (h : Cuts text first rest) :
    Cuts (blanks ++ text) first rest := by
  induction blanks with
  | nil => exact h
  | cons c blanks ih =>
    obtain ⟨hc, hblanks⟩ := List.forall_mem_cons.1 hblanks
    exact .blank hc (ih hblanks)

theorem Cuts.newline {text rest : List Char} {first : List Lexeme} (level : Nat)
    (h : Cuts text first rest) : Cuts (newline level ++ text) first rest := by
  refine .blanks ?_ h
  intro c hc
  rcases List.mem_cons.1 hc with rfl | hc
  · rfl
  · rw [List.eq_of_mem_replicate hc]
    rfl

theorem ends_prettyItems (level : Nat) (items : List Json) (rest : List Char) :
    Ends (prettyItems level items ++ rest) := by
  cases items <;> simp [prettyItems, newline, Ends]

theorem ends_prettyMembers (level : Nat) (members : List (String × Json)) (rest : List Char) :
    Ends (prettyMembers level members ++ rest) := by
  cases members <;> simp [prettyMembers, newline, Ends]

mutual

theorem cuts_pretty : ∀ (level : Nat) (j : Json), j.isWordy = true → ∀ rest, Ends rest →
    Cuts (pretty level j ++ rest) (lexemesOf j) rest
  | _, .null, h, rest, hrest => cuts_compact .null h rest hrest
  | _, .bool b, h, rest, hrest => cuts_compact (.bool b) h rest hrest
  | _, .integer n, h, rest, hrest => cuts_compact (.integer n) h rest hrest
  | _, .number _, h, _, _ => by cases h
  | _, .string s, h, rest, hrest => cuts_compact (.string s) h rest hrest
  | _, .array [], h, rest, hrest => cuts_compact (.array []) h rest hrest
  | level, .array (item :: items), h, rest, _ => by
    rw [isWordy, isWordyItems, Bool.and_eq_true] at h
    rw [pretty, lexemesOf]
    simp only [List.cons_append, List.append_assoc]
    exact (cuts_mark rfl rfl).trans (.newline _
      ((cuts_pretty (level + 1) item h.1 _ (ends_prettyItems ..)).trans
        (cuts_prettyItems level items h.2 rest)))
  | _, .object [], h, rest, hrest => cuts_compact (.object []) h rest hrest
  | level, .object ((name, value) :: members), h, rest, _ => by
    rw [isWordy, isWordyMembers, Bool.and_eq_true] at h
    rw [pretty, lexemesOf]
    simp only [List.cons_append, List.append_assoc]
    exact (cuts_mark rfl rfl).trans (.newline _ ((cuts_printString name _).trans
      ((cuts_mark rfl rfl).trans (.blank rfl
        ((cuts_pretty (level + 1) value h.1 _ (ends_prettyMembers ..)).trans
          (cuts_prettyMembers level members h.2 rest))))))

theorem cuts_prettyItems : ∀ (level : Nat) (items : List Json), isWordyItems items = true →
    ∀ rest, Cuts (prettyItems level items ++ rest) (lexemesOfItems items) rest
  | level, [], _, rest => by
    rw [prettyItems, lexemesOfItems, List.append_assoc]
    exact .newline level (cuts_mark rfl rfl)
  | level, item :: items, h, rest => by
    rw [isWordyItems, Bool.and_eq_true] at h
    rw [prettyItems, lexemesOfItems]
    simp only [List.cons_append, List.append_assoc]
    exact (cuts_mark rfl rfl).trans (.newline _
      ((cuts_pretty (level + 1) item h.1 _ (ends_prettyItems ..)).trans
        (cuts_prettyItems level items h.2 rest)))

theorem cuts_prettyMembers : ∀ (level : Nat) (members : List (String × Json)),
    isWordyMembers members = true → ∀ rest,
      Cuts (prettyMembers level members ++ rest) (lexemesOfMembers members) rest
  | level, [], _, rest => by
    rw [prettyMembers, lexemesOfMembers, List.append_assoc]
    exact .newline level (cuts_mark rfl rfl)
  | level, (name, value) :: members, h, rest => by
    rw [isWordyMembers, Bool.and_eq_true] at h
    rw [prettyMembers, lexemesOfMembers]
    simp only [List.cons_append, List.append_assoc]
    exact (cuts_mark rfl rfl).trans (.newline _ ((cuts_printString name _).trans
      ((cuts_mark rfl rfl).trans (.blank rfl
        ((cuts_pretty (level + 1) value h.1 _ (ends_prettyMembers ..)).trans
          (cuts_prettyMembers level members h.2 rest))))))

end

theorem lexemes_pretty {j : Json} (h : j.isWordy = true) (level : Nat) :
    lexemes (j.pretty level) = some (lexemesOf j) := by
  have := cuts_pretty level j h [] trivial
  rw [List.append_nil] at this
  exact lexemes_of_cuts this

/-! ## Nesting -/

def Opens (stage : Stage) : Prop :=
  ∀ stack lexeme, lexeme ≠ .closeArray → step stage stack lexeme = begin stack lexeme

theorem opens_value : Opens .value := fun _ _ _ => rfl

theorem opens_valueOrClose : Opens .valueOrClose := by
  intro stack lexeme h
  cases stack with
  | nil => rfl
  | cons frame stack =>
    cases lexeme with
    | closeArray => exact absurd rfl h
    | _ => cases frame <;> rfl

theorem run_begin {stage next : Stage} {stack opened : List Frame} {lexeme : Lexeme}
    {more : List Lexeme} (hstage : Opens stage) (hlexeme : lexeme ≠ .closeArray)
    (hbegin : begin stack lexeme = some (next, opened)) :
    run stage stack (lexeme :: more) = run next opened more := by
  rw [run, hstage _ _ hlexeme, hbegin]

mutual

/-- Behind the lexemes of a value, the value has been read. -/
theorem run_lexemesOf : ∀ (j : Json) {stage : Stage} {stack : List Frame} {more : List Lexeme},
    Opens stage → run stage stack (lexemesOf j ++ more) = run (.complete j) stack more
  | .null, _, _, _, hstage => run_begin hstage nofun rfl
  | .bool _, _, _, _, hstage => run_begin hstage nofun rfl
  | .integer _, _, _, _, hstage => run_begin hstage nofun rfl
  | .number _, _, _, _, hstage => run_begin hstage nofun rfl
  | .string _, _, _, _, hstage => run_begin hstage nofun rfl
  | .array [], _, _, _, hstage => by
    rw [lexemesOf, List.cons_append, run_begin hstage (by simp) rfl]
    rfl
  | .array (item :: items), _, _, _, hstage => by
    rw [lexemesOf, List.cons_append, List.cons_append, List.append_assoc,
      run_begin hstage (by simp) rfl, run_lexemesOf item opens_valueOrClose,
      run_lexemesOfItems items item []]
    rfl
  | .object [], _, _, _, hstage => by
    rw [lexemesOf, List.cons_append, run_begin hstage (by simp) rfl]
    rfl
  | .object ((name, value) :: members), _, stack, more, hstage => by
    have hname : run .nameOrClose (.object (some []) :: stack) (.text (some name) :: .colon ::
        (lexemesOf value ++ (lexemesOfMembers members ++ more))) =
          run .value (.member (some []) (some name) :: stack)
            (lexemesOf value ++ (lexemesOfMembers members ++ more)) := rfl
    simp only [lexemesOf, List.cons_append, List.append_assoc]
    rw [run_begin hstage (by simp) rfl, hname, run_lexemesOf value opens_value,
      run_lexemesOfMembers members name value []]
    rfl

theorem run_lexemesOfItems : ∀ (items : List Json) (item : Json) (done : List Json)
    {stack : List Frame} {more : List Lexeme},
      run (.complete item) (.array done :: stack) (lexemesOfItems items ++ more) =
        run (.complete (.array (done.reverse ++ item :: items))) stack more
  | [], item, done, _, _ => by
    rw [← List.reverse_cons]
    rfl
  | next :: items, item, done, stack, more => by
    have hnext : run (.complete item) (.array done :: stack) (.comma ::
        (lexemesOf next ++ (lexemesOfItems items ++ more))) =
          run .value (.array (item :: done) :: stack)
            (lexemesOf next ++ (lexemesOfItems items ++ more)) := rfl
    rw [lexemesOfItems, List.cons_append, List.cons_append, List.append_assoc, hnext,
      run_lexemesOf next opens_value, run_lexemesOfItems items next (item :: done),
      List.reverse_cons, List.append_assoc]
    rfl

theorem run_lexemesOfMembers : ∀ (members : List (String × Json)) (name : String) (value : Json)
    (done : List (String × Json)) {stack : List Frame} {more : List Lexeme},
      run (.complete value) (.member (some done) (some name) :: stack)
          (lexemesOfMembers members ++ more) =
        run (.complete (.object (done.reverse ++ (name, value) :: members))) stack more
  | [], name, value, done, _, _ => by
    rw [← List.reverse_cons]
    rfl
  | (next, value') :: members, name, value, done, stack, more => by
    have hnext : run (.complete value) (.member (some done) (some name) :: stack) (.comma ::
        .text (some next) :: .colon :: (lexemesOf value' ++ (lexemesOfMembers members ++ more))) =
          run .value (.member (some ((name, value) :: done)) (some next) :: stack)
            (lexemesOf value' ++ (lexemesOfMembers members ++ more)) := rfl
    simp only [lexemesOfMembers, List.cons_append, List.append_assoc]
    rw [hnext, run_lexemesOf value' opens_value,
      run_lexemesOfMembers members next value' ((name, value) :: done), List.reverse_cons,
      List.append_assoc]
    rfl

end

/-! ## What cannot be read -/

mutual

theorem isReadable_of_isWordy : ∀ {j : Json}, j.isWordy = true → j.isReadable = true
  | .null, _ => rfl
  | .bool _, _ => rfl
  | .integer _, _ => rfl
  | .number _, h => by cases h
  | .string _, _ => rfl
  | .array items, h => by
    rw [isWordy] at h
    rw [isReadable, areReadable_of_isWordy h]
  | .object members, h => by
    rw [isWordy] at h
    rw [isReadable, membersReadable_of_isWordy h]

theorem areReadable_of_isWordy : ∀ {items : List Json}, isWordyItems items = true →
    areReadable items = true
  | [], _ => rfl
  | item :: items, h => by
    rw [isWordyItems, Bool.and_eq_true] at h
    rw [areReadable, isReadable_of_isWordy h.1, areReadable_of_isWordy h.2, Bool.and_self]

theorem membersReadable_of_isWordy : ∀ {members : List (String × Json)},
    isWordyMembers members = true → membersReadable members = true
  | [], _ => rfl
  | (_, value) :: members, h => by
    rw [isWordyMembers, Bool.and_eq_true] at h
    rw [membersReadable, isReadable_of_isWordy h.1, membersReadable_of_isWordy h.2, Bool.and_self]

end

mutual

theorem within_of_depth_le : ∀ {j : Json} {room : Nat}, j.depth ≤ room → j.within room = j
  | .null, _, _ => rfl
  | .bool _, _, _ => rfl
  | .integer _, _, _ => rfl
  | .number _, _, _ => rfl
  | .string _, _, _ => rfl
  | .array items, 0, h => by
    rw [depth] at h
    omega
  | .array items, room + 1, h => by
    rw [depth] at h
    rw [within, withinItems_of_depth_le (by omega)]
  | .object members, 0, h => by
    rw [depth] at h
    omega
  | .object members, room + 1, h => by
    rw [depth] at h
    rw [within, withinMembers_of_depth_le (by omega)]

theorem withinItems_of_depth_le : ∀ {items : List Json} {room : Nat}, depthItems items ≤ room →
    withinItems room items = items
  | [], _, _ => rfl
  | item :: items, room, h => by
    rw [depthItems] at h
    rw [withinItems, within_of_depth_le (by omega), withinItems_of_depth_le (by omega)]

theorem withinMembers_of_depth_le : ∀ {members : List (String × Json)} {room : Nat},
    depthMembers members ≤ room → withinMembers room members = members
  | [], _, _ => rfl
  | (_, value) :: members, room, h => by
    rw [depthMembers] at h
    rw [withinMembers, within_of_depth_le (by omega), withinMembers_of_depth_le (by omega)]

end

theorem not_isReadable_unreadable : unreadable.isReadable = false := by decide

mutual

/-- What nests too deeply is not readable where it is cut off. -/
theorem not_isReadable_within : ∀ {j : Json} {room : Nat}, room < j.depth →
    (j.within room).isReadable = false
  | .null, _, h | .bool _, _, h | .integer _, _, h | .number _, _, h | .string _, _, h =>
    absurd h (Nat.not_lt_zero _)
  | .array items, 0, _ => not_isReadable_unreadable
  | .array items, room + 1, h => by
    rw [depth] at h
    rw [within, isReadable, not_areReadable_within (by omega)]
  | .object members, 0, _ => not_isReadable_unreadable
  | .object members, room + 1, h => by
    rw [depth] at h
    rw [within, isReadable, not_membersReadable_within (by omega)]

theorem not_areReadable_within : ∀ {items : List Json} {room : Nat}, room < depthItems items →
    areReadable (withinItems room items) = false
  | [], _, h => by
    rw [depthItems] at h
    omega
  | item :: items, room, h => by
    rw [depthItems] at h
    rw [withinItems, areReadable, Bool.and_eq_false_iff]
    rcases Nat.lt_or_ge room item.depth with hitem | hitem
    · exact .inl (not_isReadable_within hitem)
    · exact .inr (not_areReadable_within (by omega))

theorem not_membersReadable_within : ∀ {members : List (String × Json)} {room : Nat},
    room < depthMembers members → membersReadable (withinMembers room members) = false
  | [], _, h => by
    rw [depthMembers] at h
    omega
  | (_, value) :: members, room, h => by
    rw [depthMembers] at h
    rw [withinMembers, membersReadable, Bool.and_eq_false_iff]
    rcases Nat.lt_or_ge room value.depth with hvalue | hvalue
    · exact .inl (not_isReadable_within hvalue)
    · exact .inr (not_membersReadable_within (by omega))

end

/-! ## Reading what is printed -/

/-- A text with the lexemes of a value is read as the value, as far as there is room for it. -/
theorem skim_of_lexemes {text : List Char} {j : Json} (h : lexemes text = some (lexemesOf j)) :
    skim text = some (j.within maxDepth) := by
  have hrun : run .value [] (lexemesOf j ++ []) = _ := run_lexemesOf j opens_value
  rw [List.append_nil] at hrun
  simp only [skim, h, hrun]
  rfl

/-- In full, it is read if it does not nest too deeply. -/
theorem read_of_lexemes {text : List Char} {j : Json} (h : lexemes text = some (lexemesOf j))
    (hreadable : j.isReadable = true) :
    read text = if j.depth ≤ maxDepth then some j else none := by
  rw [read, skim_of_lexemes h]
  by_cases hdepth : j.depth ≤ maxDepth
  · rw [within_of_depth_le hdepth, if_pos hdepth, Option.filter_some_pos hreadable]
  · rw [if_neg hdepth]
    exact Option.filter_some_neg (by simp [not_isReadable_within (Nat.lt_of_not_le hdepth)])

theorem read_compact {j : Json} (h : j.isWordy = true) :
    read j.compact = if j.depth ≤ maxDepth then some j else none :=
  read_of_lexemes (lexemes_compact h) (isReadable_of_isWordy h)

theorem read_pretty {j : Json} (h : j.isWordy = true) (level : Nat) :
    read (j.pretty level) = if j.depth ≤ maxDepth then some j else none :=
  read_of_lexemes (lexemes_pretty h level) (isReadable_of_isWordy h)

theorem read_pretty_line {j : Json} (h : j.isWordy = true) (level : Nat) :
    read (j.pretty level ++ ['\n']) = if j.depth ≤ maxDepth then some j else none := by
  have hline : Cuts ['\n'] [] [] := .blank rfl (.nil [])
  have htext : Cuts (j.pretty level ++ ['\n']) (lexemesOf j) ['\n'] :=
    cuts_pretty level j h ['\n'] (.inr (.inr (.inr rfl)))
  have hcuts := htext.trans hline
  rw [List.append_nil] at hcuts
  exact read_of_lexemes (lexemes_of_cuts hcuts) (isReadable_of_isWordy h)

end Mustache.Json
