import Mathlib.Data.List.Basic
import Mustache.Text.Indentation

/-!
# Mustache.Proofs.Text.Lines

The lines of a text, and what indenting does to them.

A line has the line feed that ends it; only the last one may go without. Indenting writes the
indentation before each line (`indentLines_eq_flatMap`), and one without line feeds adds no lines
(`lines_indentLines`). All laws of indentation are laws of `map` on lines: indenting twice is
indenting once with both (`indentLines_indentLines`), and can be undone
(`outdentLines?_indentLines`).
-/

namespace Mustache.Text

variable {s t indent : List Char}

/-- The lines of a text with their line feeds. Behind the last line feed nothing begins. -/
def lines : List Char → List (List Char)
  | [] => []
  | c :: cs =>
    if c = '\n' then [c] :: lines cs
    else
      match lines cs with
      | [] => [[c]]
      | line :: rest => (c :: line) :: rest

theorem flatten_lines (text : List Char) : (lines text).flatten = text := by
  fun_induction lines text with
  | case1 => rfl
  | case2 cs ih => rw [List.flatten_cons, ih, List.singleton_append]
  | case3 c cs _ hlines ih =>
    rw [hlines] at ih
    rw [← ih]
    rfl
  | case4 c cs _ line rest hlines ih =>
    rw [hlines] at ih
    rw [← ih]
    rfl

theorem lines_append_feed (h : '\n' ∉ s) (text : List Char) :
    lines (s ++ '\n' :: text) = (s ++ ['\n']) :: lines text := by
  induction s with
  | nil => rw [List.nil_append, lines, if_pos rfl, List.nil_append]
  | cons c s ih =>
    rw [List.mem_cons, not_or] at h
    rw [List.cons_append, lines, if_neg fun hc => h.1 hc.symm, ih h.2]
    rfl

theorem lines_of_not_mem (h : '\n' ∉ s) (hne : s ≠ []) : lines s = [s] := by
  induction s with
  | nil => exact absurd rfl hne
  | cons c s ih =>
    rw [List.mem_cons, not_or] at h
    rw [lines, if_neg fun hc => h.1 hc.symm]
    cases s with
    | nil => rfl
    | cons d s => rw [ih h.2 (List.cons_ne_nil d s)]

/-- Induction on the lines of a text. -/
@[elab_as_elim]
theorem linesInduction {P : List Char → Prop} (nil : P [])
    (last : ∀ s, '\n' ∉ s → s ≠ [] → P s)
    (line : ∀ s text, '\n' ∉ s → P text → P (s ++ '\n' :: text)) (text : List Char) : P text := by
  suffices h : P text ∧ ∀ s, '\n' ∉ s → P (s ++ text) from h.1
  induction text with
  | nil =>
    refine ⟨nil, fun s hs => ?_⟩
    rw [List.append_nil]
    by_cases hne : s = []
    · exact hne ▸ nil
    · exact last s hs hne
  | cons c text ih =>
    have hfront : ∀ s, '\n' ∉ s → P (s ++ c :: text) := by
      intro s hs
      by_cases hc : c = '\n'
      · exact hc ▸ line s text hs ih.1
      · rw [List.append_cons]
        exact ih.2 (s ++ [c]) (by simp [hs, Ne.symm hc])
    exact ⟨hfront [] List.not_mem_nil, hfront⟩

/-- Behind a line feed a text can be cut. -/
theorem lines_append (s text : List Char) :
    lines (s ++ '\n' :: text) = lines (s ++ ['\n']) ++ lines text := by
  induction s using linesInduction with
  | nil => rw [List.nil_append, lines, if_pos rfl]; rfl
  | last s hs _ => rw [lines_append_feed hs, lines_append_feed hs]; rfl
  | line s more hs ih =>
    rw [List.append_assoc, List.cons_append, lines_append_feed hs, ih, List.append_assoc,
      List.cons_append, lines_append_feed hs, List.cons_append]

/-! ## Indenting -/

theorem indentFrom_append (h : '\n' ∉ s) (text : List Char) :
    indentFrom indent false (s ++ text) = s ++ indentFrom indent false text := by
  induction s with
  | nil => rfl
  | cons c s ih =>
    rw [List.mem_cons, not_or] at h
    have hc : (c == '\n') = false := beq_false_of_ne fun hc => h.1 hc.symm
    rw [List.cons_append, indentFrom, hc, ih h.2]
    rfl

theorem indentLines_append_feed (h : '\n' ∉ s) (text : List Char) :
    indentLines indent (s ++ '\n' :: text) =
      indent ++ (s ++ '\n' :: indentLines indent text) := by
  cases s with
  | nil => rfl
  | cons c s =>
    rw [List.mem_cons, not_or] at h
    have hc : (c == '\n') = false := beq_false_of_ne fun hc => h.1 hc.symm
    rw [indentLines, List.cons_append, indentFrom, hc, indentFrom_append h.2]
    rfl

theorem indentLines_of_not_mem (h : '\n' ∉ s) (hne : s ≠ []) :
    indentLines indent s = indent ++ s := by
  cases s with
  | nil => exact absurd rfl hne
  | cons c s =>
    rw [List.mem_cons, not_or] at h
    have hc : (c == '\n') = false := beq_false_of_ne fun hc => h.1 hc.symm
    have hrest : indentFrom indent false (s ++ []) = s ++ [] := indentFrom_append h.2 []
    rw [List.append_nil] at hrest
    rw [indentLines, indentFrom, hc, hrest]
    rfl

theorem exists_indentFrom_concat (fresh : Bool) (text : List Char) (c : Char) :
    ∃ written, indentFrom indent fresh (text ++ [c]) = written ++ [c] := by
  induction text generalizing fresh with
  | nil => exact ⟨if fresh then indent else [], rfl⟩
  | cons d text ih =>
    obtain ⟨written, hwritten⟩ := ih (d == '\n')
    refine ⟨(if fresh then indent else []) ++ d :: written, ?_⟩
    rw [List.cons_append, indentFrom, hwritten, List.append_assoc, List.cons_append]

theorem indentLines_eq_flatMap (indent text : List Char) :
    indentLines indent text = (lines text).flatMap (indent ++ ·) := by
  induction text using linesInduction with
  | nil => rfl
  | last s hs hne => rw [indentLines_of_not_mem hs hne, lines_of_not_mem hs hne]; simp
  | line s text hs ih => rw [indentLines_append_feed hs, lines_append_feed hs, ih]; simp

theorem lines_indentLines (h : '\n' ∉ indent) (text : List Char) :
    lines (indentLines indent text) = (lines text).map (indent ++ ·) := by
  induction text using linesInduction with
  | nil => rfl
  | last s hs hne =>
    rw [indentLines_of_not_mem hs hne, lines_of_not_mem hs hne,
      lines_of_not_mem (by simp [h, hs]) (by simp [hne])]
    rfl
  | line s text hs ih =>
    rw [indentLines_append_feed hs, lines_append_feed hs, ← List.append_assoc,
      lines_append_feed (by simp [h, hs]), ih, List.map_cons, List.append_assoc]

theorem indentLines_indentLines {inner : List Char} (h : '\n' ∉ inner) (text : List Char) :
    indentLines indent (indentLines inner text) = indentLines (indent ++ inner) text := by
  rw [indentLines_eq_flatMap, lines_indentLines h, indentLines_eq_flatMap, List.flatMap_map]
  simp only [List.append_assoc]

theorem length_lines_indentLines (h : '\n' ∉ indent) (text : List Char) :
    (lines (indentLines indent text)).length = (lines text).length := by
  rw [lines_indentLines h, List.length_map]

theorem indentLines_eq_nil_iff {text : List Char} : indentLines indent text = [] ↔ text = [] := by
  cases text with
  | nil => simp [indentLines, indentFrom]
  | cons c text => simp [indentLines, indentFrom]

/-- The text without the indentation of its lines, if each of them has it. -/
def outdentLines? (indent text : List Char) : Option (List Char) :=
  Option.map List.flatten ((lines text).mapM fun line => line.dropPrefix? indent)

theorem outdentLines?_indentLines (h : '\n' ∉ indent) (text : List Char) :
    outdentLines? indent (indentLines indent text) = some text := by
  have hdrop : ∀ parts : List (List Char),
      (parts.map (indent ++ ·)).mapM (fun line => line.dropPrefix? indent) = some parts := by
    intro parts
    induction parts with
    | nil => rfl
    | cons part parts ih =>
      rw [List.map_cons, List.mapM_cons, ih, List.dropPrefix?_append_of_beq part BEq.rfl]
      rfl
  rw [outdentLines?, lines_indentLines h, hdrop, Option.map_some, flatten_lines]

end Mustache.Text
