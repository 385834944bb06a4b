import Mathlib.Data.List.Basic
import Mustache.Text.Blank

/-!
# Mustache.Proofs.Text.Words

What trimming and splitting into words give. A trimmed text neither begins nor ends with a blank
(`trim_ends`), and trimming takes blanks away only (`trim_padded`). `words` gives two words just
where a text is two words with blanks between them and around them; around a trimmed text there
are none (`words_trim_eq_pair_iff`).
-/

namespace Mustache.Text

def AllBlank (s : List Char) : Prop := ∀ c ∈ s, isBlank c = true

instance (s : List Char) : Decidable (AllBlank s) :=
  decidable_of_iff (s.all isBlank = true) List.all_eq_true

def IsWord (w : List Char) : Prop := w ≠ [] ∧ ∀ c ∈ w, isBlank c = false

def Trimmed (s : List Char) : Prop :=
  (∀ c ∈ s.head?, isBlank c = false) ∧ ∀ c ∈ s.getLast?, isBlank c = false

variable {s t w g : List Char}

theorem AllBlank.append (hs : AllBlank s) (ht : AllBlank t) : AllBlank (s ++ t) := by
  intro c hc
  rcases List.mem_append.1 hc with hc | hc
  · exact hs c hc
  · exact ht c hc

theorem IsWord.trimmed (hw : IsWord w) : Trimmed w :=
  ⟨fun c hc => hw.2 c (List.mem_of_mem_head? hc), fun c hc => hw.2 c (List.mem_of_getLast? hc)⟩

theorem IsWord.trimmed_append {v : List Char} (hw : IsWord w) (hv : IsWord v) (g : List Char) :
    Trimmed (w ++ (g ++ v)) := by
  constructor
  · intro c hc
    rw [List.head?_append_of_ne_nil _ hw.1] at hc
    exact hw.trimmed.1 c hc
  · intro c hc
    rw [List.getLast?_append_of_ne_nil _ (by simp [hv.1]),
      List.getLast?_append_of_ne_nil _ hv.1] at hc
    exact hv.trimmed.2 c hc

/-! ## Trimming -/

theorem not_blank_head_dropWhile (s : List Char) :
    ∀ c ∈ (s.dropWhile isBlank).head?, isBlank c = false := by
  intro c hc
  have h := List.head?_dropWhile_not isBlank s
  rw [Option.mem_def.1 hc] at h
  exact h

theorem trim_ends (s : List Char) : Trimmed (trim s) := by
  constructor
  · intro c hc
    have hprefix : trim s <+: s.dropWhile isBlank := by
      rw [trim, trimEnd, ← List.reverse_suffix, List.reverse_reverse]
      exact List.dropWhile_suffix _
    obtain ⟨t, ht⟩ := hprefix
    refine not_blank_head_dropWhile s c ?_
    rw [← ht, Option.mem_def, List.head?_append, Option.mem_def.1 hc]
    rfl
  · intro c hc
    rw [trim, trimEnd, List.getLast?_reverse] at hc
    exact not_blank_head_dropWhile _ c hc

theorem dropWhile_of_head (hs : ∀ c ∈ s.head?, isBlank c = false) :
    s.dropWhile isBlank = s := by
  cases s with
  | nil => rfl
  | cons c s => rw [List.dropWhile_cons, hs c rfl, if_neg Bool.false_ne_true]

theorem trim_padded (hs : Trimmed s) (hne : s ≠ []) (hg : AllBlank g) (ht : AllBlank t) :
    trim (g ++ (s ++ t)) = s := by
  have hfront : (g ++ (s ++ t)).dropWhile isBlank = s ++ t := by
    rw [List.dropWhile_append_of_pos hg]
    refine dropWhile_of_head fun c hc => hs.1 c ?_
    rwa [List.head?_append_of_ne_nil _ hne] at hc
  have hback : (s ++ t).reverse.dropWhile isBlank = s.reverse := by
    rw [List.reverse_append, List.dropWhile_append_of_pos (by simpa [AllBlank] using ht)]
    refine dropWhile_of_head fun c hc => hs.2 c ?_
    rwa [List.head?_reverse] at hc
  rw [trim, hfront, trimEnd, hback, List.reverse_reverse]

theorem Trimmed.trim_eq (hs : Trimmed s) : trim s = s := by
  have hback : s.reverse.dropWhile isBlank = s.reverse :=
    dropWhile_of_head fun c hc => hs.2 c (by rwa [List.head?_reverse] at hc)
  rw [trim, dropWhile_of_head hs.1, trimEnd, hback, List.reverse_reverse]

/-! ## Words -/

theorem words_blank_append (hg : AllBlank g) (s : List Char) : words (g ++ s) = words s := by
  induction g with
  | nil => rfl
  | cons c g ih =>
    have hc : isBlank c = true := hg c List.mem_cons_self
    rw [List.cons_append, words, if_pos hc]
    exact ih fun x hx => hg x (List.mem_cons_of_mem c hx)

theorem words_word_append (hw : IsWord w) (hs : wordEnds s = true) :
    words (w ++ s) = w :: words s := by
  obtain ⟨hne, hw⟩ := hw
  induction w with
  | nil => exact absurd rfl hne
  | cons c w ih =>
    have hc : isBlank c = false := hw c List.mem_cons_self
    have htail : ∀ x ∈ w, isBlank x = false := fun x hx => hw x (List.mem_cons_of_mem c hx)
    cases w with
    | nil =>
      simp only [List.cons_append, List.nil_append, words, hc, hs, if_true, Bool.false_eq_true,
        if_false]
    | cons d w =>
      have hd : ¬ wordEnds (d :: w ++ s) = true := by
        rw [Bool.not_eq_true]
        exact htail d List.mem_cons_self
      rw [List.cons_append, words, if_neg (by simp [hc]), if_neg hd, ih (by simp) htail]

theorem allBlank_of_words_eq_nil (h : words s = []) : AllBlank s := by
  fun_induction words s with
  | case1 => simp [AllBlank]
  | case2 c cs hc ih => exact List.forall_mem_cons.2 ⟨hc, ih h⟩
  | case3 => cases h
  | case4 => cases h
  | case5 => cases h

theorem AllBlank.wordEnds (h : AllBlank s) : wordEnds s = true := by
  cases s with
  | nil => rfl
  | cons c s => exact h c List.mem_cons_self

theorem exists_of_words_eq_cons {ws : List (List Char)} (h : words s = w :: ws) :
    ∃ g t, s = g ++ (w ++ t) ∧ AllBlank g ∧ IsWord w ∧ wordEnds t = true ∧ words t = ws := by
  fun_induction words s generalizing w ws with
  | case1 => cases h
  | case2 c cs hc ih =>
    obtain ⟨g, t, rfl, hg, hw, ht, hws⟩ := ih h
    exact ⟨c :: g, t, rfl, List.forall_mem_cons.2 ⟨hc, hg⟩, hw, ht, hws⟩
  | case3 c cs hc he ih =>
    cases h
    exact ⟨[], cs, rfl, by simp [AllBlank], by simpa [IsWord] using hc, he, rfl⟩
  | case4 c cs hc he hnil ih =>
    exact absurd (allBlank_of_words_eq_nil hnil).wordEnds he
  | case5 c cs hc he v vs hcs ih =>
    cases h
    obtain ⟨g, t, rfl, hg, hv, ht, hws⟩ := ih hcs
    cases g with
    | nil =>
      refine ⟨[], t, rfl, by simp [AllBlank], ⟨by simp, ?_⟩, ht, hws⟩
      exact List.forall_mem_cons.2 ⟨by simpa using hc, hv.2⟩
    | cons x g => exact absurd (hg x List.mem_cons_self) he

/-- A trimmed text is two words just if it is one word, blanks, and another word. -/
theorem words_trim_eq_pair_iff {v : List Char} :
    words (trim s) = [w, v] ↔
      IsWord w ∧ IsWord v ∧ ∃ g, g ≠ [] ∧ AllBlank g ∧ trim s = w ++ (g ++ v) := by
  constructor
  · intro h
    obtain ⟨g₁, t₁, hs, hg₁, hw, ht₁, hwords⟩ := exists_of_words_eq_cons h
    obtain ⟨g₂, t₂, rfl, hg₂, hv, -, hnone⟩ := exists_of_words_eq_cons hwords
    have ht₂ := allBlank_of_words_eq_nil hnone
    obtain ⟨hhead, hlast⟩ := trim_ends s
    -- A trimmed text has no blanks before its first word and none behind its last.
    have hg₁ : g₁ = [] := by
      cases g₁ with
      | nil => rfl
      | cons c g => simpa [hg₁ c List.mem_cons_self] using hhead c (by simp [hs])
    have ht₂ : t₂ = [] := by
      cases hlast' : t₂.getLast? with
      | none => exact List.getLast?_eq_none_iff.1 hlast'
      | some c =>
        have hc := hlast c (by simp [hs, hlast'])
        rw [ht₂ c (List.mem_of_getLast? hlast')] at hc
        cases hc
    subst hg₁ ht₂
    refine ⟨hw, hv, g₂, ?_, hg₂, by simpa using hs⟩
    rintro rfl
    obtain ⟨c, v', rfl⟩ := List.exists_cons_of_ne_nil hv.1
    have hc : isBlank c = true := ht₁
    rw [hv.2 c List.mem_cons_self] at hc
    cases hc
  · rintro ⟨hw, hv, g, hne, hg, hs⟩
    have hgap : wordEnds (g ++ v) = true := by
      obtain ⟨c, g', rfl⟩ := List.exists_cons_of_ne_nil hne
      exact hg c List.mem_cons_self
    have hlast : words v = [v] := by
      have h := words_word_append hv (show wordEnds [] = true from rfl)
      rwa [List.append_nil] at h
    rw [hs, words_word_append hw hgap, words_blank_append hg, hlast]

end Mustache.Text
