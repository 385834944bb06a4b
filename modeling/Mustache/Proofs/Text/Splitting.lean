import Mustache.Text.Search

/-!
# Mustache.Proofs.Text.Splitting

The parts between the separators of a text. `split` is the splitting of lists (`split_eq_splitOn`);
no part holds a separator (`separator_not_mem_split`), and what is put together with one is split
where it was put together (`split_append`).
-/

namespace Mustache.Text

variable {separator : Char} {s : List Char}

theorem split_eq_splitOn (separator : Char) (s : List Char) :
    split separator s = s.splitOn separator := by
  induction s with
  | nil => rfl
  | cons c cs ih =>
    rw [List.splitOn_cons_eq_if_modifyHead, split, ih]
    by_cases hc : c = separator
    · rw [if_pos hc, if_pos (beq_iff_eq.2 hc)]
    · rw [if_neg hc, if_neg (by simpa using hc)]
      obtain ⟨part, parts, hparts⟩ := List.exists_cons_of_ne_nil (List.splitOn_ne_nil separator cs)
      rw [hparts]
      rfl

theorem split_ne_nil (separator : Char) (s : List Char) : split separator s ≠ [] := by
  rw [split_eq_splitOn]
  exact List.splitOn_ne_nil separator s

theorem split_append (separator : Char) (a b : List Char) :
    split separator (a ++ separator :: b) = split separator a ++ split separator b := by
  rw [split_eq_splitOn, split_eq_splitOn, split_eq_splitOn]
  exact List.splitOn_append_cons_self a b

theorem separator_not_mem_split (separator : Char) (s : List Char) :
    ∀ part ∈ split separator s, separator ∉ part := by
  fun_induction split separator s with
  | case1 => simp
  | case2 cs ih => simpa using ih
  | case3 c cs hc hnil ih => simpa using Ne.symm hc
  | case4 c cs hc part parts hparts ih =>
    rw [hparts] at ih
    intro x hx
    rcases List.mem_cons.1 hx with rfl | hx
    · exact List.not_mem_cons_of_ne_of_not_mem (Ne.symm hc) (ih part List.mem_cons_self)
    · exact ih x (List.mem_cons_of_mem _ hx)

theorem split_of_not_mem (h : separator ∉ s) : split separator s = [s] := by
  induction s with
  | nil => rfl
  | cons c cs ih =>
    rw [List.mem_cons, not_or] at h
    rw [split, if_neg fun hc => h.1 hc.symm, ih h.2]

theorem split_last {tail : List Char} (h : separator ∉ tail) (s : List Char) :
    ∃ front last, split separator (s ++ tail) = front ++ [last ++ tail] := by
  induction s with
  | nil => exact ⟨[], [], split_of_not_mem h⟩
  | cons c cs ih =>
    obtain ⟨front, last, ih⟩ := ih
    rw [List.cons_append, split, ih]
    split
    · exact ⟨[] :: front, last, rfl⟩
    · cases front with
      | nil => exact ⟨[], c :: last, rfl⟩
      | cons part parts => exact ⟨(c :: part) :: parts, last, rfl⟩

end Mustache.Text
