import Mustache.Text.Search

/-!
# Mustache.Proofs.Text.Deletion

A text without some of its regions. A region is a pair of byte offsets, its start and its stop, and
`without` leaves out each character that begins in one. What is left of a part of a text depends
only on the regions that meet the part: nothing is left where one covers it (`without_covered`), and
all of it where none does (`without_clear`). Regions are `Ascending` if they lie one behind the
other.
-/

namespace Mustache.Text

/-- The text without what lies in the regions; `n` is the offset at which it begins. -/
def without (regions : List (Nat × Nat)) : Nat → List Char → List Char
  | _, [] => []
  | n, c :: cs =>
    if regions.any fun r => r.1 ≤ n && n < r.2 then without regions (n + c.utf8Size) cs
    else c :: without regions (n + c.utf8Size) cs

variable {regions : List (Nat × Nat)} {n : Nat} {s : List Char}

theorem without_append (regions : List (Nat × Nat)) (n : Nat) (s t : List Char) :
    without regions n (s ++ t) =
      without regions n s ++ without regions (n + byteLength s) t := by
  induction s generalizing n with
  | nil => rfl
  | cons c s ih =>
    rw [List.cons_append, without, without, ih, byteLength, Nat.add_assoc]
    split <;> rfl

theorem without_covered {r : Nat × Nat} (hr : r ∈ regions) (hstart : r.1 ≤ n)
    (hstop : n + byteLength s ≤ r.2) : without regions n s = [] := by
  induction s generalizing n with
  | nil => rfl
  | cons c s ih =>
    have hpos := Char.utf8Size_pos c
    rw [byteLength] at hstop
    have hin : (regions.any fun r => r.1 ≤ n && n < r.2) = true :=
      List.any_eq_true.2 ⟨r, hr, by simp only [Bool.and_eq_true, decide_eq_true_eq]; omega⟩
    rw [without, if_pos hin]
    exact ih (by omega) (by omega)

theorem without_clear (h : ∀ r ∈ regions, r.2 ≤ n ∨ n + byteLength s ≤ r.1) :
    without regions n s = s := by
  induction s generalizing n with
  | nil => rfl
  | cons c s ih =>
    have hpos := Char.utf8Size_pos c
    have hout : ¬ (regions.any fun r => r.1 ≤ n && n < r.2) = true := by
      simp only [List.any_eq_true, Bool.and_eq_true, decide_eq_true_eq, not_exists, not_and]
      intro r hr hstart
      have := h r hr
      rw [byteLength] at this
      omega
    rw [without, if_neg hout, ih]
    intro r hr
    have := h r hr
    rw [byteLength] at this
    omega

theorem without_cons {r : Nat × Nat} (h : r.2 ≤ n) :
    without (r :: regions) n s = without regions n s := by
  induction s generalizing n with
  | nil => rfl
  | cons c s ih =>
    have hout : (decide (r.1 ≤ n) && decide (n < r.2)) = false := by
      simp only [Bool.and_eq_false_iff, decide_eq_false_iff_not]
      omega
    rw [without, without, List.any_cons, hout, Bool.false_or, ih (by omega)]

/-- Of a text in five parts, with regions for the first, the third and the fourth one, the second
part stays; what is left of the last one depends on the other regions. -/
theorem without_parts {a b c d e : Nat} {claimed text lead written rest : List Char}
    (ha : a = n + byteLength claimed) (hb : b = a + byteLength text)
    (hc : c = b + byteLength lead) (hd : d = c + byteLength written) (he : d ≤ e)
    (h : ∀ r ∈ regions, e ≤ r.1) :
    without ((n, a) :: (b, c) :: (c, d) :: (d, e) :: regions) n
        (claimed ++ (text ++ (lead ++ (written ++ rest)))) =
      text ++ without ((d, e) :: regions) d rest := by
  have hclear : ∀ r ∈ (n, a) :: (b, c) :: (c, d) :: (d, e) :: regions,
      r.2 ≤ a ∨ a + byteLength text ≤ r.1 := by
    simp only [List.forall_mem_cons]
    exact ⟨by omega, by omega, by omega, by omega, fun r hr => by have := h r hr; omega⟩
  have hclaimed : without ((n, a) :: (b, c) :: (c, d) :: (d, e) :: regions) n claimed = [] :=
    without_covered List.mem_cons_self (Nat.le_refl n) (by omega)
  have hlead : without ((n, a) :: (b, c) :: (c, d) :: (d, e) :: regions) b lead = [] :=
    without_covered (r := (b, c)) (by simp) (Nat.le_refl b) (by omega)
  have hwritten : without ((n, a) :: (b, c) :: (c, d) :: (d, e) :: regions) c written = [] :=
    without_covered (r := (c, d)) (by simp) (Nat.le_refl c) (by omega)
  rw [without_append, without_append, without_append, without_append, ← ha, ← hb, ← hc, ← hd,
    hclaimed, without_clear hclear, hlead, hwritten, List.nil_append, List.nil_append,
    List.nil_append, without_cons (by omega), without_cons (by omega), without_cons (by omega)]

/-! ## Regions one behind the other -/

/-- Each region begins where the one before it stops or later, the first one at `n` or later. -/
def Ascending (n : Nat) : List (Nat × Nat) → Prop
  | [] => True
  | r :: regions => n ≤ r.1 ∧ r.1 ≤ r.2 ∧ Ascending r.2 regions

theorem Ascending.begin_le (h : Ascending n regions) : ∀ r ∈ regions, n ≤ r.1 := by
  induction regions generalizing n with
  | nil => exact fun r hr => (List.not_mem_nil hr).elim
  | cons r regions ih =>
    obtain ⟨hn, hr, hrest⟩ := h
    exact List.forall_mem_cons.2 ⟨hn, fun r' hr' => by have := ih hrest r' hr'; omega⟩

theorem Ascending.pairwise (h : Ascending n regions) :
    regions.Pairwise fun a b => a.2 ≤ b.1 := by
  induction regions generalizing n with
  | nil => exact .nil
  | cons r regions ih => exact .cons h.2.2.begin_le (ih h.2.2)

end Mustache.Text
