import Mathlib.Data.List.Infix
import Mustache.Text.Search

/-!
# Mustache.Proofs.Text.Occurrence

What it is that `cut` finds. `EndsFirst mark before` says that, in `before` followed by the mark,
the mark occurs nowhere earlier than at the end. `cut` splits a text there (`cut_eq_some_iff`), and
fails where the mark does not occur at all (`cut_eq_none_iff`).

A mark cannot lie across a character that it does not hold (`occurrence_apart`), so text up to such
a character can be put in front without moving what is found behind it (`EndsFirst.behind`).
-/

namespace Mustache.Text

variable {mark before after s t : List Char}

/-- The first place where the mark occurs in `before ++ mark` is the end. -/
def EndsFirst (mark before : List Char) : Prop :=
  ∀ p q, before ++ mark = p ++ (mark ++ q) → p = before

theorem endsFirst_nil (mark : List Char) : EndsFirst mark [] := by
  intro p q h
  have hlen := congrArg List.length h
  simp only [List.nil_append, List.length_append] at hlen
  exact List.eq_nil_of_length_eq_zero (by omega)

theorem EndsFirst.tail {c : Char} (h : EndsFirst mark (c :: before)) : EndsFirst mark before := by
  intro p q hp
  have hcons : c :: p = c :: before := h (c :: p) q (by rw [List.cons_append, hp]; rfl)
  exact (List.cons.inj hcons).2

theorem EndsFirst.not_isPrefixOf {c : Char} (h : EndsFirst mark (c :: before))
    (after : List Char) : mark.isPrefixOf (c :: before ++ (mark ++ after)) = false := by
  rw [Bool.eq_false_iff]
  intro hp
  have hlong : mark <+: (c :: before ++ mark) ++ after := by
    rw [List.append_assoc]
    exact List.isPrefixOf_iff_prefix.1 hp
  obtain ⟨q, hq⟩ : mark <+: c :: before ++ mark :=
    List.prefix_of_prefix_length_le hlong (List.prefix_append _ after) (by simp; omega)
  cases h [] q hq.symm

theorem EndsFirst.not_infix (h : EndsFirst mark before) (hmark : mark ≠ []) :
    ¬ mark <:+: before := by
  rintro ⟨p, q, rfl⟩
  have hlen := congrArg List.length (h p (q ++ mark) (by simp))
  have hpos := List.length_pos_iff.2 hmark
  simp only [List.length_append] at hlen
  omega

theorem cut_append (h : EndsFirst mark before) (after : List Char) :
    cut mark (before ++ (mark ++ after)) = some (before, after) := by
  induction before with
  | nil =>
    cases hs : mark ++ after with
    | nil =>
      obtain ⟨rfl, rfl⟩ := List.append_eq_nil_iff.1 hs
      rfl
    | cons c cs =>
      have hp : mark.isPrefixOf (c :: cs) = true :=
        List.isPrefixOf_iff_prefix.2 (hs ▸ List.prefix_append mark after)
      rw [List.nil_append, cut, if_pos hp, ← hs, List.drop_left]
  | cons c before ih =>
    have hp := h.not_isPrefixOf after
    rw [List.cons_append] at hp ⊢
    rw [cut, if_neg (by rw [hp]; exact Bool.false_ne_true), ih h.tail]

theorem endsFirst_of_cut (h : cut mark s = some (before, after)) : EndsFirst mark before := by
  fun_induction cut mark s generalizing before after with
  | case1 =>
    cases h
    exact endsFirst_nil mark
  | case2 => cases h
  | case3 =>
    cases h
    exact endsFirst_nil mark
  | case4 => cases h
  | case5 c cs hp b a hcut ih =>
    cases h
    intro p q hpq
    cases p with
    | nil =>
      -- The mark would start the text, and the cut would have been made there.
      refine absurd (List.isPrefixOf_iff_prefix.2 ⟨q ++ a, ?_⟩) hp
      rw [← List.append_assoc, ← List.nil_append (mark ++ q), ← hpq, List.append_assoc,
        List.cons_append, cut_eq hcut]
    | cons x p =>
      obtain ⟨rfl, htail⟩ := List.cons.inj hpq
      rw [ih hcut p q htail]

/-- A text is cut at the first place where the mark occurs. -/
theorem cut_eq_some_iff :
    cut mark s = some (before, after) ↔ s = before ++ (mark ++ after) ∧ EndsFirst mark before := by
  constructor
  · intro h
    exact ⟨(cut_eq h).symm, endsFirst_of_cut h⟩
  · rintro ⟨rfl, h⟩
    exact cut_append h after

theorem cut_eq_none_iff : cut mark s = none ↔ ¬ mark <:+: s := by
  constructor
  · intro h
    fun_induction cut mark s with
    | case1 => cases h
    | case2 hm =>
      intro hin
      exact hm (List.isEmpty_iff.2 (List.eq_nil_of_infix_nil hin))
    | case3 => cases h
    | case4 c cs hp hcut ih =>
      intro hin
      rcases List.infix_cons_iff.1 hin with hpre | hin
      · exact hp (List.isPrefixOf_iff_prefix.2 hpre)
      · exact ih hcut hin
    | case5 => cases h
  · intro h
    cases hcut : cut mark s with
    | none => rfl
    | some parts =>
      obtain ⟨before, after⟩ := parts
      exact absurd ⟨before, after, by rw [List.append_assoc, cut_eq hcut]⟩ h

/-- For a mark of one character written twice: it is not in the text, and the text does not end in
the character, which would begin the mark too early. -/
theorem endsFirst_twice_iff {c : Char} :
    EndsFirst [c, c] before ↔ ¬ [c, c] <:+: before ∧ before.getLast? ≠ some c := by
  constructor
  · intro h
    refine ⟨h.not_infix (by simp), fun hlast => ?_⟩
    obtain ⟨t, rfl⟩ := List.getLast?_eq_some_iff.1 hlast
    have hlen := congrArg List.length (h t [c] (by simp))
    simp at hlen
  · rintro ⟨hin, hlast⟩ p q hpq
    cases q with
    | nil =>
      have hsame : before = p := by simpa using hpq
      exact hsame.symm
    | cons d q =>
      -- An earlier occurrence lies before the last character, so it begins in the text.
      have hshort : [c, c] <:+: before ++ [c] := by
        have h := congrArg List.dropLast hpq
        simp only [List.dropLast_append_of_ne_nil, List.append_eq_nil_iff, reduceCtorEq,
          not_false_eq_true, and_false, ne_eq] at h
        exact ⟨p, (d :: q).dropLast, by rw [List.append_assoc, ← h]; rfl⟩
      rcases List.infix_concat_iff.1 hshort with hends | hearlier
      · obtain hnil | ⟨t, ht, hends⟩ := List.suffix_concat_iff.1 hends
        · cases hnil
        · obtain rfl : t = [c] := (List.append_inj_left' ht rfl).symm
          exact absurd (List.singleton_suffix_iff_getLast?_eq_some.1 hends) hlast
      · exact absurd hearlier hin

/-! ## Texts without the first character of a mark -/

theorem not_infix_of_not_mem {m : Char} (h : m ∉ t) : ¬ (m :: mark) <:+: t :=
  fun hin => h (hin.subset List.mem_cons_self)

theorem endsFirst_of_not_mem {m : Char} (h : m ∉ before) : EndsFirst (m :: mark) before := by
  intro p q hpq
  rcases List.append_eq_append_iff.1 hpq with ⟨r, hp, hr⟩ | ⟨r, hbefore, hr⟩
  · have hlen := congrArg List.length hr
    simp only [List.length_append] at hlen
    obtain rfl : r = [] := List.eq_nil_of_length_eq_zero (by omega)
    rw [hp, List.append_nil]
  · cases r with
    | nil => rw [hbefore, List.append_nil]
    | cons x r =>
      obtain ⟨rfl, -⟩ := List.cons.inj hr
      exact absurd (hbefore ▸ List.mem_append_right p List.mem_cons_self) h

/-! ## Text in front -/

theorem occurrence_apart {c : Char} (hc : c ∉ mark) {p q : List Char}
    (h : s ++ c :: t = p ++ (mark ++ q)) :
    (∃ r, s = p ++ (mark ++ r)) ∨ ∃ r, p = s ++ c :: r ∧ t = r ++ (mark ++ q) := by
  rcases List.append_eq_append_iff.1 h with ⟨r, hp, hr⟩ | ⟨r, hs, hr⟩
  · cases r with
    | nil =>
      cases mark with
      | nil => exact .inl ⟨[], by simpa using hp.symm⟩
      | cons m mark =>
        rw [List.nil_append, List.cons_append] at hr
        obtain ⟨rfl, -⟩ := List.cons.inj hr
        exact absurd List.mem_cons_self hc
    | cons x r =>
      rw [List.cons_append] at hr
      obtain ⟨rfl, ht⟩ := List.cons.inj hr
      exact .inr ⟨r, hp, ht⟩
  · rcases List.append_eq_append_iff.1 hr with ⟨u, hu, -⟩ | ⟨u, hm, hu⟩
    · exact .inl ⟨u, by rw [hs, hu]⟩
    · cases u with
      | nil => exact .inl ⟨[], by rw [hs, hm]; simp⟩
      | cons x u =>
        obtain ⟨rfl, -⟩ := List.cons.inj hu
        exact absurd (hm ▸ List.mem_append_right r List.mem_cons_self) hc

theorem not_infix_append {c : Char} (hc : c ∉ mark) (hs : ¬ mark <:+: s ++ [c])
    (ht : ¬ mark <:+: t) : ¬ mark <:+: s ++ c :: t := by
  rintro ⟨p, q, h⟩
  rw [List.append_assoc] at h
  rcases occurrence_apart hc h.symm with ⟨r, hr⟩ | ⟨r, -, hr⟩
  · exact hs ⟨p, r ++ [c], by rw [hr]; simp⟩
  · exact ht ⟨r, q, by rw [hr]; simp⟩

theorem EndsFirst.behind {c : Char} (hc : c ∉ mark) (hs : ¬ mark <:+: s ++ [c])
    (h : EndsFirst mark t) : EndsFirst mark (s ++ c :: t) := by
  intro p q hpq
  rw [List.append_assoc, List.cons_append] at hpq
  rcases occurrence_apart hc hpq with ⟨r, hr⟩ | ⟨r, rfl, hr⟩
  · exact absurd ⟨p, r ++ [c], by rw [hr]; simp⟩ hs
  · rw [h r q hr]

end Mustache.Text
