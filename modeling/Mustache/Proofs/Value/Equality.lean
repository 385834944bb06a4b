import Mathlib.Data.List.Forall2
import Mustache.Value

/-!
# Mustache.Proofs.Value.Equality

When two values are equal.

`Value.Alike` compares two values at their outermost level and leaves those inside of them to a
relation, so that equality is the relation that is alike itself (`Value.equal_iff`). Numbers are
compared as floating-point numbers or by their distance in steps, a signed word (`Binary64.Close`).
Equality is reflexive, also for what is not a number, and symmetric (`Value.equal_symmetric`); since
small distances add up, it is not transitive.
-/

namespace Mustache

/-! ## Numbers -/

namespace Binary64

variable {x y : Binary64}

/-- Equal, or at most two steps apart, as a signed word that wraps around counts them. -/
def Close (x y : Binary64) : Prop :=
  x.equal y = true ∨ (x.rank - y.rank).toInt64.toInt.natAbs ≤ 2

theorem equal_comm (x y : Binary64) : x.equal y = y.equal x := by
  rw [equal, equal, Bool.and_comm (!x.isNaN), BEq.comm (a := x.bits), Bool.and_comm x.isZero]

theorem toInt_toInt64 (d : UInt64) :
    d.toInt64.toInt =
      if 2 * d.toNat < UInt64.size then (d.toNat : Int) else d.toNat - UInt64.size :=
  BitVec.toInt_eq_toNat_cond d.toBitVec

theorem within_two_iff (d : UInt64) :
    (decide (d ≤ 2) || decide (0 - d ≤ 2)) = true ↔ d.toInt64.toInt.natAbs ≤ 2 := by
  have hd : d.toNat < UInt64.size := d.toNat_lt
  have htwo : (2 : UInt64).toNat = 2 := rfl
  rw [Bool.or_eq_true, decide_eq_true_iff, decide_eq_true_iff, UInt64.le_iff_toNat_le,
    UInt64.le_iff_toNat_le, UInt64.zero_sub, UInt64.toNat_neg, htwo, toInt_toInt64]
  simp only [UInt64.size] at hd ⊢
  split <;> omega

theorem near_iff : x.near y = true ↔ x.Close y := by
  rw [near, Bool.or_eq_true, Close]
  exact or_congr_right (within_two_iff (x.rank - y.rank))

theorem Close.refl (x : Binary64) : x.Close x := by
  refine .inr ?_
  rw [UInt64.sub_self]
  decide

/-- The distance in one direction is that in the other with its sign changed, or both are the least
signed word. -/
theorem Close.symm (h : x.Close y) : y.Close x := by
  refine h.imp (fun h => by rwa [equal_comm]) fun h => ?_
  have hd : (x.rank - y.rank).toNat < UInt64.size := (x.rank - y.rank).toNat_lt
  have hneg : y.rank - x.rank = -(x.rank - y.rank) := UInt64.neg_sub.symm
  rw [toInt_toInt64] at h
  rw [hneg, toInt_toInt64, UInt64.toNat_neg]
  generalize (x.rank - y.rank).toNat = d at *
  simp only [UInt64.size] at h hd ⊢
  split at h <;> split <;> omega

end Binary64

/-! ## Values -/

namespace Value

def parts : Value → List Value
  | .list items => items
  | .map fields => fields.map (·.2)
  | _ => []

@[elab_as_elim]
theorem partsInduction {P : Value → Prop} (step : ∀ v : Value, (∀ w ∈ v.parts, P w) → P v)
    (v : Value) : P v :=
  Value.rec (motive_1 := P) (motive_2 := fun items => ∀ w ∈ items, P w)
    (motive_3 := fun fields => ∀ w ∈ fields.map (·.2), P w) (motive_4 := fun field => P field.2)
    (step _ nofun) (fun _ => step _ nofun) (fun _ => step _ nofun) (fun _ => step _ nofun)
    (fun _ => step _ nofun) (fun items => step (.list items)) (fun fields => step (.map fields))
    (fun _ => step _ nofun) (fun _ => step _ nofun) nofun
    (fun _ _ hhead htail => List.forall_mem_cons.2 ⟨hhead, htail⟩) nofun
    (fun _ _ hhead htail => List.forall_mem_cons.2 ⟨hhead, htail⟩) (fun _ _ h => h) v

variable {R S : Value → Value → Prop} {a b : Value}

/-- Two values are alike when those inside of them are related by `R`. -/
inductive Alike (R : Value → Value → Prop) : Value → Value → Prop where
  | null : Alike R .null .null
  | bool (b : Bool) : Alike R (.bool b) (.bool b)
  | integer (n : Int) : Alike R (.integer n) (.integer n)
  | number {x y} : x.Close y → Alike R (.number x) (.number y)
  /-- A whole number is rounded before it is compared with one that need not be whole. -/
  | integerNumber {n x} : (Binary64.ofInt n).Close x → Alike R (.integer n) (.number x)
  | numberInteger {x n} : (Binary64.ofInt n).Close x → Alike R (.number x) (.integer n)
  | text (s : String) : Alike R (.text s) (.text s)
  | list {items items'} : List.Forall₂ R items items' → Alike R (.list items) (.list items')
  | map {fields fields'} : List.Forall₂ (fun f g => f.1 = g.1 ∧ R f.2 g.2) fields fields' →
      Alike R (.map fields) (.map fields')
  /-- Handles are alike only if they are the same. -/
  | lambda (lambda : Lambda) : Alike R (.lambda lambda) (.lambda lambda)
  | record (record : Record) : Alike R (.record record) (.record record)

theorem alike_self (h : ∀ v ∈ a.parts, R v v) : Alike R a a := by
  cases a with
  | number x => exact .number (.refl x)
  | list items => exact .list (List.forall₂_same.2 h)
  | map fields =>
    exact .map (List.forall₂_same.2 fun f hf => ⟨rfl, h f.2 (List.mem_map_of_mem hf)⟩)
  | _ => constructor

theorem Alike.swap (h : Alike R a b) (hparts : ∀ v ∈ a.parts, ∀ w, R v w → S w v) :
    Alike S b a := by
  cases h with
  | number h => exact .number h.symm
  | integerNumber h => exact .numberInteger h
  | numberInteger h => exact .integerNumber h
  | list h =>
    have hboth := (List.forall₂_and_left ..).2 ⟨hparts, h⟩
    exact .list (hboth.flip.imp fun w v h => h.1 w h.2)
  | map h =>
    have hboth := (List.forall₂_and_left ..).2 ⟨List.forall_mem_map.1 hparts, h⟩
    exact .map (hboth.flip.imp fun g f h => ⟨h.2.1.symm, h.1 g.2 h.2.2⟩)
  | _ => constructor

theorem equalItems_iff {items items' : List Value} : equalItems items items' = true ↔
    List.Forall₂ (fun v w => v.equal w = true) items items' := by
  induction items generalizing items' with
  | nil => cases items' <;> simp [equalItems]
  | cons v items ih => cases items' <;> simp [equalItems, ih]

theorem equalFields_iff {fields fields' : Fields} : equalFields fields fields' = true ↔
    List.Forall₂ (fun f g => f.1 = g.1 ∧ f.2.equal g.2 = true) fields fields' := by
  induction fields generalizing fields' with
  | nil => cases fields' <;> simp [equalFields]
  | cons f fields ih =>
    obtain ⟨key, v⟩ := f
    cases fields' <;> simp [equalFields, ih]

/-- Equality compares the values inside by itself. -/
theorem equal_iff : a.equal b = true ↔ Alike (fun v w => v.equal w = true) a b := by
  constructor
  · intro h
    fun_cases equal a b with
    | case1 => exact .null
    | case2 b c =>
      obtain rfl : b = c := by simpa [equal] using h
      exact .bool b
    | case3 n m =>
      obtain rfl : n = m := by simpa [equal] using h
      exact .integer n
    | case4 => exact .number (Binary64.near_iff.1 h)
    | case5 => exact .integerNumber (Binary64.near_iff.1 h)
    | case6 => exact .numberInteger (Binary64.near_iff.1 h)
    | case7 s t =>
      obtain rfl : s = t := by simpa [equal] using h
      exact .text s
    | case8 => exact .list (equalItems_iff.1 h)
    | case9 => exact .map (equalFields_iff.1 h)
    | case10 l l' =>
      obtain rfl : l = l' := by simpa [equal] using h
      exact .lambda l
    | case11 r r' =>
      obtain rfl : r = r' := by simpa [equal] using h
      exact .record r
    | case12 =>
      -- no two kinds are left that can be alike
      rw [equal] at h
      · cases h
      all_goals assumption
  · intro h
    cases h with
    | number h => exact Binary64.near_iff.2 h
    | integerNumber h => exact Binary64.near_iff.2 h
    | numberInteger h => exact Binary64.near_iff.2 h
    | list h => exact equalItems_iff.2 h
    | map h => exact equalFields_iff.2 h
    | _ => simp [equal]

theorem equal_self (a : Value) : a.equal a = true := by
  induction a using partsInduction with
  | step a ih => exact equal_iff.2 (alike_self ih)

theorem equal_symm (h : a.equal b = true) : b.equal a = true := by
  induction a using partsInduction generalizing b with
  | step a ih => exact equal_iff.2 ((equal_iff.1 h).swap fun v hv w => ih v hv)

/-- Each value is equal to itself, whatever numbers and handles are in it, and two values are equal
in both directions or in neither. -/
theorem equal_symmetric (a b : Value) :
    a.equal a = true ∧ (a.equal b = true ↔ b.equal a = true) ∧
      (a.equal b = true ↔ Alike (fun v w => v.equal w = true) a b) :=
  ⟨equal_self a, ⟨equal_symm, equal_symm⟩, equal_iff⟩

/-- Two steps and two more are too many, and between the two ends of the order is one. -/
example :
    let number (bits : UInt64) : Value := .number ⟨bits⟩
    (number 0).equal (number 2) ∧ (number 2).equal (number 4) ∧ ¬ (number 0).equal (number 4) ∧
      (number 0x7fffffffffffffff).equal (number 0xffffffffffffffff) := by
  decide +kernel

end Value

end Mustache
