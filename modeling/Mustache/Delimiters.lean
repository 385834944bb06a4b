import Mustache.Text.Blank

/-!
# Mustache.Delimiters

The pair of marks that open and close a tag, and which pairs can be used: a mark is not empty,
holds no blank and no `=`. The scanner works with usable pairs only, so its marks are never
empty (`Delimiters.opening_ne_empty`).
-/

namespace Mustache

structure Delimiters where
  opening : String
  closing : String
  deriving DecidableEq, Repr

namespace Delimiters

def standard : Delimiters := ⟨"\x7b\x7b", "\x7d\x7d"⟩

instance : Inhabited Delimiters := ⟨standard⟩

inductive Fault where
  | empty
  | blank (mark : String)
  | equals (mark : String)
  deriving DecidableEq, Repr

def Fault.message : Fault → String
  | .empty => "delimiters cannot be empty"
  | .blank mark => s!"delimiter `{mark}` contains whitespace"
  | .equals mark => s!"delimiter `{mark}` contains `=`"

def markFault? (mark : String) : Option Fault :=
  if mark.toList.isEmpty then some .empty
  else if mark.toList.any Text.isBlank then some (.blank mark)
  else if mark.toList.contains '=' then some (.equals mark)
  else none

/-- The first fault, that of the opening mark before that of the closing one. -/
def fault? (d : Delimiters) : Option Fault :=
  match markFault? d.opening with
  | some fault => some fault
  | none => markFault? d.closing

def Usable (d : Delimiters) : Prop := d.fault? = none

instance (d : Delimiters) : Decidable d.Usable :=
  inferInstanceAs (Decidable (d.fault? = none))

theorem standard_usable : standard.Usable := by decide

theorem markFault?_eq_none_iff {mark : String} :
    markFault? mark = none ↔
      mark.toList ≠ [] ∧ ∀ c ∈ mark.toList, Text.isBlank c = false ∧ c ≠ '=' := by
  unfold markFault?
  constructor
  · intro h
    split at h <;> try cases h
    split at h <;> try cases h
    split at h <;> try cases h
    rename_i h₁ h₂ h₃
    simp only [List.isEmpty_iff] at h₁
    simp only [List.any_eq_true, not_exists, not_and, Bool.not_eq_true] at h₂
    simp only [List.contains_iff_mem] at h₃
    exact ⟨h₁, fun c hc => ⟨h₂ c hc, fun he => h₃ (he ▸ hc)⟩⟩
  · intro ⟨h₁, h₂⟩
    rw [if_neg (by simpa using h₁), if_neg, if_neg]
    · intro h
      exact (h₂ '=' (by simpa using h)).2 rfl
    · simp only [List.any_eq_true, not_exists, not_and, Bool.not_eq_true]
      exact fun c hc => (h₂ c hc).1

theorem usable_iff {d : Delimiters} :
    d.Usable ↔ markFault? d.opening = none ∧ markFault? d.closing = none := by
  unfold Usable fault?
  split <;> simp_all

theorem Usable.opening_ne_nil {d : Delimiters} (h : d.Usable) : d.opening.toList ≠ [] :=
  (markFault?_eq_none_iff.1 (usable_iff.1 h).1).1

/-- The two marks with a space between, as a change of delimiters writes them. -/
def text (d : Delimiters) : String :=
  s!"{d.opening} {d.closing}"

end Delimiters

abbrev UsableDelimiters := { d : Delimiters // d.Usable }

def Delimiters.check (d : Delimiters) : Except Delimiters.Fault UsableDelimiters :=
  match h : d.fault? with
  | some fault => .error fault
  | none => .ok ⟨d, h⟩

end Mustache
