import Mustache.Proofs.Render.Interpretation

/-!
# Mustache.Proofs.Render.LambdaFree

Contexts in which no lookup yields a lambda.

`Within` are the scopes that rendering can come to from a context, and `Context.LambdaFree` says
that no lookup in any of them yields a lambda. A context has this property when none of its values
holds a lambda and no record of the host answers with one (`lambdaFree_of_values`).
-/

namespace Mustache

variable {η : Type} {host : Host η}

/-- The scopes, and what the host keeps in them, that can be come to from the scope `c₀` by looking
paths up, opening and closing sections for what was found, and entering partials. -/
inductive Within (host : Host η) (c₀ : Context) (kept₀ : η) : Context → η → Prop where
  | start : Within host c₀ kept₀ c₀ kept₀
  | look {c kept} (path : String) : Within host c₀ kept₀ c kept →
      Within host c₀ kept₀ c (c.resolve host (.ofString path) kept).2
  | opened {c kept path v frame kept'} : Within host c₀ kept₀ c kept →
      (c.resolve host (.ofString path) kept).1 = .ok v → frame ∈ v.frames →
      Within host c₀ kept₀ c kept' → Within host c₀ kept₀ (c.push frame) kept'
  | closed {c kept frame kept'} : Within host c₀ kept₀ c kept →
      Within host c₀ kept₀ (c.push frame) kept' → Within host c₀ kept₀ c kept'
  | entered {c kept} (depth : Nat) : Within host c₀ kept₀ c kept →
      Within host c₀ kept₀ { c with partialDepth := depth } kept

theorem Within.scoped (c₀ : Context) (kept₀ : η) : Scoped host (Within host c₀ kept₀) where
  resolve path h := .look path h
  push h hv hmem h' := .opened h hv hmem h'
  pop h h' := .closed h h'
  enter depth h := .entered depth h

/-- What is known of a scope is known of all scopes that can be come to from it. -/
theorem Within.of_scoped {I : Context → η → Prop} (hI : Scoped host I) {c₀ c : Context}
    {kept₀ kept : η} (h : Within host c₀ kept₀ c kept) (h₀ : I c₀ kept₀) : I c kept := by
  induction h with
  | start => exact h₀
  | look path _ ih => exact hI.resolve path ih
  | opened _ hv hmem _ ih ih' => exact hI.push ih hv hmem ih'
  | closed _ _ ih ih' => exact hI.pop ih ih'
  | entered depth _ ih => exact hI.enter depth ih

/-- No lookup yields a lambda, in the context or in any scope that can be come to from it. -/
def Context.LambdaFree (c : Context) (host : Host η) (kept : η) : Prop :=
  NoLambda host (Within host c kept)

/-! ## Values without lambdas -/

namespace Value

mutual

def lambdaFree : Value → Bool
  | .lambda _ => false
  | .list items => lambdaFreeItems items
  | .map fields => lambdaFreeFields fields
  | _ => true

def lambdaFreeItems : List Value → Bool
  | [] => true
  | item :: items => lambdaFree item && lambdaFreeItems items

def lambdaFreeFields : List (String × Value) → Bool
  | [] => true
  | (_, value) :: fields => lambdaFree value && lambdaFreeFields fields

end

theorem lambdaFree_of_mem_items {items : List Value} (h : lambdaFreeItems items = true)
    {item : Value} (hmem : item ∈ items) : item.lambdaFree = true := by
  induction items with
  | nil => cases hmem
  | cons first items ih =>
    rw [lambdaFreeItems, Bool.and_eq_true] at h
    rcases List.mem_cons.1 hmem with rfl | hmem
    · exact h.1
    · exact ih h.2 hmem

theorem lambdaFree_of_get? {fields : Fields} (h : lambdaFreeFields fields = true) {key : String}
    {v : Value} (hv : fields.get? key = some v) : v.lambdaFree = true := by
  induction fields with
  | nil => cases hv
  | cons field fields ih =>
    rw [lambdaFreeFields, Bool.and_eq_true] at h
    rw [Fields.get?] at hv
    split at hv
    · cases hv
      exact h.1
    · exact ih h.2 hv

theorem lambdaFree_of_mem_frames {v frame : Value} (h : v.lambdaFree = true)
    (hmem : frame ∈ v.frames) : frame.lambdaFree = true := by
  cases v with
  | list items => exact lambdaFree_of_mem_items h hmem
  | _ =>
    simp only [frames] at hmem
    split at hmem
    · obtain rfl := List.mem_singleton.1 hmem
      exact h
    · cases hmem

end Value

/-- No record answers with a value that holds a lambda. -/
def Host.LambdaFree (host : Host η) : Prop :=
  ∀ record key kept v, (host.field record key kept).1 = some v ∨
    (host.method record key kept).1 = some v → v.lambdaFree = true

section Lookups

variable (hhost : host.LambdaFree)
include hhost

theorem lambdaFree_getOrCall {value v : Value} (h : value.lambdaFree = true) {key : String}
    {kept : η} (hv : (host.getOrCall value key kept).1 = some v) : v.lambdaFree = true := by
  cases value with
  | map fields =>
    simp only [Host.getOrCall, Host.get, Host.invoke] at hv
    split at hv
    · rename_i w _ hw
      cases hv
      exact Value.lambdaFree_of_get? h (congrArg Prod.fst hw)
    · cases hv
  | list items =>
    simp only [Host.getOrCall, Host.get, Host.invoke] at hv
    split at hv
    · rename_i w _ hw
      cases hv
      split at hw
      · exact Value.lambdaFree_of_mem_items h (List.mem_of_getElem? (congrArg Prod.fst hw))
      · cases hw
    · cases hv
  | record record =>
    simp only [Host.getOrCall, Host.get, Host.invoke] at hv
    split at hv
    · rename_i w _ hw
      cases hv
      exact hhost record key kept _ (.inl (congrArg Prod.fst hw))
    · exact hhost record key _ _ (.inr hv)
  | _ => simp [Host.getOrCall, Host.get, Host.invoke] at hv

theorem lambdaFree_follow {keys : List String} : ∀ {value v : Value} {kept : η},
    value.lambdaFree = true → (host.follow value keys kept).1 = some v → v.lambdaFree = true := by
  induction keys with
  | nil =>
    intro value v kept h hv
    cases hv
    exact h
  | cons key keys ih =>
    intro value v kept h hv
    rw [Host.follow] at hv
    split at hv
    · cases hv
    · rename_i w kept' hw
      exact ih (lambdaFree_getOrCall hhost h (congrArg Prod.fst hw)) hv

theorem lambdaFree_search {frames : List Value} (h : ∀ frame ∈ frames, frame.lambdaFree = true)
    {key : String} : ∀ {v : Value} {kept : η},
    (host.search key frames kept).1 = some v → v.lambdaFree = true := by
  induction frames with
  | nil =>
    intro v kept hv
    cases hv
  | cons frame frames ih =>
    intro v kept hv
    rw [Host.search] at hv
    split at hv
    · rename_i w kept' hw
      cases hv
      exact lambdaFree_getOrCall hhost (h frame List.mem_cons_self) (congrArg Prod.fst hw)
    · exact ih (fun frame' hmem => h frame' (List.mem_cons_of_mem _ hmem)) hv

theorem lambdaFree_resolve {c : Context} (hframes : ∀ frame ∈ c.frames, frame.lambdaFree = true)
    (hglobals : Value.lambdaFreeFields c.globals = true) {path : KeyPath} {kept : η} {v : Value}
    (hv : (c.resolve host path kept).1 = .ok v) : v.lambdaFree = true := by
  rw [Context.resolve] at hv
  split at hv
  · rename_i w kept' hw
    cases hv
    replace hw := congrArg Prod.fst hw
    rw [Context.lookup] at hw
    split at hw
    · exact hframes v (List.mem_of_mem_head? hw)
    · split at hw
      · rename_i u kept₁ hu
        exact lambdaFree_follow hhost (lambdaFree_search hhost hframes (congrArg Prod.fst hu)) hw
      · split at hw
        · rename_i u hu
          exact lambdaFree_follow hhost (Value.lambdaFree_of_get? hglobals hu) hw
        · cases hw
  · split at hv
    · cases hv
    · cases hv
      rfl

/-- A context is free of lambdas when its values and those of the host are. -/
theorem lambdaFree_of_values {c : Context}
    (hframes : ∀ frame ∈ c.frames, frame.lambdaFree = true)
    (hglobals : Value.lambdaFreeFields c.globals = true) (kept : η) :
    c.LambdaFree host kept := by
  have hI : Scoped host fun c _ => (∀ frame ∈ c.frames, frame.lambdaFree = true) ∧
      Value.lambdaFreeFields c.globals = true :=
    { resolve := fun _ h => h
      push := fun h hv hmem _ => by
        refine ⟨fun frame hframe => ?_, h.2⟩
        rcases List.mem_cons.1 hframe with rfl | hframe
        · exact Value.lambdaFree_of_mem_frames (lambdaFree_resolve hhost h.1 h.2 hv) hmem
        · exact h.1 frame hframe
      pop := fun h _ => h
      enter := fun _ h => h }
  intro c' kept' path lambda hwithin hv
  obtain ⟨h₁, h₂⟩ := hwithin.of_scoped hI ⟨hframes, hglobals⟩
  cases lambdaFree_resolve hhost h₁ h₂ hv

end Lookups

end Mustache
