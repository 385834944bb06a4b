import Mathlib.Data.List.Forall2
import Mustache.Proofs.Render.Steps

/-!
# Mustache.Proofs.Render.Lookup

Lookups side by side, in contexts and with hosts that may differ.

A `ValueRelation` relates values that are told apart by calling them only: they have related parts,
and open related frames. If the records of two hosts answer with related values (`Host.Like`), then
looking up a path in contexts that hold related values gives related values
(`Context.Like.resolve`).
-/

namespace Mustache

variable {α β γ δ : Type}

/-- The same error, or results that are related. -/
inductive Matches (R : α → β → Prop) : Except Error α → Except Error β → Prop where
  | error (e : Error) : Matches R (.error e) (.error e)
  | ok {a b} : R a b → Matches R (.ok a) (.ok b)

theorem Matches.map {R : α → β → Prop} {R' : γ → δ → Prop} {x : Except Error α}
    {y : Except Error β} {f : α → γ} {g : β → δ} (h : Matches R x y)
    (hfg : ∀ {a b}, R a b → R' (f a) (g b)) : Matches R' (x.map f) (y.map g) := by
  cases h with
  | error e => exact .error e
  | ok hab => exact .ok (hfg hab)

theorem Matches.of_map {R : α → γ → Prop} {view : β → γ} {x : Except Error α}
    {y : Except Error β} {z : Except Error γ} (h : Matches R x z) (hz : y.map view = z) :
    Matches (fun a b => R a (view b)) x y := by
  subst hz
  cases y with
  | error e =>
    cases h with
    | error => exact .error e
  | ok b =>
    cases h with
    | ok hab => exact .ok hab

theorem Matches.refl {R : α → α → Prop} (h : ∀ a, R a a) (x : Except Error α) : Matches R x x := by
  cases x with
  | error e => exact .error e
  | ok a => exact .ok (h a)

theorem Matches.join {R : α → γ → Prop} {R' : β → γ → Prop} {S : α → β → Prop}
    {x : Except Error α} {y : Except Error β} {z : Except Error γ} (h : Matches R x z)
    (h' : Matches R' y z) (hjoin : ∀ {a b c}, R a c → R' b c → S a b) : Matches S x y := by
  cases h with
  | error e =>
    cases h' with
    | error => exact .error e
  | ok hac =>
    cases h' with
    | ok hbc => exact .ok (hjoin hac hbc)

theorem Matches.eq {x y : Except Error α} (h : Matches Eq x y) : x = y := by
  cases h with
  | error e => rfl
  | ok hab => rw [hab]

/-! ## Related values -/

namespace Value

def record? : Value → Option Record
  | .record r => some r
  | _ => none

def item? (value : Value) (key : String) : Option Value :=
  match value with
  | .map fields => Fields.get? fields key
  | .list items => (index? key).bind fun i => items[i]?
  | _ => none

end Value

/-- A relation of values that render to the same text as long as no lambda is called. -/
structure ValueRelation where
  holds : Value → Value → Prop
  null : holds .null .null
  record {v v' : Value} : holds v v' → v.record? = v'.record?
  item {v v' : Value} (key : String) : holds v v' → Option.Rel holds (v.item? key) (v'.item? key)
  frames {v v' : Value} : holds v v' → List.Forall₂ holds v.frames v'.frames
  truthy {v v' : Value} : holds v v' → v.isTruthy = v'.isTruthy
  interpolated {v v' : Value} : holds v v' → v.interpolated = v'.interpolated

theorem Option.rel_refl {R : α → α → Prop} (h : ∀ a, R a a) (x : Option α) :
    Option.Rel R x x := by
  cases x with
  | none => exact .none
  | some a => exact .some (h a)

def ValueRelation.same : ValueRelation where
  holds := Eq
  null := rfl
  record := congrArg _
  item := by
    rintro v _ key rfl
    exact Option.rel_refl (fun _ => rfl) _
  frames := by
    rintro v _ rfl
    exact List.forall₂_same.2 fun _ _ => rfl
  truthy := congrArg _
  interpolated := congrArg _

variable {η η' : Type} {V : ValueRelation} {K : η → η' → Prop} {host : Host η} {host' : Host η'}
  {s : η} {s' : η'}

/-! ## Hosts -/

/-- Related values, or none, and `K` true of what the hosts keep. -/
def Answers (V : ValueRelation) (K : η → η' → Prop) (x : Option Value × η)
    (y : Option Value × η') : Prop :=
  Option.Rel V.holds x.1 y.1 ∧ K x.2 y.2

/-- The records of the two hosts answer with related values, and keep `K` true. -/
structure Host.Like (host : Host η) (V : ValueRelation) (K : η → η' → Prop) (host' : Host η') :
    Prop where
  field {s : η} {s' : η'} (record : Record) (key : String) : K s s' →
    Answers V K (host.field record key s) (host'.field record key s')
  method {s : η} {s' : η'} (record : Record) (key : String) : K s s' →
    Answers V K (host.method record key s) (host'.method record key s')

theorem Answers.of_same {x : Option Value × η} {y : Option Value × η'}
    (h : Answers .same K x y) (hV : ∀ v, V.holds v v) : Answers V K x y := by
  obtain ⟨x, s⟩ := x
  obtain ⟨y, s'⟩ := y
  obtain ⟨rfl | _, hkept⟩ := h
  · exact ⟨.some (hV _), hkept⟩
  · exact ⟨.none, hkept⟩

theorem Answers.eq {x : Option Value × η} {y : Option Value × η'} (h : Answers .same K x y) :
    x.1 = y.1 := by
  obtain ⟨x, s⟩ := x
  obtain ⟨y, s'⟩ := y
  obtain ⟨rfl | _, -⟩ := h <;> rfl

theorem Host.Like.of_same (h : host.Like .same K host') (hV : ∀ v, V.holds v v) :
    host.Like V K host' where
  field record key hkept := (h.field record key hkept).of_same hV
  method record key hkept := (h.method record key hkept).of_same hV

/-- The host that carries something along, which its lambdas and records leave as it is. -/
def Host.lift (ι : Type) (host : Host η) : Host (η × ι) where
  call lambda text s :=
    let (value, kept) := host.call lambda text s.1
    (value, kept, s.2)
  field record key s :=
    let (found, kept) := host.field record key s.1
    (found, kept, s.2)
  method record key s :=
    let (found, kept) := host.method record key s.1
    (found, kept, s.2)
  stack := host.stack

theorem Host.like_lift {ι : Type} (host : Host η) (carried : ι) :
    host.Like .same (fun kept kept' => kept' = (kept, carried)) (host.lift ι) where
  field := by
    rintro s _ record key rfl
    exact ⟨Option.rel_refl (fun _ => rfl) _, rfl⟩
  method := by
    rintro s _ record key rfl
    exact ⟨Option.rel_refl (fun _ => rfl) _, rfl⟩

theorem Host.get_of_record? {v : Value} {key : String} {s : η} (h : v.record? = none) :
    host.get v key s = (v.item? key, s) := by
  cases v with
  | list items =>
    simp only [get, Value.item?]
    cases Value.index? key <;> rfl
  | record record => cases h
  | _ => rfl

theorem Host.invoke_of_record? {v : Value} {key : String} {s : η} (h : v.record? = none) :
    host.invoke v key s = (none, s) := by
  cases v with
  | record record => cases h
  | _ => rfl

theorem Answers.orElse {x : Option Value × η} {y : Option Value × η'}
    {next : η → Option Value × η} {next' : η' → Option Value × η'} : Answers V K x y →
    (∀ s s', K s s' → Answers V K (next s) (next' s')) →
    Answers V K
      (match x with
      | (some v, s) => (some v, s)
      | (none, s) => next s)
      (match y with
      | (some v, s) => (some v, s)
      | (none, s) => next' s) := by
  intro h hnext
  obtain ⟨x, s⟩ := x
  obtain ⟨y, s'⟩ := y
  obtain ⟨hrel, hkept⟩ := h
  cases hrel with
  | none => exact hnext s s' hkept
  | some hv => exact ⟨.some hv, hkept⟩

theorem Answers.andThen {x : Option Value × η} {y : Option Value × η'}
    {next : Value → η → Option Value × η} {next' : Value → η' → Option Value × η'} :
    Answers V K x y →
    (∀ v v' s s', V.holds v v' → K s s' → Answers V K (next v s) (next' v' s')) →
    Answers V K
      (match x with
      | (none, s) => (none, s)
      | (some v, s) => next v s)
      (match y with
      | (none, s) => (none, s)
      | (some v, s) => next' v s) := by
  intro h hnext
  obtain ⟨x, s⟩ := x
  obtain ⟨y, s'⟩ := y
  obtain ⟨hrel, hkept⟩ := h
  cases hrel with
  | none => exact ⟨.none, hkept⟩
  | some hv => exact hnext _ _ s s' hv hkept

namespace Host.Like

variable {v v' : Value} (h : host.Like V K host')
include h

theorem getOrCall (key : String) (hv : V.holds v v') (hkept : K s s') :
    Answers V K (host.getOrCall v key s) (host'.getOrCall v' key s') := by
  have hrecord := V.record hv
  cases hv' : v'.record? with
  | none =>
    rw [hv'] at hrecord
    refine Answers.orElse ?_ fun s s' hkept => ?_
    · rw [get_of_record? hrecord, get_of_record? hv']
      exact ⟨V.item key hv, hkept⟩
    · rw [invoke_of_record? hrecord, invoke_of_record? hv']
      exact ⟨.none, hkept⟩
  | some record =>
    have hshape : ∀ {v : Value}, v.record? = some record → v = .record record := by
      rintro ⟨⟩ ⟨⟩
      rfl
    obtain rfl := hshape (hrecord.trans hv')
    obtain rfl := hshape hv'
    exact Answers.orElse (h.field record key hkept) fun s s' => h.method record key

theorem follow (keys : List String) : ∀ {v v' : Value} {s : η} {s' : η'}, V.holds v v' → K s s' →
    Answers V K (host.follow v keys s) (host'.follow v' keys s') := by
  induction keys with
  | nil => exact fun hv hkept => ⟨.some hv, hkept⟩
  | cons key keys ih =>
    intro v v' s s' hv hkept
    exact Answers.andThen (h.getOrCall key hv hkept) fun _ _ _ _ => ih

theorem search (key : String) {frames frames' : List Value}
    (hframes : List.Forall₂ V.holds frames frames') : ∀ {s : η} {s' : η'}, K s s' →
    Answers V K (host.search key frames s) (host'.search key frames' s') := by
  induction hframes with
  | nil => exact fun hkept => ⟨.none, hkept⟩
  | cons hframe _ ih =>
    exact fun hkept => Answers.orElse (h.getOrCall key hframe hkept) fun _ _ => ih

end Host.Like

/-! ## Contexts -/

section Paths

variable {c c' : Context}

/-- What a path leads to, from what its first segment does on the stacks. -/
theorem Answers.lookup (hhost : host.Like V K host')
    (hglobals : ∀ key, Option.Rel V.holds (c.globals.get? key) (c'.globals.get? key))
    {path : KeyPath} {first : String} {rest : List String} (hpath : path.segments = first :: rest)
    (hfound : Answers V K (host.search first c.frames s) (host'.search first c'.frames s')) :
    Answers V K (c.lookup host path s) (c'.lookup host' path s') := by
  rw [Context.lookup, Context.lookup, hpath]
  dsimp only
  rcases hx : host.search first c.frames s with ⟨_ | v, s₁⟩ <;>
    rcases hy : host'.search first c'.frames s' with ⟨_ | v', s₁'⟩ <;> rw [hx, hy] at hfound <;>
    obtain ⟨hv | _, hkept₁⟩ := hfound
  · -- no frame answers
    dsimp only
    have hglobal := hglobals first
    revert hglobal
    generalize c.globals.get? first = x
    generalize c'.globals.get? first = y
    rintro (hv | _)
    · exact hhost.follow rest hv hkept₁
    · exact ⟨.none, hkept₁⟩
  · exact hhost.follow rest hv hkept₁

theorem Answers.resolve {path : KeyPath}
    (hfound : Answers V K (c.lookup host path s) (c'.lookup host' path s'))
    (hraise : c.raiseOnMiss = c'.raiseOnMiss) :
    Matches V.holds (c.resolve host path s).1 (c'.resolve host' path s').1 ∧
      K (c.resolve host path s).2 (c'.resolve host' path s').2 := by
  rw [Context.resolve, Context.resolve, hraise]
  rcases hx : c.lookup host path s with ⟨_ | v, s₁⟩ <;>
    rcases hy : c'.lookup host' path s' with ⟨_ | v', s₁'⟩ <;> rw [hx, hy] at hfound <;>
    obtain ⟨hv | _, hkept₁⟩ := hfound
  · refine ⟨?_, hkept₁⟩
    dsimp only
    split
    · exact .error _
    · exact .ok V.null
  · exact ⟨.ok hv, hkept₁⟩

end Paths

/-- The contexts hold related values in the same places. -/
structure Context.Like (c : Context) (V : ValueRelation) (c' : Context) : Prop where
  globals (key : String) : Option.Rel V.holds (c.globals.get? key) (c'.globals.get? key)
  frames : List.Forall₂ V.holds c.frames c'.frames

namespace Context.Like

variable {c c' : Context}

theorem of_eq (hglobals : c.globals = c'.globals) (hframes : c.frames = c'.frames) :
    c.Like .same c' where
  globals _ := hglobals ▸ Option.rel_refl (fun _ => rfl) _
  frames := hframes ▸ List.forall₂_same.2 fun _ _ => rfl

theorem lookup (hhost : host.Like V K host') (h : c.Like V c') (path : KeyPath)
    (hkept : K s s') : Answers V K (c.lookup host path s) (c'.lookup host' path s') := by
  cases hpath : path.segments with
  | nil =>
    rw [Context.lookup, Context.lookup, hpath]
    refine ⟨?_, hkept⟩
    have hframes := h.frames
    rw [current, current]
    generalize c.frames = frames at hframes
    generalize c'.frames = frames' at hframes
    cases hframes with
    | nil => exact .none
    | cons hframe _ => exact .some hframe
  | cons first rest =>
    exact (hhost.search first h.frames hkept).lookup hhost h.globals hpath

theorem resolve (hhost : host.Like V K host') (h : c.Like V c')
    (hraise : c.raiseOnMiss = c'.raiseOnMiss) (path : KeyPath) (hkept : K s s') :
    Matches V.holds (c.resolve host path s).1 (c'.resolve host' path s').1 ∧
      K (c.resolve host path s).2 (c'.resolve host' path s').2 :=
  (h.lookup hhost path hkept).resolve hraise

end Context.Like

end Mustache
