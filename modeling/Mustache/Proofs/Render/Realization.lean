import Mustache.Template.Render

/-!
# Mustache.Proofs.Render.Realization

When a step of rendering does what a meaning says.

A `Meaning` is an answer against a scope that is passed to it: it reads and changes nothing but
what the host keeps. `Meaning.Keeps` says what is true of that after an answer. `Realizes` says
that a step of rendering, in a scene with that scope, gives the same answer, makes the same uses
of the host, and leaves the scope as it was, apart from failures that are excused on the one side
and allowed on the other. Both are closed under the ways in which steps are put together, so that
what holds of single steps holds of whole renderings.
-/

namespace Mustache

variable {η σ α β γ δ : Type}

theorem bind_apply {S : Type} (m : ExceptT Error (StateM S) α)
    (f : α → ExceptT Error (StateM S) β) (s : S) :
    (m >>= f) s =
      match m s with
      | (.ok a, s') => f a s'
      | (.error e, s') => (.error e, s') := by
  show (match m s with | (a, s') => ExceptT.bindCont f a s') = _
  rcases m s with ⟨_ | a, s'⟩ <;> rfl

/-- An answer, and what the host keeps afterwards. -/
abbrev Meaning (η α : Type) := ExceptT Error (StateM η) α

namespace Meaning

def ofExcept (answer : Except Error α) : Meaning η α := fun kept => (answer, kept)

def concat (text : β → Meaning η String) : List β → Meaning η String
  | [] => pure ""
  | item :: items => do
    let first ← text item
    let rest ← concat text items
    pure (first ++ rest)

/-- `P` is true of what the host keeps once `f` has given an answer. -/
def Keeps (P : η → Prop) (f : Meaning η α) (kept : η) : Prop :=
  ∀ a kept', f kept = (.ok a, kept') → P kept'

section Keeps

variable {P : η → Prop} {kept : η}

theorem Keeps.pure {a : α} (h : P kept) : Keeps P (pure a : Meaning η α) kept := by
  rintro a' kept' ⟨⟩
  exact h

theorem Keeps.ofExcept {answer : Except Error α} (h : P kept) :
    Keeps P (ofExcept answer) kept := by
  rintro a' kept' ⟨⟩
  exact h

theorem Keeps.throw {e : Error} : Keeps P (throw e : Meaning η α) kept := by
  rintro a' kept' ⟨⟩

theorem Keeps.bind {f : Meaning η α} {g : α → Meaning η β} (h : Keeps P f kept)
    (h' : ∀ a kept', f kept = (.ok a, kept') → P kept' → Keeps P (g a) kept') :
    Keeps P (f >>= g) kept := by
  intro b kept' hg
  rw [bind_apply] at hg
  rcases hf : f kept with ⟨e | a, kept₁⟩ <;> rw [hf] at hg
  · cases hg
  · exact h' a kept₁ hf (h a kept₁ hf) b kept' hg

theorem Keeps.imp {Q : η → Prop} {f : Meaning η α} (h : Keeps P f kept)
    (hpq : ∀ kept', P kept' → Q kept') : Keeps Q f kept :=
  fun a kept' hf => hpq kept' (h a kept' hf)

theorem Keeps.concat {f : β → Meaning η String} {items : List β}
    (h : ∀ item ∈ items, ∀ kept, P kept → Keeps P (f item) kept) :
    ∀ {kept}, P kept → Keeps P (Meaning.concat f items) kept := by
  induction items with
  | nil => exact fun hkept => .pure hkept
  | cons item items ih =>
    intro kept hkept
    refine (h item List.mem_cons_self kept hkept).bind fun _ kept' _ hkept' => ?_
    refine (ih (fun item' hmem => h item' (List.mem_cons_of_mem _ hmem)) hkept').bind ?_
    exact fun _ _ _ hkept'' => .pure hkept''

end Keeps

end Meaning

section Realizes

/-- From the scope `c`, where the host keeps `kept`, the step `m` gives what `f` means, the
answers being related by `R`, unless `f` fails in a way that is excused or `m` in a way that is
allowed. `Ready` is what the step asks of the store and keeps true of it. -/
def Realizes (Excused Allowed : Error → Prop) (Ready : σ → Prop) (R : α → β → Prop)
    (m : Render η σ α) (f : Meaning η β) (c : Context) (kept : η) : Prop :=
  (∃ e kept', f kept = (.error e, kept') ∧ Excused e) ∨
  ∀ store, Ready store →
    (∃ e scene, m ⟨c, kept, store⟩ = (.error e, scene) ∧ Allowed e) ∨
    ∃ store', Ready store' ∧
      match f kept with
      | (.error e, kept') => m ⟨c, kept, store⟩ = (.error e, ⟨c, kept', store'⟩)
      | (.ok b, kept') => ∃ a, R a b ∧ m ⟨c, kept, store⟩ = (.ok a, ⟨c, kept', store'⟩)

variable {Excused Allowed : Error → Prop} {Ready : σ → Prop} {R : α → β → Prop}
  {S : γ → δ → Prop} {c : Context} {kept : η}

theorem Realizes.pure {a : α} {b : β} (h : R a b) :
    Realizes Excused Allowed Ready R (pure a : Render η σ α) (pure b) c kept :=
  .inr fun store hstore => .inr ⟨store, hstore, a, h, rfl⟩

/-- Where nothing is excused or allowed, the answer is the same, and the scope is as it was. -/
theorem Realizes.eq {m : Render η σ α} {f : Meaning η α}
    (h : Realizes Excused (fun _ => False) Ready Eq m f c kept) :
    (∃ e kept', f kept = (.error e, kept') ∧ Excused e) ∨
    ∀ store, Ready store → ∃ store', Ready store' ∧
      m ⟨c, kept, store⟩ = ((f kept).1, ⟨c, (f kept).2, store'⟩) := by
  refine h.imp_right fun h store hstore => ?_
  obtain ⟨_, _, _, hfalse⟩ | ⟨store', hstore', hm⟩ := h store hstore
  · exact hfalse.elim
  refine ⟨store', hstore', ?_⟩
  rcases hf : f kept with ⟨e | b, kept'⟩ <;> rw [hf] at hm
  · exact hm
  · obtain ⟨_, rfl, hm⟩ := hm
    exact hm

/-- Where the step gives an answer, it is what is meant, unless that fails and is excused. -/
theorem Realizes.eq_or_of_ok {m : Render η σ α} {f : Meaning η α}
    (h : Realizes Excused Allowed Ready Eq m f c kept) {store : σ} (hstore : Ready store) {a : α}
    (hm : (m ⟨c, kept, store⟩).1 = .ok a) :
    (∃ e, (f kept).1 = .error e ∧ Excused e) ∨ (f kept).1 = .ok a := by
  obtain ⟨e, kept', hfails, hexcused⟩ | h := h
  · exact .inl ⟨e, congrArg Prod.fst hfails, hexcused⟩
  obtain ⟨e, scene, hfails, -⟩ | ⟨store', -, hgives⟩ := h store hstore
  · rw [hfails] at hm
    cases hm
  rcases hanswer : f kept with ⟨e | b, kept'⟩ <;> rw [hanswer] at hgives
  · rw [hgives] at hm
    cases hm
  · obtain ⟨_, rfl, hgives⟩ := hgives
    rw [hgives] at hm
    exact .inr hm

theorem Realizes.eq_of_ok {m : Render η σ α} {f : Meaning η α}
    (h : Realizes Excused Allowed Ready Eq m f c kept) {store : σ} (hstore : Ready store)
    {a b : α} (hm : (m ⟨c, kept, store⟩).1 = .ok a) (hf : (f kept).1 = .ok b) : a = b := by
  obtain ⟨e, hfails, -⟩ | hsame := h.eq_or_of_ok hstore hm
  · cases hfails.symm.trans hf
  · exact Except.ok.inj (hsame.symm.trans hf)

theorem Realizes.throw (e : Error) :
    Realizes Excused Allowed Ready R (throw e : Render η σ α) (throw e) c kept :=
  .inr fun store hstore => .inr ⟨store, hstore, rfl⟩

theorem Realizes.of_fails {m : Render η σ α} {f : Meaning η β}
    (h : ∀ store, ∃ e scene, m ⟨c, kept, store⟩ = (.error e, scene) ∧ Allowed e) :
    Realizes Excused Allowed Ready R m f c kept :=
  .inr fun store _ => .inl (h store)

theorem Realizes.bind {m : Render η σ α} {f : Meaning η β} {m' : α → Render η σ γ}
    {f' : β → Meaning η δ} (h : Realizes Excused Allowed Ready R m f c kept)
    (h' : ∀ a b kept', f kept = (.ok b, kept') → R a b →
      Realizes Excused Allowed Ready S (m' a) (f' b) c kept') :
    Realizes Excused Allowed Ready S (m >>= m') (f >>= f') c kept := by
  rcases h with ⟨e, kept', hf, he⟩ | h
  · exact .inl ⟨e, kept', by rw [bind_apply, hf], he⟩
  rcases hf : f kept with ⟨e | b, kept'⟩
  · refine .inr fun store hstore => ?_
    obtain ⟨e', scene, hm, he'⟩ | ⟨store', hstore', hm⟩ := h store hstore
    · exact .inl ⟨e', scene, by rw [bind_apply, hm], he'⟩
    rw [hf] at hm
    refine .inr ⟨store', hstore', ?_⟩
    rw [bind_apply, bind_apply, hf, hm]
  · by_cases hexcused : ∃ e kept'', f' b kept' = (.error e, kept'') ∧ Excused e
    · obtain ⟨e, kept'', hf', he⟩ := hexcused
      exact .inl ⟨e, kept'', by rw [bind_apply, hf]; exact hf', he⟩
    refine .inr fun store hstore => ?_
    obtain ⟨e, scene, hm, he⟩ | ⟨store', hstore', hm⟩ := h store hstore
    · exact .inl ⟨e, scene, by rw [bind_apply, hm], he⟩
    rw [hf] at hm
    obtain ⟨a, hab, hm⟩ := hm
    obtain ⟨e, scene, hm', he⟩ | ⟨store'', hstore'', hm'⟩ :=
      (h' a b kept' hf hab).resolve_left hexcused store' hstore'
    · exact .inl ⟨e, scene, by rw [bind_apply, hm]; exact hm', he⟩
    refine .inr ⟨store'', hstore'', ?_⟩
    rw [bind_apply, bind_apply, hf, hm]
    exact hm'

theorem Realizes.append {m m' : Render η σ String} {f f' : Meaning η String}
    (h : Realizes Excused Allowed Ready Eq m f c kept)
    (h' : ∀ b kept', f kept = (.ok b, kept') → Realizes Excused Allowed Ready Eq m' f' c kept') :
    Realizes Excused Allowed Ready Eq
      (do
        let first ← m
        let rest ← m'
        Pure.pure (first ++ rest))
      (do
        let first ← f
        let rest ← f'
        Pure.pure (first ++ rest)) c kept := by
  refine h.bind fun first _ kept₁ hf hfirst => ?_
  subst hfirst
  refine (h' first kept₁ hf).bind fun rest _ _ _ hrest => ?_
  subst hrest
  exact .pure rfl

theorem Realizes.empty_append {m : Render η σ String} {f : Meaning η String}
    (h : Realizes Excused Allowed Ready Eq m f c kept) :
    Realizes Excused Allowed Ready Eq m
      (do
        let first ← (Pure.pure "" : Meaning η String)
        let rest ← f
        Pure.pure (first ++ rest)) c kept := by
  simp only [pure_bind, String.empty_append, bind_pure]
  exact h

theorem Realizes.withFrame {v : Value} {m : Render η σ String} {f : Meaning η String}
    (h : Realizes Excused Allowed Ready Eq m f (c.push v) kept) :
    Realizes Excused Allowed Ready Eq (Renderer.withFrame v m) f c kept := by
  refine h.imp_right fun h store hstore => (h store hstore).imp ?_ ?_
  · rintro ⟨e, scene, hm, he⟩
    exact ⟨e, { scene with context := scene.context.pop }, by simp only [Renderer.withFrame, hm],
      he⟩
  rintro ⟨store', hstore', hm⟩
  refine ⟨store', hstore', ?_⟩
  rcases hf : f kept with ⟨e | b, kept'⟩ <;> rw [hf] at hm
  · simp only [Renderer.withFrame, hm]
    rfl
  · obtain ⟨_, rfl, hm⟩ := hm
    refine ⟨_, rfl, ?_⟩
    simp only [Renderer.withFrame, hm]
    rfl

theorem Realizes.insidePartial {name : String} {m : Render η σ String} {f : Meaning η String}
    (hdepth : c.partialDepth < maxPartialDepth)
    (h : Realizes Excused Allowed Ready Eq m f { c with partialDepth := c.partialDepth + 1 } kept) :
    Realizes Excused Allowed Ready Eq (Renderer.insidePartial name m) f c kept := by
  refine h.imp_right fun h store hstore => (h store hstore).imp ?_ ?_
  · rintro ⟨e, scene, hm, he⟩
    refine ⟨e, { scene with context :=
      { scene.context with partialDepth := scene.context.partialDepth - 1 } }, ?_, he⟩
    simp only [Renderer.insidePartial, if_pos hdepth, hm]
  rintro ⟨store', hstore', hm⟩
  refine ⟨store', hstore', ?_⟩
  rcases hf : f kept with ⟨e | b, kept'⟩ <;> rw [hf] at hm
  · simp only [Renderer.insidePartial, if_pos hdepth, hm]
    rfl
  · obtain ⟨_, rfl, hm⟩ := hm
    refine ⟨_, rfl, ?_⟩
    simp only [Renderer.insidePartial, if_pos hdepth, hm]
    rfl

theorem Realizes.insidePartial_throw {name : String} {m : Render η σ String}
    (hdepth : ¬ c.partialDepth < maxPartialDepth) :
    Realizes Excused Allowed Ready Eq (Renderer.insidePartial name m)
      (MonadExcept.throw (.partialRecursion name maxPartialDepth)) c kept := by
  refine .inr fun store hstore => .inr ⟨store, hstore, ?_⟩
  simp only [Renderer.insidePartial, if_neg hdepth]
  rfl

/-- Rendering once for each item; `P` is what the host is known to keep between two of them. -/
theorem Realizes.eachFrame {m : Render η σ String} {f : Value → Meaning η String}
    {P : η → Prop} {items : List Value}
    (h : ∀ item ∈ items, ∀ kept, P kept →
      Realizes Excused Allowed Ready Eq m (f item) (c.push item) kept ∧
        Meaning.Keeps P (f item) kept) :
    ∀ {kept}, P kept →
      Realizes Excused Allowed Ready Eq (Renderer.eachFrame m items) (Meaning.concat f items) c
        kept := by
  induction items with
  | nil => exact fun _ => .pure rfl
  | cons item items ih =>
    intro kept hkept
    rw [Renderer.eachFrame, Meaning.concat]
    obtain ⟨hitem, hnext⟩ := h item List.mem_cons_self kept hkept
    refine hitem.withFrame.append fun t kept' hf => ?_
    exact ih (fun item' hmem => h item' (List.mem_cons_of_mem _ hmem)) (hnext t kept' hf)

end Realizes

end Mustache
