import Mustache.Proofs.Engine.Requests

/-!
# Mustache.Proofs.Engine.Session

Any number of engines at work on the same files.

A `Session` goes on by events: an engine is created, a partial is registered, an engine is asked for
something, or files are changed from outside. Two sessions are followed event by event. What relates
them is a `Coupling`, and what one event does to related sessions (`Coupling.Lasting.step`) is
carried through whole runs (`Coupling.Lasting.run`).
-/

namespace Mustache

variable {η : Type}

/-! ## Sessions -/

structure Session (η : Type) where
  /-- Each engine with its cache, the one that was created first at the front. -/
  engines : List (Engine × Cache)
  files : Files
  kept : η

inductive Event where
  | create (options : Options)
  | addPartial (engine : Nat) (name source : String)
  | ask (engine : Nat) (request : Request)
  /-- Files are changed from outside, except those in the directory of the cache. -/
  | edit (files : Files)

/-- The same event, where engines are created without a cache. -/
def Event.withoutCache : Event → Event
  | .create options => .create options.withoutCache
  | event => event

namespace Session

def start (files : Files) (kept : η) : Session η := ⟨[], files, kept⟩

def create (s : Session η) (options : Options) : Outcome × Session η :=
  match Engine.create options s.files with
  | .error error => (.done (.error error), s)
  | .ok (e, store) =>
    (.done (.ok ()), ⟨s.engines ++ [(e, store.cache)], store.files, s.kept⟩)

def addPartial (s : Session η) (engine : Nat) (name source : String) : Outcome × Session η :=
  match s.engines[engine]? with
  | none => (.done (.ok ()), s)
  | some (e, cache) =>
    let (e, store) := e.addPartial ⟨cache, s.files⟩ name source
    (.done (.ok ()), ⟨s.engines.set engine (e, store.cache), store.files, s.kept⟩)

def ask (host : Host η) (s : Session η) (engine : Nat) (request : Request) :
    Outcome × Session η :=
  match s.engines[engine]? with
  | none => (.done (.ok ()), s)
  | some (e, cache) =>
    let (outcome, kept, store) := e.answer host request s.kept ⟨cache, s.files⟩
    (outcome, ⟨s.engines.set engine (e, store.cache), store.files, kept⟩)

/-- One event, where `d` is the place of the directory of the cache. -/
def step (d : Place) (host : Host η) (s : Session η) : Event → Outcome × Session η
  | .create options => s.create options
  | .addPartial engine name source => s.addPartial engine name source
  | .ask engine request => s.ask host engine request
  | .edit files => (.done (.ok ()), { s with files := s.files.edit d files })

def run (d : Place) (host : Host η) : Session η → List Event → List Outcome × Session η
  | s, [] => ([], s)
  | s, event :: events =>
    let (outcome, s) := s.step d host event
    let (outcomes, s) := run d host s events
    (outcome :: outcomes, s)

variable {d : Place} {host : Host η} {known : String → Prop}

theorem strays_step {s : Session (η × List String)} (event : Event) (h : Strays known s.kept) :
    Strays known (s.step d host.logging event).2.kept := by
  cases event with
  | create options =>
    rw [step, create]
    split <;> exact h
  | addPartial engine name source =>
    rw [step, addPartial]
    split <;> exact h
  | ask engine request =>
    rw [step, ask]
    split
    · exact h
    · exact Engine.strays_answer request _ h
  | edit files => exact h

theorem strays_run {s : Session (η × List String)} (events : List Event)
    (h : Strays known s.kept) : Strays known (s.run d host.logging events).2.kept := by
  induction events generalizing s with
  | nil => exact h
  | cons event events ih => exact ih (strays_step event h)

end Session

/-! ## Two sessions -/

/-- What relates two sessions: what is known to both, and how their files and engines compare. -/
structure Coupling where
  known : String → Prop
  reached : Path → Prop
  files : Files → Files → Prop
  slots : Engine × Cache → Engine × Cache → Prop

namespace Coupling

variable (q : Coupling) (d : Place)

/-- Engines that are related answer alike and stay related. -/
structure Lasting : Prop where
  alike {e e' c c' files files'} : q.slots (e, c) (e', c') → q.files files files' →
    ∃ stores : Store → Store → Prop, Engine.Alike stores q.known q.reached e e' ∧
      stores ⟨c, files⟩ ⟨c', files'⟩ ∧ ∀ {store store'}, stores store store' →
        q.slots (e, store.cache) (e', store'.cache) ∧ q.files store.files store'.files
  addPartial {e e' c c' files files' source} (name : String) : q.slots (e, c) (e', c') →
    q.files files files' → q.known source →
    let result := e.addPartial ⟨c, files⟩ name source
    let result' := e'.addPartial ⟨c', files'⟩ name source
    q.slots (result.1, result.2.cache) (result'.1, result'.2.cache) ∧
      q.files result.2.files result'.2.files

/-- The events keep sessions related. -/
inductive Takes : Event → Event → Prop where
  | create {options options'} : (∀ {files files'}, q.files files files' →
      Matches (fun result result' =>
          q.slots (result.1, result.2.cache) (result'.1, result'.2.cache) ∧
            q.files result.2.files result'.2.files)
        (Engine.create options files) (Engine.create options' files')) →
      Takes (.create options) (.create options')
  | addPartial {engine name source} : q.known source →
      Takes (.addPartial engine name source) (.addPartial engine name source)
  | ask {engine request} : request.Within q.known q.reached →
      Takes (.ask engine request) (.ask engine request)
  | edit {other} : (∀ {files files'}, q.files files files' →
      q.files (files.edit d other) (files'.edit d other)) → Takes (.edit other) (.edit other)

structure Relates (s : Session η) (s' : Session (η × List String)) : Prop where
  engines : List.Forall₂ q.slots s.engines s'.engines
  files : q.files s.files s'.files
  kept : s'.kept.1 = s.kept

variable {q : Coupling} {d : Place} {host : Host η} {s : Session η} {s' : Session (η × List String)}

theorem forall₂_getElem? {α β : Type} {R : α → β → Prop} {as : List α} {bs : List β}
    (h : List.Forall₂ R as bs) (i : Nat) :
    (as[i]? = none ∧ bs[i]? = none) ∨ ∃ a b, as[i]? = some a ∧ bs[i]? = some b ∧ R a b := by
  induction h generalizing i with
  | nil => exact .inl ⟨rfl, rfl⟩
  | cons hab _ ih =>
    cases i with
    | zero => exact .inr ⟨_, _, rfl, rfl, hab⟩
    | succ i => exact ih i

theorem forall₂_set {α β : Type} {R : α → β → Prop} {as : List α} {bs : List β} {a : α} {b : β}
    (h : List.Forall₂ R as bs) (hab : R a b) (i : Nat) :
    List.Forall₂ R (as.set i a) (bs.set i b) := by
  induction h generalizing i with
  | nil => exact .nil
  | cons hhead htail ih =>
    cases i with
    | zero => exact .cons hab htail
    | succ i => exact .cons hhead (ih i)

theorem Relates.create (h : q.Relates s s') {options options' : Options}
    (hcreate : Matches (fun result result' =>
        q.slots (result.1, result.2.cache) (result'.1, result'.2.cache) ∧
          q.files result.2.files result'.2.files)
      (Engine.create options s.files) (Engine.create options' s'.files)) :
    (s.create options).1.Same (s'.create options').1 ∧
      q.Relates (s.create options).2 (s'.create options').2 := by
  rw [Session.create, Session.create]
  generalize Engine.create options s.files = result at hcreate ⊢
  generalize Engine.create options' s'.files = result' at hcreate ⊢
  cases hcreate with
  | error error => exact ⟨.done _, h⟩
  | ok hrelated =>
    obtain ⟨hslots, hfiles⟩ := hrelated
    exact ⟨.done _, List.rel_append h.engines (.cons hslots .nil), hfiles, h.kept⟩

theorem Lasting.relates_addPartial (hq : q.Lasting) (h : q.Relates s s') (engine : Nat)
    (name : String) {source : String} (hknown : q.known source) :
    (s.addPartial engine name source).1.Same (s'.addPartial engine name source).1 ∧
      q.Relates (s.addPartial engine name source).2 (s'.addPartial engine name source).2 := by
  rw [Session.addPartial, Session.addPartial]
  rcases forall₂_getElem? h.engines engine with
    ⟨hnone, hnone'⟩ | ⟨slot, slot', hslot, hslot', hslots⟩
  · rw [hnone, hnone']
    exact ⟨.done _, h⟩
  · rw [hslot, hslot']
    obtain ⟨hslots', hfiles⟩ := hq.addPartial name hslots h.files hknown
    exact ⟨.done _, forall₂_set h.engines hslots' engine, hfiles, h.kept⟩

theorem Lasting.relates_ask (hq : q.Lasting) (h : q.Relates s s') (engine : Nat)
    {request : Request} (hrequest : request.Within q.known q.reached) :
    Strays q.known (s'.ask host.logging engine request).2.kept ∨
      (s.ask host engine request).1.Same (s'.ask host.logging engine request).1 ∧
        q.Relates (s.ask host engine request).2 (s'.ask host.logging engine request).2 := by
  rw [Session.ask, Session.ask]
  rcases forall₂_getElem? h.engines engine with
    ⟨hnone, hnone'⟩ | ⟨⟨e, c⟩, ⟨e', c'⟩, hslot, hslot', hslots⟩
  · rw [hnone, hnone']
    exact .inr ⟨.done _, h⟩
  · rw [hslot, hslot']
    obtain ⟨stores, halike, hstores, hback⟩ := hq.alike hslots h.files
    have hkept : s'.kept = (s.kept, s'.kept.2) := Prod.ext h.kept rfl
    dsimp only
    rw [hkept]
    refine (halike.answer host hrequest s.kept s'.kept.2 hstores).imp_right ?_
    rintro ⟨hsame, hkept', hstores'⟩
    obtain ⟨hslots', hfiles⟩ := hback hstores'
    exact ⟨hsame, forall₂_set h.engines hslots' engine, hfiles, hkept'⟩

/-- One event has the same outcome in both sessions and leaves them related, unless the record
strays. -/
theorem Lasting.step (hq : q.Lasting) (h : q.Relates s s') {event event' : Event}
    (hevent : q.Takes d event event') :
    Strays q.known (s'.step d host.logging event').2.kept ∨
      (s.step d host event).1.Same (s'.step d host.logging event').1 ∧
        q.Relates (s.step d host event).2 (s'.step d host.logging event').2 := by
  cases hevent with
  | create hcreate => exact .inr (h.create (hcreate h.files))
  | addPartial hknown => exact .inr (hq.relates_addPartial h _ _ hknown)
  | ask hrequest => exact hq.relates_ask h _ hrequest
  | edit hedit => exact .inr ⟨.done _, h.engines, hedit h.files, h.kept⟩

theorem Lasting.run (hq : q.Lasting) {events events' : List Event}
    (hevents : List.Forall₂ (q.Takes d) events events') : ∀ {s : Session η}
    {s' : Session (η × List String)}, q.Relates s s' →
    Strays q.known (s'.run d host.logging events').2.kept ∨
      List.Forall₂ Outcome.Same (s.run d host events).1 (s'.run d host.logging events').1 := by
  induction hevents with
  | nil => exact fun _ => .inr .nil
  | cons hevent _ ih =>
    intro s s' h
    rcases hq.step h hevent with hstrays | ⟨hsame, h'⟩
    · exact .inl (Session.strays_run (s := (s'.step d host.logging _).2) _ hstrays)
    · exact (ih h').imp_right (.cons hsame)

end Coupling

end Mustache
