import Mustache.Proofs.Cache.Directory

/-!
# Mustache.Proofs.Cache.Fetching

What a fetch can come to, and runs of calls on a cache.

`Cache.Fetches` has a case for each way in which a fetch can end, with all that it leaves behind;
`Cache.fetches` says that there are no others, so that what holds of all fetches is proved by these
cases. `Cache.run` makes calls one after the other. Before each of them the files may be changed in
any way, so that nothing of what the directory holds is taken for granted.
-/

namespace Mustache

namespace Cache

theorem mem_of_inMemory? {c : Cache} {fingerprint : Fingerprint} {shared : SharedTemplate}
    (h : c.inMemory? fingerprint = some shared) :
    ∃ saved, (saved, shared) ∈ c.stored ∧ saved == fingerprint := by
  rw [inMemory?] at h
  split at h
  · rename_i saved shared' hfind
    cases h
    have hsaved := List.find?_some hfind
    exact ⟨saved, List.mem_of_find?_eq_some hfind, hsaved⟩
  · cases h

theorem inMemory?_of_stored {c : Cache} (h : c.stored = []) (fingerprint : Fingerprint) :
    c.inMemory? fingerprint = none := by
  rw [inMemory?, h]
  rfl

theorem inMemory?_remember (c : Cache) (saved : Fingerprint) (shared : SharedTemplate)
    (fingerprint : Fingerprint) :
    (c.remember saved shared).inMemory? fingerprint =
      if saved == fingerprint then some shared else c.inMemory? fingerprint := by
  rw [inMemory?, remember, List.find?_cons]
  by_cases hsame : saved == fingerprint
  · simp only [hsame, if_true]
  · simp only [hsame, Bool.false_eq_true, if_false]
    rw [List.find?_filter, inMemory?]
    have hkept : (fun e : Fingerprint × SharedTemplate =>
        decide ((!e.1 == saved) = true ∧ (e.1 == fingerprint) = true)) =
          fun e => e.1 == fingerprint := by
      funext e
      by_cases he : e.1 == fingerprint
      · have hother : ¬ e.1 == saved := fun hsaved =>
          hsame (PartialEquivBEq.trans (PartialEquivBEq.symm hsaved) he)
        simp [he, hother]
      · simp [he]
    rw [hkept]

/-! ## One fetch -/

section Fetch

variable (c : Cache) (files : Files) (fingerprint : Fingerprint)
  (isCurrent : Template → Except Error Bool)

/-- Memory holds nothing for the fingerprint, or what is no longer current. -/
def Lacks : Prop :=
  ∀ shared, c.inMemory? fingerprint = some shared → isCurrent shared.template = .ok false

/-- Neither memory nor the file for the fingerprint holds a template that is current. -/
structure Misses : Prop where
  enabled : c.mode ≠ .disabled
  memory : c.Lacks fingerprint isCurrent
  file {directory} : c.mode = .durable directory →
    ∃ found, load files (entryFile directory fingerprint) fingerprint = .ok found ∧
      ∀ t ∈ found, isCurrent t = .ok false

/-- The ways in which a fetch can end. -/
inductive Fetches (compile : Unit → Except Error Template) : Fetched → Prop where
  | uncached : c.mode = .disabled →
      Fetches compile ⟨(compile ()).map (⟨·, c.nextSerial⟩), true, c.countCompilation, files⟩
  | fromMemory {shared} : c.mode ≠ .disabled → c.inMemory? fingerprint = some shared →
      isCurrent shared.template = .ok true →
      Fetches compile ⟨.ok shared, false, c.countMemoryHit, files⟩
  | memoryUnchecked {shared error} : c.mode ≠ .disabled →
      c.inMemory? fingerprint = some shared → isCurrent shared.template = .error error →
      Fetches compile ⟨.error error, false, c, files⟩
  | fromFile {directory t} : c.mode = .durable directory → c.Lacks fingerprint isCurrent →
      load files (entryFile directory fingerprint) fingerprint = .ok (some t) →
      isCurrent t = .ok true →
      Fetches compile ⟨.ok ⟨t, c.nextSerial⟩, false,
        c.countDurableHit.remember fingerprint ⟨t, c.nextSerial⟩, files⟩
  | unreadable {directory error} : c.mode = .durable directory → c.Lacks fingerprint isCurrent →
      load files (entryFile directory fingerprint) fingerprint = .error error →
      Fetches compile ⟨.error error, false, c, files⟩
  | fileUnchecked {directory t error} : c.mode = .durable directory →
      c.Lacks fingerprint isCurrent →
      load files (entryFile directory fingerprint) fingerprint = .ok (some t) →
      isCurrent t = .error error →
      Fetches compile ⟨.error error, false, c, files⟩
  | failed {error} : c.Misses files fingerprint isCurrent → compile () = .error error →
      Fetches compile ⟨.error error, true, c, files⟩
  | compiled {t} : c.Misses files fingerprint isCurrent → c.mode = .memory → compile () = .ok t →
      Fetches compile ⟨.ok ⟨t, c.nextSerial⟩, true,
        c.countCompilation.remember fingerprint ⟨t, c.nextSerial⟩, files⟩
  | saved {directory t files'} : c.Misses files fingerprint isCurrent →
      c.mode = .durable directory → compile () = .ok t →
      save files (entryFile directory fingerprint) fingerprint t = .ok files' →
      Fetches compile ⟨.ok ⟨t, c.nextSerial⟩, true,
        c.countCompilation.remember fingerprint ⟨t, c.nextSerial⟩, files'⟩
  | unsaved {directory t error} : c.Misses files fingerprint isCurrent →
      c.mode = .durable directory → compile () = .ok t →
      save files (entryFile directory fingerprint) fingerprint t = .error error →
      Fetches compile ⟨.error error, true, c.countCompilation, files⟩

end Fetch

section Fetch

variable {c : Cache} {files : Files} {fingerprint : Fingerprint}
  {isCurrent : Template → Except Error Bool} {compile : Unit → Except Error Template}

theorem Misses.recompiles (h : c.Misses files fingerprint isCurrent) :
    c.Fetches files fingerprint isCurrent compile (c.recompile files fingerprint compile) := by
  rw [recompile]
  cases hcompile : compile () with
  | error error => exact .failed h hcompile
  | ok t =>
    dsimp only
    cases hmode : c.mode with
    | disabled => exact absurd hmode h.enabled
    | memory =>
      have hpath : c.countCompilation.entryPath fingerprint = none := by
        rw [entryPath, countCompilation, hmode]
      rw [hpath]
      exact .compiled h hmode hcompile
    | durable directory =>
      have hpath : c.countCompilation.entryPath fingerprint =
          some (entryFile directory fingerprint) := by
        rw [entryPath, countCompilation, hmode]
      rw [hpath]
      dsimp only
      cases hsave : save files (entryFile directory fingerprint) fingerprint t with
      | error error => exact .unsaved h hmode hcompile hsave
      | ok files' => exact .saved h hmode hcompile hsave

theorem Lacks.fetches (h : c.Lacks fingerprint isCurrent) (henabled : c.mode ≠ .disabled) :
    c.Fetches files fingerprint isCurrent compile
      (c.fetchDurable files fingerprint isCurrent compile) := by
  rw [fetchDurable, entryPath]
  cases hmode : c.mode with
  | disabled => exact absurd hmode henabled
  | memory =>
    have hmisses : c.Misses files fingerprint isCurrent :=
      ⟨henabled, h, fun hdurable => by rw [hmode] at hdurable; cases hdurable⟩
    exact hmisses.recompiles
  | durable directory =>
    have hmisses {found} (hload : load files (entryFile directory fingerprint) fingerprint =
        .ok found) (hfound : ∀ t ∈ found, isCurrent t = .ok false) :
        c.Misses files fingerprint isCurrent := by
      refine ⟨henabled, h, fun hdurable => ?_⟩
      obtain rfl : directory = _ := CacheMode.durable.inj (hmode.symm.trans hdurable)
      exact ⟨found, hload, hfound⟩
    dsimp only
    cases hload : load files (entryFile directory fingerprint) fingerprint with
    | error error => exact .unreadable hmode h hload
    | ok found =>
      cases found with
      | none => exact (hmisses hload (by simp)).recompiles
      | some t =>
        dsimp only
        cases hcurrent : isCurrent t with
        | error error => exact .fileUnchecked hmode h hload hcurrent
        | ok current =>
          cases current with
          | false =>
            refine (hmisses hload ?_).recompiles
            rintro _ ⟨⟩
            exact hcurrent
          | true => exact .fromFile hmode h hload hcurrent

theorem fetch_of_enabled (h : c.mode ≠ .disabled) :
    c.fetch files fingerprint isCurrent compile =
      match c.inMemory? fingerprint with
      | none => c.fetchDurable files fingerprint isCurrent compile
      | some shared =>
        match isCurrent shared.template with
        | .error error => ⟨.error error, false, c, files⟩
        | .ok false => c.fetchDurable files fingerprint isCurrent compile
        | .ok true => ⟨.ok shared, false, c.countMemoryHit, files⟩ := by
  rw [fetch]
  cases hmode : c.mode with
  | disabled => exact absurd hmode h
  | _ => rfl

theorem Lacks.fetch_eq (h : c.Lacks fingerprint isCurrent) (henabled : c.mode ≠ .disabled) :
    c.fetch files fingerprint isCurrent compile =
      c.fetchDurable files fingerprint isCurrent compile := by
  rw [fetch_of_enabled henabled]
  cases hmemory : c.inMemory? fingerprint with
  | none => rfl
  | some shared =>
    dsimp only
    rw [h shared hmemory]

theorem Misses.fetch_eq (h : c.Misses files fingerprint isCurrent) :
    c.fetch files fingerprint isCurrent compile = c.recompile files fingerprint compile := by
  rw [h.memory.fetch_eq h.enabled, fetchDurable, entryPath]
  cases hmode : c.mode with
  | durable directory =>
    obtain ⟨found, hload, hstale⟩ := h.file hmode
    dsimp only
    rw [hload]
    cases found with
    | none => rfl
    | some t =>
      dsimp only
      rw [hstale t rfl]
  | _ => rfl

theorem recompile_compiled : (c.recompile files fingerprint compile).compiled = true := by
  rw [recompile]
  split
  · rfl
  · dsimp only
    split
    · rfl
    · split <;> rfl

variable (c files fingerprint isCurrent compile) in
theorem fetches :
    c.Fetches files fingerprint isCurrent compile
      (c.fetch files fingerprint isCurrent compile) := by
  by_cases hmode : c.mode = .disabled
  · have hfetch : c.fetch files fingerprint isCurrent compile =
        ⟨(compile ()).map (⟨·, c.nextSerial⟩), true, c.countCompilation, files⟩ := by
      rw [fetch, hmode]
      cases compile () <;> rfl
    rw [hfetch]
    exact .uncached hmode
  · rw [fetch_of_enabled hmode]
    cases hmemory : c.inMemory? fingerprint with
    | none =>
      have hlacks : c.Lacks fingerprint isCurrent := fun shared hshared => by
        rw [hmemory] at hshared
        cases hshared
      exact hlacks.fetches hmode
    | some shared =>
      dsimp only
      cases hcurrent : isCurrent shared.template with
      | error error => exact .memoryUnchecked hmode hmemory hcurrent
      | ok current =>
        cases current with
        | false =>
          have hlacks : c.Lacks fingerprint isCurrent := fun shared' hshared => by
            rw [hmemory] at hshared
            exact Option.some.inj hshared ▸ hcurrent
          exact hlacks.fetches hmode
        | true => exact .fromMemory hmode hmemory hcurrent

/-- The only thing that a fetch puts into memory is what it answers, under its fingerprint. -/
theorem Fetches.stored {fetched : Fetched}
    (h : c.Fetches files fingerprint isCurrent compile fetched) :
    fetched.cache.stored = c.stored ∨
      ∃ shared, fetched.answer = .ok shared ∧
        fetched.cache.stored =
          (fingerprint, shared) :: c.stored.filter fun e => !(e.1 == fingerprint) := by
  cases h with
  | fromFile => exact .inr ⟨_, rfl, rfl⟩
  | compiled => exact .inr ⟨_, rfl, rfl⟩
  | saved => exact .inr ⟨_, rfl, rfl⟩
  | _ => exact .inl rfl

theorem Fetches.mode {fetched : Fetched}
    (h : c.Fetches files fingerprint isCurrent compile fetched) : fetched.cache.mode = c.mode := by
  cases h <;> rfl

end Fetch

theorem clear_cache (c : Cache) (files : Files) : (c.clear files).2.1 = c.clearMemory := by
  rw [clear]
  split
  · split <;> rfl
  · rfl

/-! ## Runs -/

inductive Call where
  | fetch (fingerprint : Fingerprint) (isCurrent : Template → Except Error Bool)
      (compile : Unit → Except Error Template)
  | clear
  | clearMemory

/-- What there is to know of a call that was made. -/
inductive Past where
  | fetched (fingerprint : Fingerprint) (answer : Except Error SharedTemplate)
  | cleared

def make (c : Cache) (files : Files) : Call → Past × Cache × Files
  | .fetch fingerprint isCurrent compile =>
    let fetched := c.fetch files fingerprint isCurrent compile
    (.fetched fingerprint fetched.answer, fetched.cache, fetched.files)
  | .clear => (.cleared, (c.clear files).2)
  | .clearMemory => (.cleared, c.clearMemory, files)

/-- Calls one after the other, each with a change that the files go through before it. -/
def run : Cache → Files → List ((Files → Files) × Call) → List Past × Cache × Files
  | c, files, [] => ([], c, files)
  | c, files, (change, call) :: calls =>
    let (past, c, files) := c.make (change files) call
    let (more, c, files) := c.run files calls
    (past :: more, c, files)

theorem make_mode (c : Cache) (files : Files) (call : Call) :
    (c.make files call).2.1.mode = c.mode := by
  cases call with
  | fetch fingerprint isCurrent compile =>
    exact (c.fetches files fingerprint isCurrent compile).mode
  | clear =>
    show (c.clear files).2.1.mode = _
    rw [clear_cache]
    rfl
  | clearMemory => rfl

theorem run_mode (c : Cache) (files : Files) (calls : List ((Files → Files) × Call)) :
    (c.run files calls).2.1.mode = c.mode := by
  induction calls generalizing c files with
  | nil => rfl
  | cons call calls ih => exact (ih _ _).trans (c.make_mode _ _)

/-- What is in memory was answered by an earlier fetch for the same fingerprint, and not forgotten
since. -/
def Remembers (past : List Past) (c : Cache) : Prop :=
  ∀ e ∈ c.stored, ∃ earlier later,
    past = earlier ++ .fetched e.1 (.ok e.2) :: later ∧ Past.cleared ∉ later

theorem Remembers.fetched {past : List Past} {c : Cache} (h : Remembers past c)
    {answer : Except Error SharedTemplate} {fingerprint : Fingerprint} {e}
    (he : e ∈ c.stored) : ∃ earlier later,
      past ++ [.fetched fingerprint answer] = earlier ++ .fetched e.1 (.ok e.2) :: later ∧
        Past.cleared ∉ later := by
  obtain ⟨earlier, later, rfl, hlater⟩ := h e he
  refine ⟨earlier, later ++ [.fetched fingerprint answer], by simp, ?_⟩
  simpa using hlater

theorem Remembers.make {past : List Past} {c : Cache} (h : Remembers past c) (files : Files)
    (call : Call) : Remembers (past ++ [(c.make files call).1]) (c.make files call).2.1 := by
  cases call with
  | fetch fingerprint isCurrent compile =>
    intro e he
    rcases (c.fetches files fingerprint isCurrent compile).stored with
      hstored | ⟨shared, hanswer, hstored⟩
    · exact h.fetched (hstored ▸ he)
    · rcases List.mem_cons.1 (hstored ▸ he) with rfl | he
      · refine ⟨past, [], ?_, by simp⟩
        rw [← hanswer]
        rfl
      · exact h.fetched (List.mem_filter.1 he).1
  | clear =>
    intro e he
    replace he : e ∈ (c.clear files).2.1.stored := he
    rw [clear_cache] at he
    cases he
  | clearMemory =>
    intro e he
    cases he

theorem Remembers.run {past : List Past} {c : Cache} (h : Remembers past c) (files : Files)
    (calls : List ((Files → Files) × Call)) :
    Remembers (past ++ (c.run files calls).1) (c.run files calls).2.1 := by
  induction calls generalizing past c files with
  | nil =>
    rw [Cache.run, List.append_nil]
    exact h
  | cons call calls ih =>
    have h' := ih (h.make (call.1 files) call.2) (c.make (call.1 files) call.2).2.2
    rwa [List.append_assoc] at h'

end Cache

end Mustache
