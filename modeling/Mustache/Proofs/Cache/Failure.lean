import Mustache.Proofs.Cache.Replies

/-!
# Mustache.Proofs.Cache.Failure

Fetches in which a function of the caller fails.

`Cache.CallerFails` says where that can be: when the template in memory is checked, when the one
in the file is checked, or when the source is compiled. The fetch then fails with the same error,
nothing that is kept has changed, and all calls that follow go as if it had not been made
(`Cache.fetch_failed`). Every other failure is one of reading or writing a file of the cache
(`Cache.callerFails_or_cacheIo`).
-/

namespace Mustache

/-- How many compilations are counted for one that failed. -/
def CacheMode.failureCount : CacheMode → Nat
  | .disabled => 1
  | _ => 0

theorem CacheMode.failureCount_of_enabled {mode : CacheMode} (h : mode ≠ .disabled) :
    mode.failureCount = 0 := by
  cases mode with
  | disabled => exact absurd rfl h
  | _ => rfl

namespace Cache

section Fetch

variable (c : Cache) (files : Files) (fingerprint : Fingerprint)
  (isCurrent : Template → Except Error Bool) (compile : Unit → Except Error Template)

/-- A function of the caller is run in a fetch, and fails with this error. -/
inductive CallerFails (error : Error) : Prop where
  /-- The template in memory could not be checked. -/
  | memory {shared} : c.mode ≠ .disabled → c.inMemory? fingerprint = some shared →
      isCurrent shared.template = .error error → CallerFails error
  /-- The template in the file could not be checked; memory has none, or a stale one. -/
  | file {directory t} : c.mode = .durable directory → c.Lacks fingerprint isCurrent →
      load files (entryFile directory fingerprint) fingerprint = .ok (some t) →
      isCurrent t = .error error → CallerFails error
  | compile : (c.fetch files fingerprint isCurrent compile).compiled = true →
      compile () = .error error → CallerFails error

/-- The cache after a fetch in which a function of the caller failed. -/
def afterFailure : Cache := { c with stats := c.stats + ⟨0, 0, c.mode.failureCount⟩ }

end Fetch

section Fetch

variable {c : Cache} {files : Files} {fingerprint : Fingerprint}
  {isCurrent : Template → Except Error Bool} {compile : Unit → Except Error Template}
  {error : Error}

theorem afterFailure_of_enabled (h : c.mode ≠ .disabled) : c.afterFailure = c := by
  rw [afterFailure, CacheMode.failureCount_of_enabled h]
  rfl

theorem afterFailure_of_disabled (h : c.mode = .disabled) :
    c.afterFailure = c.countCompilation := by
  have hcount : c.mode.failureCount = 1 := by rw [h, CacheMode.failureCount]
  rw [afterFailure, hcount]
  rfl

theorem afterFailure_ahead (c : Cache) :
    Ahead ⟨0, 0, c.mode.failureCount⟩ c c.afterFailure where
  mode := rfl
  stats := rfl
  stored henabled := by
    rw [afterFailure, CacheMode.failureCount_of_enabled henabled]
    exact (List.map_id' c.stored).symm

theorem CallerFails.fetch_eq (h : c.CallerFails files fingerprint isCurrent compile error) :
    ∃ compiled, c.fetch files fingerprint isCurrent compile =
      ⟨.error error, compiled, c.afterFailure, files⟩ := by
  cases h with
  | memory henabled hmemory hcurrent =>
    refine ⟨false, ?_⟩
    rw [fetch_of_enabled henabled, hmemory, afterFailure_of_enabled henabled]
    dsimp only
    rw [hcurrent]
  | @file directory t hmode hlacks hload hcurrent =>
    have henabled : c.mode ≠ .disabled := by simp [hmode]
    have hpath : c.entryPath fingerprint = some (entryFile directory fingerprint) := by
      rw [entryPath, hmode]
    refine ⟨false, ?_⟩
    rw [hlacks.fetch_eq henabled, fetchDurable, hpath, afterFailure_of_enabled henabled]
    dsimp only
    rw [hload]
    dsimp only
    rw [hcurrent]
  | compile hcompiled hcompile =>
    refine ⟨true, ?_⟩
    have hfetches := c.fetches files fingerprint isCurrent compile
    generalize c.fetch files fingerprint isCurrent compile = fetched at hcompiled hfetches ⊢
    cases hfetches with
    | uncached hmode => rw [hcompile, afterFailure_of_disabled hmode]; rfl
    | failed hmisses hfailed =>
      rw [hcompile] at hfailed
      cases hfailed
      rw [afterFailure_of_enabled hmisses.enabled]
    | compiled _ _ hok => rw [hcompile] at hok; cases hok
    | saved _ _ hok => rw [hcompile] at hok; cases hok
    | unsaved _ _ hok => rw [hcompile] at hok; cases hok
    | _ => cases hcompiled

theorem load_cacheIo {path : Path} (h : load files path fingerprint = .error error) :
    ∃ fault, error = .cacheIo path.text fault := by
  rw [load] at h
  split at h
  · cases h
  · cases h
    exact ⟨_, rfl⟩
  · split at h
    · cases h
    · split at h <;> cases h

theorem save_cacheIo {path : Path} {t : Template}
    (h : save files path fingerprint t = .error error) :
    ∃ path' fault, error = .cacheIo path' fault := by
  rw [save] at h
  split at h
  · cases h
    exact ⟨_, _, rfl⟩
  · split at h
    · cases h
      exact ⟨_, _, rfl⟩
    · cases h

/-- A fetch fails because a function of the caller does, or because a file of the cache cannot be
read or written. -/
theorem callerFails_or_cacheIo
    (h : (c.fetch files fingerprint isCurrent compile).answer = .error error) :
    c.CallerFails files fingerprint isCurrent compile error ∨
      ∃ path fault, error = .cacheIo path fault := by
  have hcompile := @CallerFails.compile c files fingerprint isCurrent compile error
  have hfetches := c.fetches files fingerprint isCurrent compile
  generalize c.fetch files fingerprint isCurrent compile = fetched at h hcompile hfetches
  cases hfetches with
  | uncached hmode =>
    refine .inl (hcompile rfl ?_)
    cases hfailed : compile () with
    | error error' =>
      rw [hfailed] at h
      cases h
      rfl
    | ok t =>
      rw [hfailed] at h
      cases h
  | memoryUnchecked henabled hmemory hcurrent =>
    cases h
    exact .inl (.memory henabled hmemory hcurrent)
  | fileUnchecked hmode hlacks hload hcurrent =>
    cases h
    exact .inl (.file hmode hlacks hload hcurrent)
  | failed _ hfailed =>
    cases h
    exact .inl (hcompile rfl hfailed)
  | unreadable _ _ hload =>
    cases h
    exact .inr ⟨_, load_cacheIo hload⟩
  | unsaved _ _ _ hsave =>
    cases h
    exact .inr (save_cacheIo hsave)
  | _ => cases h

/-- A fetch in which a function of the caller fails gives the error of that function. What is in
memory and in the files stays as it was, and the cache goes on as it would have without this
fetch. -/
theorem fetch_failed (h : c.CallerFails files fingerprint isCurrent compile error) :
    let fetched := c.fetch files fingerprint isCurrent compile
    fetched.answer = .error error ∧ fetched.cache.stored = c.stored ∧ fetched.files = files ∧
      (c.mode ≠ .disabled → fetched.cache = c) ∧
      c.Resumes ⟨0, 0, c.mode.failureCount⟩ fetched.cache files := by
  obtain ⟨compiled, hfetch⟩ := h.fetch_eq
  rw [hfetch]
  exact ⟨rfl, rfl, rfl, afterFailure_of_enabled, c.afterFailure_ahead.resumes files⟩

end Fetch

/-- Stale templates lie in memory and in the file, and the source is no longer one. -/
theorem fetch_failed_stale :
    let fingerprint := Fingerprint.ofText "a" .standard {}
    let t : Template := ⟨{}, [.text "a"], []⟩
    let c : Cache := ⟨.durable ⟨"cache"⟩, [(fingerprint, ⟨t, 0⟩)], ⟨0, 0, 1⟩⟩
    let files : Files := ⟨[(["cache"], .directory), CacheEntry.fileAt ["cache"] fingerprint t]⟩
    let isCurrent : Template → Except Error Bool := fun _ => .ok false
    let compile : Unit → Except Error Template := fun _ => .error (.unterminatedSection "a" 1 1)
    let fetched := c.fetch files fingerprint isCurrent compile
    c.CallerFails files fingerprint isCurrent compile (.unterminatedSection "a" 1 1) ∧
      load files (entryFile ⟨"cache"⟩ fingerprint) fingerprint = .ok (some t) ∧
      fetched.answer = .error (.unterminatedSection "a" 1 1) ∧
      fetched.cache.stored = c.stored ∧ fetched.files = files ∧
      (c.mode ≠ .disabled → fetched.cache = c) ∧
      c.Resumes ⟨0, 0, c.mode.failureCount⟩ fetched.cache files := by
  intro fingerprint t c files isCurrent compile fetched
  have hfind : files.find ⟨"cache"⟩ = .ok (["cache"], .directory) :=
    Files.find_eq_ok_iff.2 ⟨rfl, rfl⟩
  have hentry : files.entryAt (["cache"] ++ [entryName fingerprint]) =
      some (CacheEntry.fileAt ["cache"] fingerprint t).2 := by
    simp [files, Files.entryAt, CacheEntry.fileAt]
  have hdepth : t.toJson.depth < Json.maxDepth := by decide
  have hload : load files (entryFile ⟨"cache"⟩ fingerprint) fingerprint = .ok (some t) := by
    rw [load_of_entryAt hfind hentry, if_pos ⟨hdepth, BEq.rfl⟩]
  have hlacks : c.Lacks fingerprint isCurrent := fun _ _ => rfl
  have hmisses : c.Misses files fingerprint isCurrent := by
    refine ⟨by simp [c], hlacks, fun hmode => ?_⟩
    obtain rfl := CacheMode.durable.inj hmode
    exact ⟨some t, hload, fun _ _ => rfl⟩
  have hcompiled : fetched.compiled = true := by
    rw [show fetched = _ from hmisses.fetch_eq, recompile_compiled]
  have hfails : c.CallerFails files fingerprint isCurrent compile (.unterminatedSection "a" 1 1) :=
    .compile hcompiled rfl
  exact ⟨hfails, hload, fetch_failed hfails⟩

end Cache

end Mustache
