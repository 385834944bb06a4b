import Mustache.Proofs.Cache.Failure

/-!
# Mustache.Proofs.Cache.Counting

What the counters of a cache say about a run of calls.

`Cache.Reply.Counts` lists how the counters change in a call, by what the call gives:
a fetch that gives a template counts once, as a hit or as a compilation. This holds of every call
while the directory of the cache can be used (`Cache.reply_counts`), and it stays usable as far as
the cache is concerned (`Cache.make_directories`). So the counters add up over every run
(`Cache.stats_account`), but for the failures of a cache that keeps nothing, which it counts too
(`Cache.stats_overcount`).
-/

namespace Mustache

/-- Templates can be kept in the directory of a cache, if it has one: it is there, and no
directory in it has the name of a draft. -/
def CacheMode.Usable (mode : CacheMode) (files : Files) : Prop :=
  ∀ directory, mode = .durable directory → ∃ d, files.find directory = .ok (d, .directory) ∧
    ∀ fingerprint, files.entryAt (d ++ [Cache.draftName fingerprint]) ≠ some .directory

theorem CacheMode.Usable.of_directories {mode : CacheMode} {files files' : Files}
    (h : mode.Usable files) (hsame : files.SameDirectories files') : mode.Usable files' := by
  intro directory hmode
  obtain ⟨d, hfind, hdraft⟩ := h directory hmode
  exact ⟨d, hsame.find.2 hfind, fun fingerprint hp => hdraft fingerprint ((hsame _).1 hp)⟩

namespace CacheStats

def total (s : CacheStats) : Nat := s.memoryHits + s.durableHits + s.compilations

theorem total_add (s δ : CacheStats) : (s + δ).total = s.total + δ.total := by
  cases s; cases δ
  simp only [add_mk, total]
  omega

theorem compilations_add (s δ : CacheStats) :
    (s + δ).compilations = s.compilations + δ.compilations := rfl

end CacheStats

namespace Cache

/-! ## Directories -/

theorem removeEntries_fewer (directory : Path) (listed : List (String × Entry)) :
    ∀ files : Files, files.Fewer (removeEntries files directory listed).2 := by
  induction listed with
  | nil => exact .refl
  | cons e listed ih =>
    intro files
    obtain ⟨name, entry⟩ := e
    rw [removeEntries]
    split
    · split
      · exact .refl files
      · rename_i left hremove
        exact (Files.Fewer.remove hremove).trans (ih left)
    · exact ih files

theorem clear_fewer (c : Cache) (files : Files) : files.Fewer (c.clear files).2.2 := by
  rw [clear]
  split
  · split
    · exact .refl files
    · exact .refl files
    · exact removeEntries_fewer _ _ files
  · exact .refl files

section Fetch

variable {c : Cache} {files : Files} {fingerprint : Fingerprint}
  {isCurrent : Template → Except Error Bool} {compile : Unit → Except Error Template}

theorem Fetches.directories {fetched : Fetched}
    (h : c.Fetches files fingerprint isCurrent compile fetched) (husable : c.mode.Usable files) :
    files.SameDirectories fetched.files := by
  cases h with
  | saved _ hmode _ hsave =>
    obtain ⟨d, hfind, -⟩ := husable _ hmode
    exact save_directories hfind hsave
  | _ => exact .refl files

theorem Misses.saves (h : c.Misses files fingerprint isCurrent) (husable : c.mode.Usable files)
    {directory : Path} (hmode : c.mode = .durable directory) (t : Template) :
    ∃ saved, save files (entryFile directory fingerprint) fingerprint t = .ok saved := by
  obtain ⟨d, hfind, hdraft⟩ := husable _ hmode
  obtain ⟨found, hload, -⟩ := h.file hmode
  have hentry : files.entryAt (d ++ [entryName fingerprint]) ≠ some .directory := by
    intro hentry
    rw [load, read_entryFile hfind, hentry] at hload
    cases hload
  exact ⟨_, (save_eq_ok_iff hfind).2 ⟨hdraft fingerprint, hentry, rfl⟩⟩

end Fetch

theorem make_directories {c : Cache} {files : Files} (husable : c.mode.Usable files) (call : Call) :
    files.SameDirectories (c.make files call).2.2 := by
  cases call with
  | fetch fingerprint isCurrent compile =>
    exact (c.fetches files fingerprint isCurrent compile).directories husable
  | clear => exact (c.clear_fewer files).directories
  | clearMemory => exact .refl files

/-! ## Calls -/

/-- What a call gives, and what the counters become in it. -/
inductive Reply.Counts (mode : CacheMode) (before : CacheStats) : Reply → CacheStats → Prop where
  | memoryHit {shared} : Counts mode before (.fetched (.ok shared) none) (before + ⟨1, 0, 0⟩)
  | durableHit {shared} : Counts mode before (.fetched (.ok shared) none) (before + ⟨0, 1, 0⟩)
  | compilation {shared t} :
      Counts mode before (.fetched (.ok shared) (some (.ok t))) (before + ⟨0, 0, 1⟩)
  | failure {error made} : (∀ t, made ≠ some (.ok t)) →
      Counts mode before (.fetched (.error error) made) (before + ⟨0, 0, mode.failureCount⟩)
  | cleared {answer} : Counts mode before (.cleared answer) before

namespace Reply

def isAnswer : Reply → Bool
  | .fetched answer _ => answer.isOk
  | .cleared _ => false

def isFailure : Reply → Bool
  | .fetched answer _ => !answer.isOk
  | .cleared _ => false

/-- A compile function was run, and gave a template. -/
def hasMade : Reply → Bool
  | .fetched _ made => made.any (·.isOk)
  | .cleared _ => false

variable {mode : CacheMode} {before after : CacheStats} {reply : Reply}

theorem Counts.failure_of_enabled (henabled : mode ≠ .disabled) {error : Error}
    {made : Option (Except Error Template)} (hmade : ∀ t, made ≠ some (.ok t)) :
    Counts mode before (.fetched (.error error) made) before := by
  have hfailure : Counts mode before (.fetched (.error error) made)
      (before + ⟨0, 0, mode.failureCount⟩) := .failure hmade
  rwa [CacheMode.failureCount_of_enabled henabled] at hfailure

theorem Counts.adds (h : Counts mode before reply after) :
    after.total = before.total + [reply].countP isAnswer +
        mode.failureCount * [reply].countP isFailure ∧
      after.compilations = before.compilations + [reply].countP hasMade +
        mode.failureCount * [reply].countP isFailure := by
  cases h with
  | @failure error made hmade =>
    have hnone : hasMade (.fetched (.error error) made) = false := by
      rcases made with _ | made | t
      · rfl
      · rfl
      · exact absurd rfl (hmade t)
    rw [CacheStats.total_add, CacheStats.compilations_add]
    simp [isAnswer, isFailure, hnone, Except.isOk, Except.toBool, CacheStats.total]
  | cleared => simp [isAnswer, isFailure, hasMade]
  | _ =>
    rw [CacheStats.total_add, CacheStats.compilations_add]
    simp [isAnswer, isFailure, hasMade, Except.isOk, Except.toBool, CacheStats.total]

end Reply

/-- Every call counts in one of these ways, while the directory can be used. -/
theorem reply_counts {c : Cache} {files : Files} (husable : c.mode.Usable files) (call : Call) :
    (c.reply files call).Counts c.mode c.stats (c.make files call).2.1.stats := by
  cases call with
  | fetch fingerprint isCurrent compile =>
    have hfetches := c.fetches files fingerprint isCurrent compile
    rw [reply, make]
    generalize c.fetch files fingerprint isCurrent compile = fetched at hfetches ⊢
    cases hfetches with
    | uncached hmode =>
      have hcount : c.mode.failureCount = 1 := by rw [hmode, CacheMode.failureCount]
      cases hcompile : compile () with
      | error error =>
        have hfailure : Reply.Counts c.mode c.stats
            (.fetched (.error error) (some (.error error)))
            (c.stats + ⟨0, 0, c.mode.failureCount⟩) := .failure (by simp)
        rwa [hcount] at hfailure
      | ok t => exact .compilation
    | fromMemory => exact .memoryHit
    | fromFile => exact .durableHit
    | memoryUnchecked henabled => exact .failure_of_enabled henabled (by simp)
    | unreadable hmode => exact .failure_of_enabled (by simp [hmode]) (by simp)
    | fileUnchecked hmode => exact .failure_of_enabled (by simp [hmode]) (by simp)
    | failed hmisses hcompile => exact .failure_of_enabled hmisses.enabled (by simp [hcompile])
    | compiled _ _ hcompile =>
      dsimp only
      rw [if_pos rfl, hcompile]
      exact .compilation
    | saved _ _ hcompile =>
      dsimp only
      rw [if_pos rfl, hcompile]
      exact .compilation
    | unsaved hmisses hmode _ hsave =>
      obtain ⟨saved, hsaved⟩ := hmisses.saves husable hmode _
      rw [hsaved] at hsave
      cases hsave
  | clear =>
    show Reply.Counts c.mode c.stats (.cleared _) (c.clear files).2.1.stats
    rw [clear_cache]
    exact .cleared
  | clearMemory => exact .cleared

/-! ## Runs -/

/-- Whatever the files go through before a call, the directory can be used afterwards if it could
before. -/
def KeptUsable (mode : CacheMode) (calls : List ((Files → Files) × Call)) : Prop :=
  ∀ e ∈ calls, ∀ files, mode.Usable files → mode.Usable (e.1 files)

section Run

variable {c : Cache} {files : Files} {calls : List ((Files → Files) × Call)}

theorem KeptUsable.step {change : Files → Files} {call : Call}
    (hkept : KeptUsable c.mode ((change, call) :: calls)) (husable : c.mode.Usable files) :
    c.mode.Usable (change files) ∧
      (c.make (change files) call).2.1.mode.Usable (c.make (change files) call).2.2 ∧
      KeptUsable (c.make (change files) call).2.1.mode calls := by
  have hchanged : c.mode.Usable (change files) := hkept _ List.mem_cons_self files husable
  have hnext := hchanged.of_directories (make_directories hchanged call)
  have hmode := c.make_mode (change files) call
  exact ⟨hchanged, hmode.symm ▸ hnext, fun e he => hmode ▸ hkept e (List.mem_cons_of_mem _ he)⟩

theorem KeptUsable.run (hkept : KeptUsable c.mode calls) (husable : c.mode.Usable files) :
    c.mode.Usable (c.run files calls).2.2 := by
  induction calls generalizing c files with
  | nil => exact husable
  | cons call calls ih =>
    obtain ⟨-, hnext, hlater⟩ := hkept.step husable
    have hmode := c.make_mode (call.1 files) call.2
    rw [← hmode]
    exact ih hlater hnext

theorem run_adds (hkept : KeptUsable c.mode calls) (husable : c.mode.Usable files) :
    (c.run files calls).2.1.stats.total = c.stats.total +
        (c.replies files calls).countP Reply.isAnswer +
        c.mode.failureCount * (c.replies files calls).countP Reply.isFailure ∧
      (c.run files calls).2.1.stats.compilations = c.stats.compilations +
        (c.replies files calls).countP Reply.hasMade +
        c.mode.failureCount * (c.replies files calls).countP Reply.isFailure := by
  induction calls generalizing c files with
  | nil => exact ⟨rfl, rfl⟩
  | cons call calls ih =>
    obtain ⟨change, call⟩ := call
    obtain ⟨hchanged, hnext, hlater⟩ := hkept.step husable
    obtain ⟨htotal, hcompilations⟩ := (reply_counts hchanged call).adds
    obtain ⟨htotal', hcompilations'⟩ := ih hlater hnext
    rw [c.make_mode] at htotal' hcompilations'
    rw [run_cons, replies_cons, ← List.singleton_append, List.countP_append, List.countP_append,
      List.countP_append, Nat.mul_add]
    constructor <;> omega

end Run

/-- The counters account for every fetch of a run. A fetch that gives a template counts once, as a
hit or as a compilation, and a fetch that fails counts only in a cache that keeps nothing, which
counts a failed compilation too. So the counters add up to the fetches that gave a template, and
the compilations to the compile functions that gave one, both with the failures of such a cache. -/
theorem stats_account (mode : CacheMode) (start : Files)
    (calls : List ((Files → Files) × Call)) (husable : mode.Usable start)
    (hkept : KeptUsable mode calls) :
    (∀ earlier change call later, calls = earlier ++ (change, call) :: later →
      let c := ((ofMode mode).run start earlier).2.1
      let files := change ((ofMode mode).run start earlier).2.2
      (c.reply files call).Counts mode c.stats (c.make files call).2.1.stats) ∧
    let stats := ((ofMode mode).run start calls).2.1.stats
    let replies := (ofMode mode).replies start calls
    stats.total = replies.countP Reply.isAnswer +
        mode.failureCount * replies.countP Reply.isFailure ∧
      stats.compilations = replies.countP Reply.hasMade +
        mode.failureCount * replies.countP Reply.isFailure := by
  constructor
  · rintro earlier change call later rfl
    have hmode : ((ofMode mode).run start earlier).2.1.mode = mode := run_mode _ start earlier
    have hearlier : mode.Usable ((ofMode mode).run start earlier).2.2 :=
      KeptUsable.run (c := ofMode mode)
        (fun e he => hkept e (List.mem_append_left _ he)) husable
    have hchanged := hkept (change, call) (by simp) _ hearlier
    have hcounts := reply_counts (c := ((ofMode mode).run start earlier).2.1)
      (hmode.symm ▸ hchanged) call
    rwa [hmode] at hcounts
  · have hadds := run_adds (c := ofMode mode) hkept husable
    have hzero : (ofMode mode).stats.total = 0 ∧ (ofMode mode).stats.compilations = 0 :=
      ⟨rfl, rfl⟩
    rw [hzero.1, hzero.2, Nat.zero_add, Nat.zero_add] at hadds
    exact hadds

/-- A failure, a compilation, and a fetch of what is left when memory was forgotten and the file
was spoilt. -/
theorem stats_account_spoilt :
    let fingerprint := Fingerprint.ofText "a" .standard {}
    let mode : CacheMode := .durable ⟨"cache"⟩
    let start : Files := ⟨[(["cache"], .directory)]⟩
    let spoilt : Files :=
      ⟨[(["cache"], .directory), (["cache", entryName fingerprint], .file "?".toUTF8 0)]⟩
    let fetch (compile : Unit → Except Error Template) : Call :=
      .fetch fingerprint (fun _ => .ok true) compile
    let calls : List ((Files → Files) × Call) :=
      [(id, fetch fun _ => .error (.unterminatedSection "a" 1 1)),
        (id, fetch fun _ => .ok ⟨{}, [.text "a"], []⟩), (id, .clearMemory),
        (fun _ => spoilt, fetch fun _ => .ok ⟨{}, [.text "a"], []⟩)]
    let stats := ((ofMode mode).run start calls).2.1.stats
    let replies := (ofMode mode).replies start calls
    mode.Usable start ∧ KeptUsable mode calls ∧
      stats.total = replies.countP Reply.isAnswer ∧
      stats.compilations = replies.countP Reply.hasMade := by
  intro fingerprint mode start spoilt fetch calls stats replies
  have hstart : mode.Usable start := by
    intro directory hmode
    obtain rfl := CacheMode.durable.inj hmode
    exact ⟨["cache"], rfl, fun other => by simp [start, Files.entryAt]⟩
  have hspoilt : mode.Usable spoilt := by
    intro directory hmode
    obtain rfl := CacheMode.durable.inj hmode
    refine ⟨["cache"], rfl, fun other => ?_⟩
    have hne := draftName_ne_entryName other fingerprint
    simp [spoilt, Files.entryAt, Ne.symm hne]
  have hkept : KeptUsable mode calls := by
    intro e he files hfiles
    simp only [calls, List.mem_cons, List.not_mem_nil, or_false] at he
    rcases he with rfl | rfl | rfl | rfl
    · exact hfiles
    · exact hfiles
    · exact hfiles
    · exact hspoilt
  obtain ⟨-, htotal, hcompilations⟩ := stats_account mode start calls hstart hkept
  have hcount : mode.failureCount = 0 := rfl
  rw [hcount, Nat.zero_mul, Nat.add_zero] at htotal hcompilations
  exact ⟨hstart, hkept, htotal, hcompilations⟩

/-- A cache that keeps nothing counts a compilation that failed, where the others do not: one is
counted although no fetch gave a template and no compile function did. -/
theorem stats_overcount :
    let calls : List ((Files → Files) × Call) :=
      [(id, .fetch (.ofText "a" .standard {}) (fun _ => .ok true)
        fun _ => .error (.unterminatedSection "a" 1 1))]
    let replies := (ofMode .disabled).replies .empty calls
    replies.countP Reply.isAnswer = 0 ∧ replies.countP Reply.hasMade = 0 ∧
      ((ofMode .disabled).run .empty calls).2.1.stats = ⟨0, 0, 1⟩ ∧
      ((ofMode .memory).run .empty calls).2.1.stats = ⟨0, 0, 0⟩ :=
  ⟨rfl, rfl, rfl, rfl⟩

end Cache

end Mustache
