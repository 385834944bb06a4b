import Mustache.Proofs.Cache.Fetching

/-!
# Mustache.Proofs.Cache.Replies

What the callers of a cache are told, and caches that go on alike.

`Cache.replies` lists what a run of calls gives to those who make them: of a fetch its answer, and
what the compile function gave if it was run. A cache that holds the same templates as another one
and has counted more (`Cache.Ahead`) gives the same replies to all calls that follow, except that
its copies have later numbers (`Cache.Ahead.resumes`).
-/

namespace Mustache

namespace CacheStats

instance : Add CacheStats where
  add s δ := ⟨s.memoryHits + δ.memoryHits, s.durableHits + δ.durableHits,
    s.compilations + δ.compilations⟩

def copies (s : CacheStats) : Nat := s.durableHits + s.compilations

theorem add_mk (s : CacheStats) (hits durableHits compilations : Nat) :
    s + ⟨hits, durableHits, compilations⟩ =
      ⟨s.memoryHits + hits, s.durableHits + durableHits, s.compilations + compilations⟩ := rfl

theorem copies_add (s δ : CacheStats) : (s + δ).copies = s.copies + δ.copies := by
  cases s; cases δ
  simp only [add_mk, copies]
  omega

theorem add_right_comm (s δ δ' : CacheStats) : s + δ + δ' = s + δ' + δ := by
  cases s; cases δ; cases δ'
  simp only [add_mk, mk.injEq]
  omega

theorem zero_add (δ : CacheStats) : {} + δ = δ := by
  cases δ
  simp only [add_mk, mk.injEq]
  omega

end CacheStats

/-- The copy that is made in its place when `n` more were made before. -/
def SharedTemplate.later (n : Nat) (shared : SharedTemplate) : SharedTemplate :=
  { shared with serial := shared.serial + n }

namespace Cache

theorem countMemoryHit_stats (c : Cache) : c.countMemoryHit.stats = c.stats + ⟨1, 0, 0⟩ := rfl

theorem countDurableHit_stats (c : Cache) : c.countDurableHit.stats = c.stats + ⟨0, 1, 0⟩ := rfl

theorem countCompilation_stats (c : Cache) : c.countCompilation.stats = c.stats + ⟨0, 0, 1⟩ := rfl

theorem nextSerial_eq (c : Cache) : c.nextSerial = c.stats.copies := rfl

/-! ## Replies -/

inductive Reply where
  /-- `made` is what the compile function gave, if it was run. -/
  | fetched (answer : Except Error SharedTemplate) (made : Option (Except Error Template))
  | cleared (answer : Except Error Unit)

def Reply.later (n : Nat) : Reply → Reply
  | .fetched answer made => .fetched (answer.map (·.later n)) made
  | .cleared answer => .cleared answer

def reply (c : Cache) (files : Files) : Call → Reply
  | .fetch fingerprint isCurrent compile =>
    let fetched := c.fetch files fingerprint isCurrent compile
    .fetched fetched.answer (if fetched.compiled then some (compile ()) else none)
  | .clear => .cleared (c.clear files).1
  | .clearMemory => .cleared (.ok ())

def replies : Cache → Files → List ((Files → Files) × Call) → List Reply
  | _, _, [] => []
  | c, files, (change, call) :: calls =>
    let (_, next, left) := c.make (change files) call
    c.reply (change files) call :: replies next left calls

section Runs

variable (c : Cache) (files : Files) (change : Files → Files) (call : Call)
  (calls : List ((Files → Files) × Call))

theorem run_cons : (c.run files ((change, call) :: calls)).2 =
    ((c.make (change files) call).2.1.run (c.make (change files) call).2.2 calls).2 := rfl

theorem replies_cons : c.replies files ((change, call) :: calls) =
    c.reply (change files) call ::
      (c.make (change files) call).2.1.replies (c.make (change files) call).2.2 calls := rfl

end Runs

/-- From these files on `c'` does as `c`, whatever calls follow and whatever the files go through
between them: it gives the same replies, with the later numbers of its copies, counts the same and
leaves the same files. -/
structure Resumes (δ : CacheStats) (c c' : Cache) (files : Files) : Prop where
  replies (calls : List ((Files → Files) × Call)) :
    c'.replies files calls = (c.replies files calls).map (Reply.later δ.copies)
  stats (calls : List ((Files → Files) × Call)) :
    (c'.run files calls).2.1.stats = (c.run files calls).2.1.stats + δ
  files (calls : List ((Files → Files) × Call)) :
    (c'.run files calls).2.2 = (c.run files calls).2.2

/-! ## Caches that have counted more -/

/-- `c'` holds the same templates as `c` and has counted `δ` more. What is stored by a cache that
is not in use does not matter. -/
structure Ahead (δ : CacheStats) (c c' : Cache) : Prop where
  mode : c'.mode = c.mode
  stats : c'.stats = c.stats + δ
  stored : c.mode ≠ .disabled → c'.stored = c.stored.map fun e => (e.1, e.2.later δ.copies)

structure Fetched.Ahead (δ : CacheStats) (fetched fetched' : Fetched) : Prop where
  answer : fetched'.answer = fetched.answer.map (·.later δ.copies)
  compiled : fetched'.compiled = fetched.compiled
  cache : Cache.Ahead δ fetched.cache fetched'.cache
  files : fetched'.files = fetched.files

namespace Ahead

variable {δ : CacheStats} {c c' : Cache}

theorem entryPath (h : Ahead δ c c') (fingerprint : Fingerprint) :
    c'.entryPath fingerprint = c.entryPath fingerprint := by
  rw [Cache.entryPath, Cache.entryPath, h.mode]

theorem nextSerial (h : Ahead δ c c') : c'.nextSerial = c.nextSerial + δ.copies := by
  rw [nextSerial_eq, nextSerial_eq, h.stats, CacheStats.copies_add]

theorem inMemory? (h : Ahead δ c c') (henabled : c.mode ≠ .disabled) (fingerprint : Fingerprint) :
    c'.inMemory? fingerprint = (c.inMemory? fingerprint).map (·.later δ.copies) := by
  rw [Cache.inMemory?, Cache.inMemory?, h.stored henabled, List.find?_map]
  simp only [Function.comp_def]
  cases c.stored.find? (·.1 == fingerprint) <;> rfl

theorem count (h : Ahead δ c c') {counted counted' : Cache} {δ' : CacheStats}
    (hstats : counted.stats = c.stats + δ') (hstats' : counted'.stats = c'.stats + δ')
    (hmode : counted.mode = c.mode) (hmode' : counted'.mode = c'.mode)
    (hstored : counted.stored = c.stored) (hstored' : counted'.stored = c'.stored) :
    Ahead δ counted counted' where
  mode := by rw [hmode', h.mode, hmode]
  stats := by rw [hstats', h.stats, hstats, CacheStats.add_right_comm]
  stored henabled := by rw [hstored', hstored, h.stored (hmode ▸ henabled)]

theorem countCompilation (h : Ahead δ c c') : Ahead δ c.countCompilation c'.countCompilation :=
  h.count c.countCompilation_stats c'.countCompilation_stats rfl rfl rfl rfl

theorem countDurableHit (h : Ahead δ c c') : Ahead δ c.countDurableHit c'.countDurableHit :=
  h.count c.countDurableHit_stats c'.countDurableHit_stats rfl rfl rfl rfl

theorem countMemoryHit (h : Ahead δ c c') : Ahead δ c.countMemoryHit c'.countMemoryHit :=
  h.count c.countMemoryHit_stats c'.countMemoryHit_stats rfl rfl rfl rfl

theorem remember (h : Ahead δ c c') (fingerprint : Fingerprint) (shared : SharedTemplate) :
    Ahead δ (c.remember fingerprint shared)
      (c'.remember fingerprint (shared.later δ.copies)) where
  mode := h.mode
  stats := h.stats
  stored henabled := by
    simp only [Cache.remember, h.stored henabled, List.map_cons, List.filter_map]
    rfl

theorem clearMemory (h : Ahead δ c c') : Ahead δ c.clearMemory c'.clearMemory where
  mode := h.mode
  stats := h.stats
  stored _ := rfl

section Fetch

variable (h : Ahead δ c c') (files : Files) (fingerprint : Fingerprint)
  (isCurrent : Template → Except Error Bool) (compile : Unit → Except Error Template)
include h

theorem recompile : Fetched.Ahead δ (c.recompile files fingerprint compile)
    (c'.recompile files fingerprint compile) := by
  rw [Cache.recompile, Cache.recompile]
  cases compile () with
  | error error => exact ⟨rfl, rfl, h, rfl⟩
  | ok t =>
    have hnext := h.countCompilation
    have hremember := hnext.remember fingerprint ⟨t, c.nextSerial⟩
    dsimp only
    rw [hnext.entryPath, h.nextSerial]
    split
    · exact ⟨rfl, rfl, hremember, rfl⟩
    · split
      · exact ⟨rfl, rfl, hnext, rfl⟩
      · exact ⟨rfl, rfl, hremember, rfl⟩

theorem fetchDurable : Fetched.Ahead δ (c.fetchDurable files fingerprint isCurrent compile)
    (c'.fetchDurable files fingerprint isCurrent compile) := by
  have hrecompile := h.recompile files fingerprint compile
  rw [Cache.fetchDurable, Cache.fetchDurable, h.entryPath]
  split
  · exact hrecompile
  · split
    · exact ⟨rfl, rfl, h, rfl⟩
    · exact hrecompile
    · rename_i t _
      split
      · exact ⟨rfl, rfl, h, rfl⟩
      · exact hrecompile
      · rw [h.nextSerial]
        exact ⟨rfl, rfl, h.countDurableHit.remember fingerprint ⟨t, c.nextSerial⟩, rfl⟩

theorem fetch : Fetched.Ahead δ (c.fetch files fingerprint isCurrent compile)
    (c'.fetch files fingerprint isCurrent compile) := by
  have hdurable := h.fetchDurable files fingerprint isCurrent compile
  by_cases hmode : c.mode = .disabled
  · rw [Cache.fetch, Cache.fetch, h.mode, hmode]
    cases compile () with
    | error error => exact ⟨rfl, rfl, h.countCompilation, rfl⟩
    | ok t =>
      dsimp only
      rw [h.nextSerial]
      exact ⟨rfl, rfl, h.countCompilation, rfl⟩
  · have hmode' : c'.mode ≠ .disabled := h.mode ▸ hmode
    rw [fetch_of_enabled hmode, fetch_of_enabled hmode', h.inMemory? hmode]
    cases c.inMemory? fingerprint with
    | none => exact hdurable
    | some shared =>
      have hcurrent : (shared.later δ.copies).template = shared.template := rfl
      dsimp only [Option.map_some]
      rw [hcurrent]
      cases isCurrent shared.template with
      | error error => exact ⟨rfl, rfl, h, rfl⟩
      | ok current =>
        cases current with
        | false => exact hdurable
        | true => exact ⟨rfl, rfl, h.countMemoryHit, rfl⟩

end Fetch

/-- Clearing does to the files what it does, whatever is in memory. -/
theorem clear (h : Ahead δ c c') (files : Files) :
    (c'.clear files).1 = (c.clear files).1 ∧ (c'.clear files).2.2 = (c.clear files).2.2 := by
  rw [Cache.clear, Cache.clear, h.mode]
  split
  · split <;> exact ⟨rfl, rfl⟩
  · exact ⟨rfl, rfl⟩

theorem make (h : Ahead δ c c') (files : Files) (call : Call) :
    Ahead δ (c.make files call).2.1 (c'.make files call).2.1 ∧
      (c'.make files call).2.2 = (c.make files call).2.2 := by
  cases call with
  | fetch fingerprint isCurrent compile =>
    have hfetch := h.fetch files fingerprint isCurrent compile
    exact ⟨hfetch.cache, hfetch.files⟩
  | clear =>
    refine ⟨?_, (h.clear files).2⟩
    show Ahead δ (c.clear files).2.1 (c'.clear files).2.1
    rw [clear_cache, clear_cache]
    exact h.clearMemory
  | clearMemory => exact ⟨h.clearMemory, rfl⟩

theorem reply (h : Ahead δ c c') (files : Files) (call : Call) :
    c'.reply files call = (c.reply files call).later δ.copies := by
  cases call with
  | fetch fingerprint isCurrent compile =>
    have hfetch := h.fetch files fingerprint isCurrent compile
    rw [Cache.reply, Cache.reply, hfetch.answer, hfetch.compiled]
    rfl
  | clear => rw [Cache.reply, Cache.reply, (h.clear files).1]; rfl
  | clearMemory => rfl

/-- Two caches of which one is ahead stay so, call by call. -/
theorem resumes (h : Ahead δ c c') (files : Files) : Resumes δ c c' files := by
  have hrun (calls : List ((Files → Files) × Call)) :
      c'.replies files calls = (c.replies files calls).map (Reply.later δ.copies) ∧
        (c'.run files calls).2.1.stats = (c.run files calls).2.1.stats + δ ∧
        (c'.run files calls).2.2 = (c.run files calls).2.2 := by
    induction calls generalizing c c' files with
    | nil => exact ⟨rfl, h.stats, rfl⟩
    | cons call calls ih =>
      obtain ⟨change, call⟩ := call
      obtain ⟨hnext, hfiles⟩ := h.make (change files) call
      obtain ⟨hreplies, hstats, hleft⟩ := ih hnext (c.make (change files) call).2.2
      rw [replies_cons, replies_cons, run_cons, run_cons, hfiles, h.reply, hreplies]
      exact ⟨rfl, hstats, hleft⟩
  exact ⟨fun calls => (hrun calls).1, fun calls => (hrun calls).2.1, fun calls => (hrun calls).2.2⟩

end Ahead

end Cache

end Mustache
