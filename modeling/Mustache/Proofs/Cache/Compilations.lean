import Mustache.Proofs.Cache.Fetching

/-!
# Mustache.Proofs.Cache.Compilations

How often a source is compiled.

When what is kept counts as current, a cache that keeps templates runs the compile function of a
fingerprint until it has given one, and from then on gives that template (`Cache.compiles_once`).
`Cache.Keeps` is the invariant: memory holds what each compile function gave first, and the file of
a fingerprint, which may be the file of others too, holds an entry of one that is in memory.
-/

namespace Mustache

namespace Cache

structure Source where
  fingerprint : Fingerprint
  compile : Unit → Except Error Template

/-- Whatever is kept for the source is current. -/
def Source.call (source : Source) : Call :=
  .fetch source.fingerprint (fun _ => .ok true) source.compile

def Source.fetch (source : Source) (c : Cache) (files : Files) : Fetched :=
  c.fetch files source.fingerprint (fun _ => .ok true) source.compile

/-- What was made for the fingerprint by the first of its compile functions that did not fail. -/
def firstMade (fingerprint : Fingerprint) (sources : List Source) : Option Template :=
  sources.findSome? fun source =>
    if source.fingerprint == fingerprint then (source.compile ()).toOption else none

theorem firstMade_congr {fingerprint other : Fingerprint} (h : fingerprint == other)
    (sources : List Source) : firstMade fingerprint sources = firstMade other sources := by
  have heq (source : Source) :
      (source.fingerprint == fingerprint) = (source.fingerprint == other) :=
    BEq.congr_right h
  simp only [firstMade, heq]

theorem firstMade_concat (fingerprint : Fingerprint) (sources : List Source) (source : Source) :
    firstMade fingerprint (sources ++ [source]) =
      if source.fingerprint == fingerprint then
        (firstMade source.fingerprint sources).or (source.compile ()).toOption
      else firstMade fingerprint sources := by
  rw [firstMade, List.findSome?_append, ← firstMade]
  by_cases hsame : (source.fingerprint == fingerprint) = true
  · rw [firstMade_congr hsame]
    simp [hsame]
  · simp [hsame]

theorem isSome_firstMade_concat {fingerprint : Fingerprint} {sources : List Source}
    (source : Source) (h : (firstMade fingerprint sources).isSome) :
    (firstMade fingerprint (sources ++ [source])).isSome := by
  rw [firstMade_concat]
  split
  · rename_i hsame
    rw [firstMade_congr hsame, Option.isSome_or, h, Bool.true_or]
  · exact h

structure Keeps (mode : CacheMode) (earlier : List Source) (c : Cache) (files : Files) : Prop where
  mode_eq : c.mode = mode
  enabled : mode ≠ .disabled
  memory (fingerprint : Fingerprint) :
    (c.inMemory? fingerprint).map (·.template) = firstMade fingerprint earlier
  file {directory : Path} : mode = .durable directory →
    ∃ d base, base.find directory = .ok (d, .directory) ∧
      Overlay (fun saved _ => (firstMade saved earlier).isSome) d base files

namespace Keeps

variable {mode : CacheMode} {earlier : List Source} {c : Cache} {files : Files} {source : Source}

theorem fetch_made (h : Keeps mode earlier c files) {t : Template}
    (hmade : firstMade source.fingerprint earlier = some t) :
    ∃ shared, shared.template = t ∧
      source.fetch c files = ⟨.ok shared, false, c.countMemoryHit, files⟩ := by
  obtain ⟨shared, hshared, htemplate⟩ :=
    Option.map_eq_some_iff.1 ((h.memory source.fingerprint).trans hmade)
  refine ⟨shared, htemplate, ?_⟩
  rw [Source.fetch, fetch_of_enabled (h.mode_eq ▸ h.enabled), hshared]

/-- What was not made before is in no file: an entry there is for a fingerprint that was. -/
theorem misses (h : Keeps mode earlier c files) {fingerprint : Fingerprint}
    (hmade : firstMade fingerprint earlier = none) (isCurrent : Template → Except Error Bool) :
    c.Misses files fingerprint isCurrent where
  enabled := h.mode_eq ▸ h.enabled
  memory shared hmemory := by
    have hnone := (h.memory fingerprint).trans hmade
    rw [hmemory] at hnone
    cases hnone
  file hmode := by
    obtain ⟨d, base, hbase, hoverlay⟩ := h.file (h.mode_eq ▸ hmode)
    obtain ⟨found, hload, hfound⟩ := hoverlay.load hbase fingerprint
    refine ⟨found, hload, fun t ht => ?_⟩
    obtain ⟨saved, hsaved, hmade'⟩ := hfound t ht
    rw [firstMade_congr hsaved, hmade] at hmade'
    cases hmade'

theorem unchanged (h : Keeps mode earlier c files)
    (hmade : firstMade source.fingerprint earlier = none → (source.compile ()).toOption = none)
    {c' : Cache} (hmode : c'.mode = c.mode) (hstored : c'.stored = c.stored) :
    Keeps mode (earlier ++ [source]) c' files where
  mode_eq := hmode.trans h.mode_eq
  enabled := h.enabled
  memory fingerprint := by
    have hmemory : c'.inMemory? fingerprint = c.inMemory? fingerprint := by
      rw [inMemory?, inMemory?, hstored]
    rw [hmemory, h.memory, firstMade_concat]
    split
    · rename_i hsame
      rw [← firstMade_congr hsame]
      cases hsource : firstMade source.fingerprint earlier with
      | none => rw [hmade hsource, Option.or_none]
      | some t => rw [Option.some_or]
    · rfl
  file hdurable := by
    obtain ⟨d, base, hbase, hoverlay⟩ := h.file hdurable
    exact ⟨d, base, hbase, hoverlay.mono fun _ _ => isSome_firstMade_concat source⟩

theorem made (h : Keeps mode earlier c files) {t : Template}
    (hmade : firstMade source.fingerprint earlier = none) (hcompile : source.compile () = .ok t)
    {files' : Files} (hfile : ∀ {directory}, mode = .durable directory →
      save files (entryFile directory source.fingerprint) source.fingerprint t = .ok files')
    (serial : Nat) :
    Keeps mode (earlier ++ [source])
      (c.countCompilation.remember source.fingerprint ⟨t, serial⟩) files' where
  mode_eq := h.mode_eq
  enabled := h.enabled
  memory fingerprint := by
    rw [inMemory?_remember, firstMade_concat, hmade, hcompile]
    split
    · rfl
    · exact h.memory fingerprint
  file hdurable := by
    obtain ⟨d, base, hbase, hoverlay⟩ := h.file hdurable
    have hnew : (firstMade source.fingerprint (earlier ++ [source])).isSome := by
      rw [firstMade_concat, if_pos BEq.rfl, hmade, hcompile]
      rfl
    have hsave := (hoverlay.works hbase source.fingerprint).save_eq t
    obtain rfl := Except.ok.inj (hsave.symm.trans (hfile hdurable))
    exact ⟨d, base, hbase, (hoverlay.mono fun _ _ => isSome_firstMade_concat source).put hnew⟩

theorem fetch_new (h : Keeps mode earlier c files)
    (hmade : firstMade source.fingerprint earlier = none) :
    (source.fetch c files).compiled = true ∧
      (source.fetch c files).answer.map (·.template) = source.compile () ∧
      Keeps mode (earlier ++ [source]) (source.fetch c files).cache
        (source.fetch c files).files := by
  rw [Source.fetch, (h.misses hmade _).fetch_eq]
  refine ⟨recompile_compiled, ?_⟩
  rw [recompile]
  cases hcompile : source.compile () with
  | error error => exact ⟨rfl, h.unchanged (fun _ => by rw [hcompile]; rfl) rfl rfl⟩
  | ok t =>
    have hmode : c.countCompilation.mode = mode := h.mode_eq
    dsimp only
    rw [entryPath, hmode]
    cases mode with
    | disabled => exact absurd rfl h.enabled
    | memory => exact ⟨rfl, h.made hmade hcompile (fun hdurable => by cases hdurable) _⟩
    | durable directory =>
      obtain ⟨d, base, hbase, hoverlay⟩ := h.file rfl
      have hsave := (hoverlay.works hbase source.fingerprint).save_eq t
      dsimp only
      rw [hsave]
      refine ⟨rfl, h.made hmade hcompile (fun hdurable => ?_) _⟩
      obtain rfl := CacheMode.durable.inj hdurable
      exact hsave

theorem fetch (h : Keeps mode earlier c files) (source : Source) :
    Keeps mode (earlier ++ [source]) (source.fetch c files).cache
      (source.fetch c files).files := by
  cases hmade : firstMade source.fingerprint earlier with
  | none => exact (h.fetch_new hmade).2.2
  | some t =>
    obtain ⟨shared, -, hfetch⟩ := h.fetch_made hmade
    rw [hfetch]
    exact h.unchanged (fun hnone => by rw [hmade] at hnone; cases hnone) rfl rfl

theorem run (h : Keeps mode earlier c files) (sources : List Source) :
    Keeps mode (earlier ++ sources) (c.run files (sources.map fun source => (id, source.call))).2.1
      (c.run files (sources.map fun source => (id, source.call))).2.2 := by
  induction sources generalizing earlier c files with
  | nil =>
    rw [List.append_nil]
    exact h
  | cons source sources ih =>
    have hnext := ih (h.fetch source)
    rwa [List.append_assoc] at hnext

theorem start (henabled : mode ≠ .disabled)
    (hempty : ∀ directory, mode = .durable directory →
      ∃ d, files.find directory = .ok (d, .directory) ∧ files.inside d = []) :
    Keeps mode [] (ofMode mode) files where
  mode_eq := rfl
  enabled := henabled
  memory _ := rfl
  file hdurable := by
    obtain ⟨d, hfind, hnone⟩ := hempty _ hdurable
    exact ⟨d, files, hfind, .refl hnone⟩

end Keeps

/-- A source is compiled until one of its compilations succeeds, and not again: the fetches that
follow give what was made then. This is so for each fingerprint, in whatever order the calls are
made, and also where the entries of several fingerprints have the same file. -/
theorem compiles_once {mode : CacheMode} {start : Files} (henabled : mode ≠ .disabled)
    (hempty : ∀ directory, mode = .durable directory →
      ∃ d, start.find directory = .ok (d, .directory) ∧ start.inside d = [])
    (earlier : List Source) (source : Source) :
    let reached := (ofMode mode).run start (earlier.map fun source => (id, source.call))
    let fetched := source.fetch reached.2.1 reached.2.2
    match firstMade source.fingerprint earlier with
    | none => fetched.compiled = true ∧ fetched.answer.map (·.template) = source.compile ()
    | some t => fetched.compiled = false ∧ fetched.answer.map (·.template) = .ok t := by
  intro reached fetched
  have hkeeps := (Keeps.start henabled hempty).run earlier
  rw [List.nil_append] at hkeeps
  cases hmade : firstMade source.fingerprint earlier with
  | none =>
    obtain ⟨hcompiled, hanswer, -⟩ := hkeeps.fetch_new hmade
    exact ⟨hcompiled, hanswer⟩
  | some t =>
    obtain ⟨shared, rfl, hfetch⟩ := hkeeps.fetch_made hmade
    exact ⟨congrArg (·.compiled) hfetch, by rw [show fetched = _ from hfetch]; rfl⟩

/-- A source fails, is compiled with other options, is compiled, and is then asked for again. -/
theorem compiles_once_after_failure :
    let made : Template := ⟨{}, [.text "a"], []⟩
    let mode : CacheMode := .durable ⟨"cache"⟩
    let start : Files := ⟨[(["cache"], .directory)]⟩
    let failing : Source := ⟨.ofText "a" .standard {}, fun _ => .error .configParse⟩
    let other : Source := ⟨.ofText "a" .standard { beautify := true }, fun _ => .ok ⟨{}, [], []⟩⟩
    let working : Source := ⟨.ofText "a" .standard {}, fun _ => .ok made⟩
    let earlier : List Source := [failing, other, working]
    let reached := (ofMode mode).run start (earlier.map fun source => (id, source.call))
    let fetched := failing.fetch reached.2.1 reached.2.2
    mode ≠ .disabled ∧
      (∀ directory, mode = .durable directory →
        ∃ d, start.find directory = .ok (d, .directory) ∧ start.inside d = []) ∧
      fetched.compiled = false ∧ fetched.answer.map (·.template) = .ok made := by
  intro made mode start failing other working earlier reached fetched
  have henabled : mode ≠ .disabled := by simp [mode]
  have hempty : ∀ directory, mode = .durable directory →
      ∃ d, start.find directory = .ok (d, .directory) ∧ start.inside d = [] := by
    intro directory hmode
    obtain rfl := CacheMode.durable.inj hmode
    exact ⟨["cache"], rfl, rfl⟩
  have hother : (other.fingerprint == failing.fingerprint) = false := by
    rw [← Bool.not_eq_true, Fingerprint.beq_iff]
    simp [other, failing, Fingerprint.ofText]
  have hmade : firstMade failing.fingerprint earlier = some made := by
    have hworking : working.fingerprint = failing.fingerprint := rfl
    simp only [firstMade, earlier, List.findSome?_cons, hother, hworking, BEq.rfl]
    rfl
  -- With the sources at hand the fetches would be run, hashes and all.
  clear_value earlier failing
  have honce := compiles_once henabled hempty earlier failing
  rw [hmade] at honce
  exact ⟨henabled, hempty, honce⟩

end Cache

end Mustache
