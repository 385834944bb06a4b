import Mustache.Proofs.Cache.Fetching

/-!
# Mustache.Proofs.Cache.Provenance

Where the templates come from that a cache serves.

A template that is served for a fingerprint was compiled in this call, or it was served for an equal
fingerprint before, or it stands in a file as an entry for an equal fingerprint: `Cache.Origin`. It
is so whatever the directory holds and whichever fingerprints share a file (`Cache.fetch_served`).
A file that holds no entry for the fingerprint is replaced (`Cache.replaces`).
-/

namespace Mustache

/-- The content is an entry for the fingerprint, in the version that is read, with this template. -/
def CacheEntry.Holds (content : ByteArray) (fingerprint : Fingerprint) (t : Template) : Prop :=
  ∃ entry, ofBytes? content = some entry ∧ entry.version = 2 ∧ entry.fingerprint == fingerprint ∧
    entry.template = t

namespace Cache

section Load

variable {files : Files} {path : Path} {fingerprint : Fingerprint} {content : ByteArray}

theorem load_of_read (hread : files.read path = .ok content) (t : Template) :
    load files path fingerprint = .ok (some t) ↔ CacheEntry.Holds content fingerprint t := by
  rw [load, hread]
  dsimp only
  constructor
  · intro h
    split at h
    · cases h
    · rename_i entry hentry
      split at h
      · rename_i hsame
        cases h
        rw [Bool.and_eq_true, beq_iff_eq] at hsame
        exact ⟨entry, hentry, hsame.1, hsame.2, rfl⟩
      · cases h
  · rintro ⟨entry, hentry, hversion, hsame, rfl⟩
    have hboth : (entry.version == CacheEntry.currentVersion && entry.fingerprint == fingerprint)
        = true := by
      rw [Bool.and_eq_true, beq_iff_eq]
      exact ⟨hversion, hsame⟩
    rw [hentry]
    exact if_pos hboth

theorem holds_of_load {t : Template} (h : load files path fingerprint = .ok (some t)) :
    ∃ content, files.read path = .ok content ∧ CacheEntry.Holds content fingerprint t := by
  cases hread : files.read path with
  | error fault =>
    rw [load, hread] at h
    cases fault <;> cases h
  | ok content => exact ⟨content, rfl, (load_of_read hread t).1 h⟩

theorem load_eq_none (hread : files.read path = .ok content)
    (hnone : ∀ t, ¬ CacheEntry.Holds content fingerprint t) :
    load files path fingerprint = .ok none := by
  cases hload : load files path fingerprint with
  | error error =>
    rw [load, hread] at hload
    dsimp only at hload
    split at hload
    · cases hload
    · split at hload <;> cases hload
  | ok found =>
    cases found with
    | none => rfl
    | some t => exact absurd ((load_of_read hread t).1 hload) (hnone t)

end Load

/-! ## Replacing an entry -/

section Save

variable {files : Files} {directory : Path} {d : Place} {fingerprint : Fingerprint}

theorem entryAt_of_read {content : ByteArray}
    (hfind : files.find directory = .ok (d, .directory))
    (hread : files.read (entryFile directory fingerprint) = .ok content) :
    files.entryAt (d ++ [entryName fingerprint]) ≠ some .directory := by
  intro hentry
  rw [read_entryFile hfind, hentry] at hread
  cases hread

theorem save_reads (hfind : files.find directory = .ok (d, .directory))
    (hdraft : files.entryAt (d ++ [draftName fingerprint]) ≠ some .directory)
    (hentry : files.entryAt (d ++ [entryName fingerprint]) ≠ some .directory) (t : Template) :
    ∃ saved, save files (entryFile directory fingerprint) fingerprint t = .ok saved ∧
      saved.read (entryFile directory fingerprint) =
        .ok (CacheEntry.toBytes ⟨CacheEntry.currentVersion, fingerprint, t⟩) := by
  have hsave := (save_eq_ok_iff (t := t) hfind).2 ⟨hdraft, hentry, rfl⟩
  refine ⟨_, hsave, ?_⟩
  rw [read_entryFile ((save_directories hfind hsave).find.2 hfind), entryAt_withEntry, if_pos rfl]
  rfl

/-- A fetch compiles, and what it compiles replaces the file. -/
structure Replaces (directory : Path) (fingerprint : Fingerprint)
    (compile : Unit → Except Error Template) (fetched : Fetched) : Prop where
  compiled : fetched.compiled = true
  answer : fetched.answer.map (·.template) = compile ()
  file {t} : compile () = .ok t →
    fetched.files.read (entryFile directory fingerprint) =
      .ok (CacheEntry.toBytes ⟨CacheEntry.currentVersion, fingerprint, t⟩)

variable {c : Cache} {isCurrent : Template → Except Error Bool}
  {compile : Unit → Except Error Template} {content : ByteArray}

/-- A file without an entry for the fingerprint is replaced when memory has none either. -/
theorem replaces (hmode : c.mode = .durable directory) (hmemory : c.Lacks fingerprint isCurrent)
    (hread : files.read (entryFile directory fingerprint) = .ok content)
    (hnone : ∀ t, ¬ CacheEntry.Holds content fingerprint t)
    (hfind : files.find directory = .ok (d, .directory))
    (hdraft : files.entryAt (d ++ [draftName fingerprint]) ≠ some .directory) :
    Replaces directory fingerprint compile (c.fetch files fingerprint isCurrent compile) := by
  have hload := load_eq_none hread hnone
  have hsave := save_reads hfind hdraft (entryAt_of_read hfind hread)
  have hdirectory {directory' : Path} (h : c.mode = .durable directory') :
      directory' = directory := CacheMode.durable.inj (h.symm.trans hmode)
  have hfetches := c.fetches files fingerprint isCurrent compile
  generalize c.fetch files fingerprint isCurrent compile = fetched at hfetches ⊢
  cases hfetches with
  | uncached h =>
    rw [hmode] at h
    cases h
  | fromMemory _ h h' =>
    rw [hmemory _ h] at h'
    cases h'
  | memoryUnchecked _ h h' =>
    rw [hmemory _ h] at h'
    cases h'
  | fromFile h _ h' =>
    rw [hdirectory h, hload] at h'
    cases h'
  | unreadable h _ h' =>
    rw [hdirectory h, hload] at h'
    cases h'
  | fileUnchecked h _ h' =>
    rw [hdirectory h, hload] at h'
    cases h'
  | failed _ hcompile =>
    refine ⟨rfl, hcompile.symm, fun h => ?_⟩
    rw [hcompile] at h
    cases h
  | compiled _ h =>
    rw [hmode] at h
    cases h
  | @saved _ t _ _ h hcompile h' =>
    refine ⟨rfl, hcompile.symm, fun ht => ?_⟩
    obtain rfl : t = _ := Except.ok.inj (hcompile.symm.trans ht)
    obtain ⟨saved, hsaved, hreads⟩ := hsave t
    rw [hdirectory h, hsaved] at h'
    cases h'
    exact hreads
  | @unsaved _ t _ _ h _ h' =>
    obtain ⟨saved, hsaved, -⟩ := hsave t
    rw [hdirectory h, hsaved] at h'
    cases h'

end Save

/-! ## Origins -/

/-- Where a template may come from that is served for a fingerprint: it is what was compiled now, or
an earlier call served it for an equal fingerprint and it was not forgotten since, or it stands in
the file as an entry for an equal fingerprint. What was not compiled now was found to be current. -/
inductive Origin (mode : CacheMode) (past : List Past) (files : Files) (fingerprint : Fingerprint)
    (isCurrent : Template → Except Error Bool) (compile : Unit → Except Error Template)
    (compiled : Bool) (shared : SharedTemplate) : Prop where
  | compiled : compiled = true → compile () = .ok shared.template →
      Origin mode past files fingerprint isCurrent compile compiled shared
  | remembered {earlier fingerprint' later} :
      past = earlier ++ .fetched fingerprint' (.ok shared) :: later → Past.cleared ∉ later →
      fingerprint' == fingerprint → isCurrent shared.template = .ok true →
      Origin mode past files fingerprint isCurrent compile compiled shared
  | stored {directory content} : mode = .durable directory →
      files.read (entryFile directory fingerprint) = .ok content →
      CacheEntry.Holds content fingerprint shared.template →
      isCurrent shared.template = .ok true →
      Origin mode past files fingerprint isCurrent compile compiled shared

section Origin

variable {c : Cache} {past : List Past} {files : Files} {fingerprint : Fingerprint}
  {isCurrent : Template → Except Error Bool} {compile : Unit → Except Error Template}
  {shared : SharedTemplate}

theorem Remembers.origin (h : Remembers past c)
    (hanswer : (c.fetch files fingerprint isCurrent compile).answer = .ok shared) :
    Origin c.mode past files fingerprint isCurrent compile
      (c.fetch files fingerprint isCurrent compile).compiled shared := by
  have hfetches := c.fetches files fingerprint isCurrent compile
  generalize c.fetch files fingerprint isCurrent compile = fetched at hanswer hfetches ⊢
  cases hfetches with
  | uncached =>
    refine .compiled rfl ?_
    cases hcompile : compile () with
    | error error =>
      rw [hcompile] at hanswer
      cases hanswer
    | ok t =>
      rw [hcompile] at hanswer
      cases hanswer
      rfl
  | fromMemory _ hmemory hcurrent =>
    cases hanswer
    obtain ⟨saved, hmem, hsaved⟩ := mem_of_inMemory? hmemory
    obtain ⟨earlier, later, hpast, hlater⟩ := h _ hmem
    exact .remembered hpast hlater hsaved hcurrent
  | fromFile hmode _ hload hcurrent =>
    cases hanswer
    obtain ⟨content, hread, hholds⟩ := holds_of_load hload
    exact .stored hmode hread hholds hcurrent
  | compiled _ _ hcompile =>
    cases hanswer
    exact .compiled rfl hcompile
  | saved _ _ hcompile =>
    cases hanswer
    exact .compiled rfl hcompile
  | memoryUnchecked => cases hanswer
  | unreadable => cases hanswer
  | fileUnchecked => cases hanswer
  | failed => cases hanswer
  | unsaved => cases hanswer

end Origin

/-- After any calls on a new cache, with the files changed in any way between them: a template that
is served comes from where it may come from, and a file that holds no entry for the fingerprint,
where memory has none either, is no error and is replaced by an entry for it. -/
theorem fetch_served (mode : CacheMode) (start : Files) (calls : List ((Files → Files) × Call))
    (files : Files) (fingerprint : Fingerprint) (isCurrent : Template → Except Error Bool)
    (compile : Unit → Except Error Template) :
    let past := ((ofMode mode).run start calls).1
    let c := ((ofMode mode).run start calls).2.1
    let fetched := c.fetch files fingerprint isCurrent compile
    (∀ shared, fetched.answer = .ok shared →
      Origin mode past files fingerprint isCurrent compile fetched.compiled shared) ∧
    ∀ directory d content, mode = .durable directory → c.Lacks fingerprint isCurrent →
      files.read (entryFile directory fingerprint) = .ok content →
      (∀ t, ¬ CacheEntry.Holds content fingerprint t) →
      files.find directory = .ok (d, .directory) →
      files.entryAt (d ++ [draftName fingerprint]) ≠ some .directory →
      Replaces directory fingerprint compile fetched := by
  intro past c fetched
  have hmode : c.mode = mode := run_mode _ start calls
  have hremembers : Remembers past c := by
    have hstart : Remembers [] (ofMode mode) := fun e he => by cases he
    exact hstart.run start calls
  refine ⟨fun shared hanswer => hmode ▸ hremembers.origin hanswer, ?_⟩
  intro directory d content hdurable hmemory hread hnone hfind hdraft
  exact replaces (hmode.trans hdurable) hmemory hread hnone hfind hdraft

/-- A file that is no entry at all: the template is compiled, and its entry replaces the file. -/
theorem fetch_served_corrupt :
    let fingerprint := Fingerprint.ofText "a" .standard {}
    let files : Files :=
      ⟨[(["cache"], .directory), (["cache", entryName fingerprint], .file "?".toUTF8 0)]⟩
    let t : Template := ⟨{}, [.text "a"], []⟩
    let fetched := (ofMode (.durable ⟨"cache"⟩)).fetch files fingerprint (fun _ => .ok true)
      fun _ => .ok t
    ∃ shared, fetched.answer = .ok shared ∧
      Origin (.durable ⟨"cache"⟩) [] files fingerprint (fun _ => .ok true) (fun _ => .ok t)
        fetched.compiled shared ∧
      Replaces ⟨"cache"⟩ fingerprint (fun _ => .ok t) fetched := by
  intro fingerprint files t fetched
  have hserved := fetch_served (.durable ⟨"cache"⟩) files [] files fingerprint (fun _ => .ok true)
    fun _ => .ok t
  have hlacks : (ofMode (.durable ⟨"cache"⟩)).Lacks fingerprint fun _ => .ok true :=
    fun shared h => by cases h
  have hfind : files.find ⟨"cache"⟩ = .ok (["cache"], .directory) :=
    Files.find_eq_ok_iff.2 ⟨rfl, rfl⟩
  have hread : files.read (entryFile ⟨"cache"⟩ fingerprint) = .ok "?".toUTF8 := by
    have hentry : files.find (entryFile ⟨"cache"⟩ fingerprint) =
        .ok (["cache", entryName fingerprint], .file "?".toUTF8 0) :=
      Files.find_eq_ok_iff.2
        ⟨Files.locate_join (isName_entryName fingerprint) hfind, by simp [files, Files.entryAt]⟩
    rw [Files.read, hentry]
  have hnone (t : Template) : ¬ CacheEntry.Holds "?".toUTF8 fingerprint t := by
    rintro ⟨entry, hentry, -⟩
    have hjunk : (CacheEntry.ofBytes? "?".toUTF8).isNone = true := by decide +kernel
    rw [hentry] at hjunk
    cases hjunk
  have hdraft : files.entryAt (["cache"] ++ [draftName fingerprint]) ≠ some .directory := by
    have hne := draftName_ne_entryName fingerprint fingerprint
    simp [files, Files.entryAt, Ne.symm hne]
  have hreplaces := hserved.2 _ _ _ rfl hlacks hread hnone hfind hdraft
  cases hanswer : fetched.answer with
  | error error =>
    have hfailed := hreplaces.answer
    rw [show ((((ofMode (.durable ⟨"cache"⟩)).run files []).2.1.fetch files fingerprint
      (fun _ => .ok true) fun _ => .ok t)).answer = .error error from hanswer] at hfailed
    cases hfailed
  | ok shared => exact ⟨shared, rfl, hserved.1 shared hanswer, hreplaces⟩

end Cache

end Mustache
