import Mustache.Proofs.Cache.Counting

/-!
# Mustache.Proofs.Cache.Clearing

What clearing a cache takes away, and what it leaves.

When clearing succeeds, the files in the directory that have the extension of the cache are gone,
and the rest of the tree is as it was (`Cache.Swept`). No file that the cache can ever look into is
left, so it is a new cache but for what it has counted (`Cache.clear_resets`). Until a template is
fetched for a fingerprint again, none is kept for it (`Cache.Unkept.run`), whatever is fetched for
others whose entries have the same file.
-/

namespace Mustache

/-! ## Names and extensions -/

theorem Path.fileName_of_parts {p : Path} {front : List String} {name : String}
    (h : IsName name) (hparts : p.parts = front ++ [name]) : p.fileName = some name := by
  have hsteps : p.parts.filter (fun part => part != "" && part != ".") =
      front.filter (fun part => part != "" && part != ".") ++ [name] := by
    rw [hparts, List.filter_append]
    simp [h.ne_empty, h.ne_here]
  have hlast : p.components.getLast? = some name := by
    rw [components, hsteps]
    split
    · rw [← List.cons_append, List.getLast?_concat]
    · split
      · rw [← List.cons_append, List.getLast?_concat]
      · rw [List.getLast?_concat]
  have hroot : name ≠ "/" := by
    rintro rfl
    exact h.no_separator (by decide)
  rw [fileName, hlast]
  simp [hroot, h.ne_here, h.ne_up]

theorem IsName.fileName {name : String} (h : IsName name) :
    (Path.mk name).fileName = some name := by
  have halone : (Path.mk name).parts = [] ++ [name] := by
    rw [Path.parts, Text.split_of_not_mem h.no_separator]
    simp
  exact Path.fileName_of_parts h halone

theorem Path.extension_join {directory : Path} {name : String} (h : IsName name)
    (hne : directory.text.isEmpty = false) :
    (directory.join ⟨name⟩).extension = (Path.mk name).extension := by
  obtain ⟨front, hparts, -⟩ := parts_join h hne
  rw [extension, extension, fileName_of_parts h hparts, h.fileName]

theorem extension_entryName (fingerprint : Fingerprint) :
    (Path.mk (Cache.entryName fingerprint)).extension = some Cache.fileExtension := by
  rw [Path.extension, (isName_entryName fingerprint).fileName]
  dsimp only
  rw [splitExtension_entryName]
  simp

/-- All places are spelt with names that a directory can hold, as those of existing files are. -/
def Files.Named (files : Files) : Prop := ∀ e ∈ files.entries, ∀ name ∈ e.1, IsName name

namespace Cache

/-! ## What clearing removes -/

/-- The place is in the directory and has the extension of the cache. -/
def Owned (d p : Place) : Prop :=
  ∃ name, p = d ++ [name] ∧ (Path.mk name).extension = some fileExtension

theorem owned_entryName (d : Place) (fingerprint : Fingerprint) :
    Owned d (d ++ [entryName fingerprint]) :=
  ⟨_, rfl, extension_entryName fingerprint⟩

/-- Nothing in the directory has the extension of the cache any more, and the rest of the tree is
as it was. -/
structure Swept (d : Place) (files left : Files) : Prop where
  removed {p} : Owned d p → left.entryAt p = none
  kept {p} : ¬ Owned d p → left.entryAt p = files.entryAt p

section Remove

variable {directory : Path} {d : Place} {files left : Files} {listed : List (String × Entry)}

/-- What is listed and has the extension of the cache goes, and nothing else does. -/
theorem removeEntries_removes (hfind : files.find directory = .ok (d, .directory))
    (hnames : ∀ e ∈ listed, IsName e.1)
    (hremove : removeEntries files directory listed = (.ok (), left)) :
    (∀ e ∈ listed, (Path.mk e.1).extension = some fileExtension →
      left.entryAt (d ++ [e.1]) = none) ∧
    ∀ p, ¬ Owned d p → left.entryAt p = files.entryAt p := by
  induction listed generalizing files with
  | nil =>
    cases hremove
    exact ⟨by simp, fun _ _ => rfl⟩
  | cons e listed ih =>
    obtain ⟨name, entry⟩ := e
    have hname : IsName name := hnames _ List.mem_cons_self
    have hrest : ∀ e ∈ listed, IsName e.1 := fun e he => hnames e (List.mem_cons_of_mem _ he)
    obtain ⟨-, -, hne⟩ := Files.walk_parts_of_find hfind
    rw [removeEntries, Path.extension_join hname hne] at hremove
    by_cases hextension : (Path.mk name).extension = some fileExtension
    · rw [if_pos (by simpa using hextension)] at hremove
      split at hremove
      · cases hremove
      · rename_i next hnext
        have hfewer := Files.Fewer.remove hnext
        obtain ⟨place, content, modified, hplace, hfound, rfl⟩ := Files.exists_of_remove hnext
        obtain rfl : d ++ [name] = place := Except.ok.inj
          ((Files.locate_join hname hfind).symm.trans (Files.find_eq_ok_iff.1 hfound).1)
        obtain ⟨hremoved, hkept⟩ := ih (hfewer.directories.find.2 hfind) hrest hremove
        -- The rest of the list only takes more away, so what went first does not come back.
        have hgone : left.entryAt (d ++ [name]) = none := by
          have hleft := removeEntries_fewer directory listed (files.drop (d ++ [name]))
          rw [hremove] at hleft
          refine hleft.eq_none ?_
          rw [Files.entryAt_drop hplace, if_pos rfl]
        refine ⟨fun e he hown => ?_, fun p hp => ?_⟩
        · rcases List.mem_cons.1 he with rfl | he
          · exact hgone
          · exact hremoved e he hown
        · rw [hkept p hp, Files.entryAt_drop hplace, if_neg]
          rintro rfl
          exact hp ⟨name, rfl, hextension⟩
    · rw [if_neg (by simpa using hextension)] at hremove
      obtain ⟨hremoved, hkept⟩ := ih hfind hrest hremove
      refine ⟨fun e he hown => ?_, hkept⟩
      rcases List.mem_cons.1 he with rfl | he
      · exact absurd hown hextension
      · exact hremoved e he hown

theorem clear_sweeps {c cleared : Cache} (hnamed : files.Named)
    (hmode : c.mode = .durable directory) (hfind : files.find directory = .ok (d, .directory))
    (hclear : c.clear files = (.ok (), cleared, left)) : Swept d files left := by
  cases hlist : files.list directory with
  | error fault =>
    rw [Files.list, hfind] at hlist
    cases hlist
  | ok listed =>
    have hremove : removeEntries files directory listed = (.ok (), left) := by
      simp only [clear, hmode, hlist, Prod.mk.injEq] at hclear
      exact Prod.ext hclear.1 hclear.2.2
    have hnames : ∀ e ∈ listed, IsName e.1 := fun e he =>
      hnamed _ ((Files.mem_list_iff hfind hlist e.1 e.2).1 he) e.1 (by simp)
    obtain ⟨hremoved, hkept⟩ := removeEntries_removes hfind hnames hremove
    refine ⟨?_, hkept _⟩
    rintro _ ⟨name, rfl, hextension⟩
    have hfewer := c.clear_fewer files
    rw [hclear] at hfewer
    cases hentry : left.entryAt (d ++ [name]) with
    | none => rfl
    | some entry =>
      have hmem := Files.mem_entries_of_entryAt (Place.append_name_ne_nil _ _)
        (hfewer.eq_some hentry)
      have hgone := hremoved _ ((Files.mem_list_iff hfind hlist name entry).2 hmem) hextension
      rw [hentry] at hgone
      cases hgone

end Remove

/-! ## Fingerprints that nothing is kept for -/

/-- No template is kept for the fingerprint: none is in memory, and its file, if there is one, was
saved for another fingerprint. -/
structure Unkept (fingerprint : Fingerprint) (c : Cache) (files : Files) : Prop where
  memory : c.inMemory? fingerprint = none
  file {directory} : c.mode = .durable directory →
    ∃ d, files.find directory = .ok (d, .directory) ∧
      ∀ entry, files.entryAt (d ++ [entryName fingerprint]) = some entry →
        ∃ saved t, ¬ saved == fingerprint ∧ entry = (CacheEntry.fileAt d saved t).2

def Call.isFor (fingerprint : Fingerprint) : Call → Bool
  | .fetch other _ _ => other == fingerprint
  | _ => false

namespace Unkept

variable {fingerprint : Fingerprint} {c : Cache} {files : Files}

theorem load (h : Unkept fingerprint c files) {directory : Path}
    (hmode : c.mode = .durable directory) :
    Cache.load files (entryFile directory fingerprint) fingerprint = .ok none := by
  obtain ⟨d, hfind, hentries⟩ := h.file hmode
  cases hentry : files.entryAt (d ++ [entryName fingerprint]) with
  | none => exact load_of_missing hfind hentry
  | some entry =>
    obtain ⟨saved, t, hother, rfl⟩ := hentries entry hentry
    rw [load_of_entryAt hfind hentry, if_neg fun hboth => hother hboth.2]

theorem misses (h : Unkept fingerprint c files) (henabled : c.mode ≠ .disabled)
    (isCurrent : Template → Except Error Bool) : c.Misses files fingerprint isCurrent where
  enabled := henabled
  memory shared hmemory := by
    rw [h.memory] at hmemory
    cases hmemory
  file hmode := ⟨none, h.load hmode, by simp⟩

theorem compiles (h : Unkept fingerprint c files) (isCurrent : Template → Except Error Bool)
    (compile : Unit → Except Error Template) :
    (c.fetch files fingerprint isCurrent compile).compiled = true := by
  by_cases henabled : c.mode = .disabled
  · rw [fetch, henabled]
    cases compile () <;> rfl
  · rw [(h.misses henabled isCurrent).fetch_eq, recompile_compiled]

variable {other : Fingerprint}

theorem remember (h : Unkept fingerprint c files) (hother : ¬ other == fingerprint)
    (shared : SharedTemplate) : Unkept fingerprint (c.remember other shared) files where
  memory := by rw [inMemory?_remember, if_neg hother, h.memory]
  file := h.file

/-- The entry of another fingerprint may come to have the same file. -/
theorem save (h : Unkept fingerprint c files) (hother : ¬ other == fingerprint) {directory : Path}
    (hmode : c.mode = .durable directory) {t : Template} {saved : Files}
    (hsave : Cache.save files (entryFile directory other) other t = .ok saved) :
    Unkept fingerprint c saved where
  memory := h.memory
  file hmode' := by
    obtain rfl := CacheMode.durable.inj (hmode.symm.trans hmode')
    obtain ⟨d, hfind, hentries⟩ := h.file hmode
    refine ⟨d, (save_directories hfind hsave).find.2 hfind, fun entry hentry => ?_⟩
    obtain ⟨-, -, rfl⟩ := (save_eq_ok_iff hfind).1 hsave
    rw [entryAt_withEntry] at hentry
    split at hentry
    · cases hentry
      exact ⟨other, t, hother, rfl⟩
    · split at hentry
      · cases hentry
      · exact hentries entry hentry

theorem fewer (h : Unkept fingerprint c files) {left : Files} (hfewer : files.Fewer left) :
    Unkept fingerprint c.clearMemory left where
  memory := inMemory?_of_stored rfl fingerprint
  file hmode := by
    obtain ⟨d, hfind, hentries⟩ := h.file hmode
    exact ⟨d, hfewer.directories.find.2 hfind, fun entry hentry =>
      hentries entry (hfewer.eq_some hentry)⟩

/-- Only a call that fetches the template can make the cache keep one. -/
theorem make (h : Unkept fingerprint c files) {call : Call}
    (hother : call.isFor fingerprint = false) :
    Unkept fingerprint (c.make files call).2.1 (c.make files call).2.2 := by
  cases call with
  | fetch other isCurrent compile =>
    replace hother : ¬ other == fingerprint := by simpa [Call.isFor] using hother
    have hcounted : Unkept fingerprint c.countCompilation files := ⟨h.memory, h.file⟩
    have hfetches := c.fetches files other isCurrent compile
    rw [Cache.make]
    generalize c.fetch files other isCurrent compile = fetched at hfetches ⊢
    cases hfetches with
    | uncached => exact hcounted
    | unsaved => exact hcounted
    | fromMemory => exact ⟨h.memory, h.file⟩
    | fromFile =>
      have hhit : Unkept fingerprint c.countDurableHit files := ⟨h.memory, h.file⟩
      exact hhit.remember hother _
    | compiled => exact hcounted.remember hother _
    | saved _ hmode _ hsave => exact (hcounted.save hother hmode hsave).remember hother _
    | _ => exact h
  | clear =>
    show Unkept fingerprint (c.clear files).2.1 (c.clear files).2.2
    rw [clear_cache]
    exact h.fewer (c.clear_fewer files)
  | clearMemory => exact h.fewer (.refl files)

theorem run (h : Unkept fingerprint c files) {calls : List Call}
    (hothers : ∀ call ∈ calls, call.isFor fingerprint = false) :
    Unkept fingerprint (c.run files (calls.map ((id, ·)))).2.1
      (c.run files (calls.map ((id, ·)))).2.2 := by
  induction calls generalizing c files with
  | nil => exact h
  | cons call calls ih =>
    exact ih (h.make (hothers call List.mem_cons_self)) fun call hcall =>
      hothers call (List.mem_cons_of_mem _ hcall)

end Unkept

/-! ## Clearing -/

section Clear

variable {c cleared : Cache} {files left : Files}

theorem find_of_clear {directory : Path} {d : Place}
    (hfind : files.find directory = .ok (d, .directory)) {answer : Except Error Unit}
    (hclear : c.clear files = (answer, cleared, left)) :
    left.find directory = .ok (d, .directory) := by
  have hfewer := c.clear_fewer files
  rw [hclear] at hfewer
  exact hfewer.directories.find.2 hfind

theorem unkept_of_clear (hnamed : files.Named)
    (hdirectory : ∀ directory, c.mode = .durable directory →
      ∃ d, files.find directory = .ok (d, .directory))
    (hclear : c.clear files = (.ok (), cleared, left)) (fingerprint : Fingerprint) :
    Unkept fingerprint cleared left := by
  obtain rfl : cleared = c.clearMemory := by
    rw [← c.clear_cache files, hclear]
  refine ⟨inMemory?_of_stored rfl fingerprint, fun {directory} hmode => ?_⟩
  obtain ⟨d, hfind⟩ := hdirectory directory hmode
  have hswept := clear_sweeps hnamed hmode hfind hclear
  refine ⟨d, find_of_clear hfind hclear, fun entry hentry => ?_⟩
  rw [hswept.removed (owned_entryName d fingerprint)] at hentry
  cases hentry

theorem create_of_find {mode : CacheMode}
    (h : ∀ directory, mode = .durable directory → ∃ d, files.find directory = .ok (d, .directory)) :
    create mode files = .ok (ofMode mode, files) := by
  cases mode with
  | durable directory =>
    obtain ⟨d, hfind⟩ := h directory rfl
    rw [create, createDirectory_of_find hfind]
  | _ => rfl

/-- A cache that was cleared goes on as a new one over what is left of its directory: everything
with the extension of the cache, and nothing else, is gone from there. So the first fetch for each
fingerprint compiles again, whatever is fetched for others before. -/
theorem clear_resets (hnamed : files.Named)
    (hdirectory : ∀ directory, c.mode = .durable directory →
      ∃ d, files.find directory = .ok (d, .directory))
    (hclear : c.clear files = (.ok (), cleared, left)) :
    (∀ directory d, c.mode = .durable directory → files.find directory = .ok (d, .directory) →
      Swept d files left) ∧
    ((∀ directory, c.mode ≠ .durable directory) → left = files) ∧
    create c.mode left = .ok (ofMode c.mode, left) ∧
    (ofMode c.mode).Resumes c.stats cleared left ∧
    ∀ (fingerprint : Fingerprint) (calls : List Call),
      (∀ call ∈ calls, call.isFor fingerprint = false) →
      let later := cleared.run left (calls.map ((id, ·)))
      ∀ isCurrent compile,
        (later.2.1.fetch later.2.2 fingerprint isCurrent compile).compiled = true := by
  refine ⟨fun directory d hmode hfind => clear_sweeps hnamed hmode hfind hclear, fun hmode => ?_,
    ?_, ?_, fun fingerprint calls hothers => ?_⟩
  · rw [clear] at hclear
    split at hclear
    · rename_i hdurable
      exact absurd hdurable (hmode _)
    · exact (congrArg (·.2.2) hclear).symm
  · refine create_of_find fun directory hmode => ?_
    obtain ⟨d, hfind⟩ := hdirectory directory hmode
    exact ⟨d, find_of_clear hfind hclear⟩
  · obtain rfl : cleared = c.clearMemory := by
      rw [← c.clear_cache files, hclear]
    have hahead : Ahead c.stats (ofMode c.mode) c.clearMemory :=
      ⟨rfl, (CacheStats.zero_add c.stats).symm, fun _ => rfl⟩
    exact hahead.resumes left
  · exact ((unkept_of_clear hnamed hdirectory hclear fingerprint).run hothers).compiles

end Clear

/-- Two files go, one that was saved and one that only has the extension; a foreign file stays. -/
theorem clear_resets_foreign :
    let fingerprint := Fingerprint.ofText "a" .standard {}
    let t : Template := ⟨{}, [.text "a"], []⟩
    let c : Cache := ⟨.durable ⟨"cache"⟩, [(fingerprint, ⟨t, 0⟩)], ⟨1, 0, 1⟩⟩
    let files : Files := ⟨[(["cache"], .directory), CacheEntry.fileAt ["cache"] fingerprint t,
      (["cache", "notes.txt"], .file "?".toUTF8 0),
      (["cache", "a.mustache_cache"], .file "?".toUTF8 0)]⟩
    files.Named ∧
    (∀ directory, c.mode = .durable directory → ∃ d, files.find directory = .ok (d, .directory)) ∧
    ∃ left, c.clear files = (.ok (), c.clearMemory, left) ∧
      Swept ["cache"] files left ∧
      left.entryAt ["cache", entryName fingerprint] = none ∧
      left.entryAt ["cache", "a.mustache_cache"] = none ∧
      create c.mode left = .ok (ofMode c.mode, left) ∧
      (ofMode c.mode).Resumes c.stats c.clearMemory left ∧
      (c.clearMemory.fetch left fingerprint (fun _ => .ok true) fun _ => .ok t).compiled =
        true := by
  intro fingerprint t c files
  have hnamed : files.Named := by
    have hcache : IsName "cache" := ⟨by decide, by decide, by decide, by decide⟩
    have hnotes : IsName "notes.txt" := ⟨by decide, by decide, by decide, by decide⟩
    have hother : IsName "a.mustache_cache" := ⟨by decide, by decide, by decide, by decide⟩
    have hentry := isName_entryName fingerprint
    simp [Files.Named, files, CacheEntry.fileAt, hcache, hnotes, hother, hentry]
  have hfind : files.find ⟨"cache"⟩ = .ok (["cache"], .directory) :=
    Files.find_eq_ok_iff.2 ⟨rfl, rfl⟩
  have hdirectory : ∀ directory, c.mode = .durable directory →
      ∃ d, files.find directory = .ok (d, .directory) := by
    intro directory hmode
    obtain rfl := CacheMode.durable.inj hmode
    exact ⟨_, hfind⟩
  have hcleared : (c.clear files).1.toBool = true := by decide +kernel
  obtain ⟨left, hclear⟩ : ∃ left, c.clear files = (.ok (), c.clearMemory, left) := by
    have hmemory := c.clear_cache files
    rcases hcall : c.clear files with ⟨answer, cleared, left⟩
    rw [hcall] at hcleared hmemory
    cases answer with
    | error error => cases hcleared
    | ok done => exact ⟨left, by rw [← hmemory]⟩
  obtain ⟨hswept, -, hcreate, hresumes, hcompiles⟩ := clear_resets hnamed hdirectory hclear
  have hleft := hswept _ _ rfl hfind
  exact ⟨hnamed, hdirectory, left, hclear, hleft, hleft.removed (owned_entryName ["cache"] _),
    hleft.removed ⟨"a.mustache_cache", rfl, by decide +kernel⟩, hcreate, hresumes,
    hcompiles fingerprint [] (by simp) _ _⟩

end Cache

end Mustache
