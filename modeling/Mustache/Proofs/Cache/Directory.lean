import Mustache.Proofs.Cache.EntryFile

/-!
# Mustache.Proofs.Cache.Directory

The directory of a cache, in a tree of files.

`Overlay P d base files`: below the place `d` the tree `files` holds entries of templates that
satisfy `P` and nothing else, and elsewhere it is the tree `base`, which holds nothing below `d`.
Loading, saving and clearing keep this so (`Overlay.load`, `Overlay.save`, `Overlay.clear`), and a
path that does not lead to an entry leads to the same in both trees (`Overlay.find_iff`).
-/

namespace Mustache

/-! ## Inside and outside of a directory -/

def Place.below (d p : Place) : Bool := d.isPrefixOf p && p != d

theorem Place.below_append_name (d : Place) (name : String) :
    Place.below d (d ++ [name]) = true := by
  simp [below, List.isPrefixOf_iff_prefix]

theorem Place.below_of_dropLast {d p : Place} (hp : p ≠ []) (h : p.dropLast = d) :
    Place.below d p = true := by
  subst h
  have := Place.below_append_name p.dropLast (p.getLast hp)
  rwa [List.dropLast_concat_getLast] at this

namespace Files

def inside (files : Files) (d : Place) : List (Place × Entry) :=
  files.entries.filter fun e => d.below e.1

def outside (files : Files) (d : Place) : Files :=
  ⟨files.entries.filter fun e => !d.below e.1⟩

/-- The tree after everything outside of a directory has become as it is in another tree. -/
def edit (files : Files) (d : Place) (other : Files) : Files :=
  ⟨(other.outside d).entries ++ files.inside d⟩

variable {files other : Files} {d : Place}

theorem entryAt_outside {p : Place} (h : d.below p = false) :
    (files.outside d).entryAt p = files.entryAt p := by
  by_cases hp : p = []
  · subst hp
    rfl
  rw [entryAt_of_ne_nil hp, entryAt_of_ne_nil hp, outside, List.find?_filter]
  congr 2
  funext e
  by_cases he : e.1 = p
  · simp [he, h]
  · simp [he]

theorem inside_outside : (files.outside d).inside d = [] := by
  rw [inside, outside, List.filter_filter, List.filter_eq_nil_iff]
  intro e _
  cases d.below e.1 <;> simp

theorem inside_edit : (files.edit d other).inside d = files.inside d := by
  have hnone : (other.outside d).entries.filter (fun e => d.below e.1) = [] := inside_outside
  rw [inside, edit, List.filter_append, hnone, List.nil_append, inside, List.filter_filter]
  simp

theorem entryAt_edit {p : Place} (h : d.below p = false) :
    (files.edit d other).entryAt p = other.entryAt p := by
  by_cases hp : p = []
  · subst hp
    rfl
  have hinside : (files.inside d).find? (·.1 == p) = none := by
    rw [List.find?_eq_none]
    intro e he
    have : d.below e.1 = true := (List.mem_filter.1 he).2
    intro hep
    rw [show e.1 = p by simpa using hep, h] at this
    cases this
  rw [entryAt_of_ne_nil hp, edit, List.find?_append, hinside, Option.or_none,
    ← entryAt_of_ne_nil hp,
    entryAt_outside h]

theorem edit_of_inside_eq_nil (h : files.inside d = []) :
    files.edit d other = other.outside d := by
  rw [edit, h, List.append_nil]

theorem mem_inside_of_entryAt {p : Place} {entry : Entry} (hp : p ≠ [])
    (hbelow : d.below p = true) (h : files.entryAt p = some entry) :
    (p, entry) ∈ files.inside d :=
  List.mem_filter.2 ⟨mem_entries_of_entryAt hp h, hbelow⟩

end Files

/-! ## Entries over a tree of files -/

structure Overlay (P : Fingerprint → Template → Prop) (d : Place) (base files : Files) : Prop where
  same {p} : d.below p = false → files.entryAt p = base.entryAt p
  clean : base.inside d = []
  entries : ∀ e ∈ files.inside d, ∃ fingerprint template, P fingerprint template ∧
    e = CacheEntry.fileAt d fingerprint template
  nodup : ((files.inside d).map (·.1)).Nodup

/-- The path does not lead to an entry of the directory. -/
def Path.Avoids (d : Place) (path : Path) : Prop :=
  ∀ fingerprint, path.place ≠ d ++ [Cache.entryName fingerprint]

/-- The path leads neither to an entry of the directory nor through one. -/
def Path.Apart (d : Place) (path : Path) : Prop :=
  ∀ fingerprint before, before <+: Files.steps path →
    before.foldl Place.follow [] ≠ d ++ [Cache.entryName fingerprint]

theorem Path.avoids_of_text {path : Path} {front extension : List Char}
    (htext : path.text.toList = front ++ '.' :: extension) (hne : extension ≠ [])
    (hslash : '/' ∉ extension) (hdot : '.' ∉ extension)
    (hother : extension ≠ Cache.fileExtension.toList) : path.Avoids d := by
  intro fingerprint hplace
  obtain ⟨init, c, rfl⟩ : ∃ init c, extension = init ++ [c] :=
    ⟨_, _, (List.dropLast_concat_getLast hne).symm⟩
  have htext' : path.text.toList = front ++ ('.' :: init ++ [c]) := htext
  obtain ⟨before, last, hbefore⟩ := Path.exists_place_eq htext' (by simpa using hslash)
    fun hc => hdot (by simp [hc])
  rw [hbefore] at hplace
  have hname : String.ofList (last ++ ('.' :: init ++ [c])) = Cache.entryName fingerprint := by
    simpa using congrArg List.getLast? hplace
  have hlist : last ++ '.' :: (init ++ [c])
      = fingerprint.digest.toList ++ '.' :: Cache.fileExtension.toList := by
    simpa [Cache.entryName] using congrArg String.toList hname
  -- What stands after the last dot is the extension, on both sides.
  have hreverse := congrArg (fun s => s.reverse.takeWhile (· != '.')) hlist
  simp only [(split_at_last _ hdot).1, (split_at_last _ Cache.dot_not_mem_fileExtension).1]
    at hreverse
  exact hother (List.reverse_inj.1 hreverse)

namespace Overlay

variable {P : Fingerprint → Template → Prop} {d : Place} {base files : Files}

theorem mono {Q : Fingerprint → Template → Prop} (h : Overlay P d base files)
    (hPQ : ∀ fingerprint template, P fingerprint template → Q fingerprint template) :
    Overlay Q d base files where
  same := h.same
  clean := h.clean
  entries e he := by
    obtain ⟨fingerprint, template, hP, heq⟩ := h.entries e he
    exact ⟨fingerprint, template, hPQ _ _ hP, heq⟩
  nodup := h.nodup

theorem base_below (h : Overlay P d base files) {p : Place} (hp : d.below p = true) :
    base.entryAt p = none := by
  cases hentry : base.entryAt p with
  | none => rfl
  | some entry =>
    have hne : p ≠ [] := by
      rintro rfl
      cases d <;> simp [Place.below, List.isPrefixOf] at hp
    have := Files.mem_inside_of_entryAt hne hp hentry
    rw [h.clean] at this
    cases this

theorem of_below (h : Overlay P d base files) {p : Place} {entry : Entry}
    (hp : d.below p = true) (hentry : files.entryAt p = some entry) :
    ∃ fingerprint template, P fingerprint template ∧
      (p, entry) = CacheEntry.fileAt d fingerprint template := by
  have hne : p ≠ [] := by
    rintro rfl
    cases d <;> simp [Place.below, List.isPrefixOf] at hp
  exact h.entries _ (Files.mem_inside_of_entryAt hne hp hentry)

theorem directory_iff (h : Overlay P d base files) (p : Place) :
    files.entryAt p = some .directory ↔ base.entryAt p = some .directory := by
  cases hp : d.below p with
  | false => rw [h.same hp]
  | true =>
    rw [h.base_below hp]
    refine ⟨fun hentry => ?_, fun hnone => by cases hnone⟩
    obtain ⟨fingerprint, template, -, heq⟩ := h.of_below hp hentry
    cases congrArg Prod.snd heq

theorem locate_iff (h : Overlay P d base files) (path : Path) (p : Place) :
    files.locate path = .ok p ↔ base.locate path = .ok p := by
  rw [Files.locate, Files.locate]
  split
  · exact Iff.rfl
  · exact ⟨Files.walk_of_directories fun q => (h.directory_iff q).1,
      Files.walk_of_directories fun q => (h.directory_iff q).2⟩

theorem entryAt_eq (h : Overlay P d base files) {p : Place}
    (hp : ∀ fingerprint, p ≠ d ++ [Cache.entryName fingerprint]) :
    files.entryAt p = base.entryAt p := by
  cases hbelow : d.below p with
  | false => exact h.same hbelow
  | true =>
    rw [h.base_below hbelow]
    cases hentry : files.entryAt p with
    | none => rfl
    | some entry =>
      obtain ⟨fingerprint, template, -, heq⟩ := h.of_below hbelow hentry
      exact absurd (congrArg Prod.fst heq) (hp fingerprint)

/-- A path that leads to no entry leads to the same in both trees. -/
theorem find_iff (h : Overlay P d base files) {path : Path} (hpath : path.Avoids d)
    (found : Place × Entry) : files.find path = .ok found ↔ base.find path = .ok found := by
  rw [Files.find_eq_ok_iff, Files.find_eq_ok_iff, h.locate_iff]
  refine and_congr_right fun hlocate => ?_
  obtain ⟨hplace, -⟩ := Files.place_of_locate hlocate
  rw [h.entryAt_eq fun fingerprint => hplace ▸ hpath fingerprint]

theorem find_eq (h : Overlay P d base files) {path : Path} (hpath : path.Apart d) :
    files.find path = base.find path := by
  have hlocate : files.locate path = base.locate path := by
    rw [Files.locate, Files.locate]
    split
    · rfl
    · exact Files.walk_congr fun before hbefore =>
        h.entryAt_eq fun fingerprint => hpath fingerprint before hbefore
  rw [Files.find, Files.find, hlocate]
  split
  · rfl
  · rename_i place hplace
    obtain ⟨rfl, -⟩ := Files.place_of_locate hplace
    rw [h.entryAt_eq (p := path.place) fun fingerprint => hpath fingerprint _ (List.prefix_refl _)]

theorem not_directory (h : Overlay P d base files) (fingerprint : Fingerprint) :
    files.entryAt (d ++ [Cache.entryName fingerprint]) ≠ some .directory := by
  intro hentry
  obtain ⟨_, _, -, heq⟩ := h.of_below (Place.below_append_name ..) hentry
  cases congrArg Prod.snd heq

end Overlay

/-! ## Loading -/

section Durable

variable {P : Fingerprint → Template → Prop} {d : Place} {base files : Files} {directory : Path}

variable (h : Overlay P d base files) (hbase : base.find directory = .ok (d, .directory))
include h hbase

theorem Overlay.find_directory : files.find directory = .ok (d, .directory) :=
  find_directory_of_directories (fun p => (h.directory_iff p).2) hbase

/-- Loading does not fail, and what it finds was saved under the same fingerprint. -/
theorem Overlay.load (fingerprint : Fingerprint) :
    ∃ found, Cache.load files (Cache.entryFile directory fingerprint) fingerprint = .ok found ∧
      ∀ template ∈ found, ∃ saved, saved == fingerprint ∧ P saved template := by
  have hfind := h.find_directory hbase
  cases hentry : files.entryAt (d ++ [Cache.entryName fingerprint]) with
  | none => exact ⟨none, Cache.load_of_missing hfind hentry, by simp⟩
  | some entry =>
    obtain ⟨saved, template, hP, heq⟩ := h.of_below (Place.below_append_name ..) hentry
    obtain rfl := congrArg Prod.snd heq
    refine ⟨_, Cache.load_of_entryAt hfind hentry, fun t ht => ?_⟩
    split at ht
    · rename_i hsaved
      cases ht
      exact ⟨saved, hsaved.2, hP⟩
    · cases ht

end Durable

/-! ## Saving -/

namespace Files

variable {files : Files} {d : Place}

theorem mem_inside_put {place : Place} {entry : Entry} {e : Place × Entry}
    (h : e ∈ (files.put place entry).inside d) : e = (place, entry) ∨ e ∈ files.inside d := by
  rw [inside, List.mem_filter, put] at h
  split at h
  · obtain ⟨e', he', rfl⟩ := List.mem_map.1 h.1
    split
    · exact .inl rfl
    · rename_i hne
      rw [if_neg hne] at h
      exact .inr (List.mem_filter.2 ⟨he', h.2⟩)
  · rcases List.mem_cons.1 h.1 with rfl | hmem
    · exact .inl rfl
    · exact .inr (List.mem_filter.2 ⟨hmem, h.2⟩)

theorem nodup_inside_put {place : Place} (hplace : place ≠ []) (entry : Entry)
    (h : ((files.inside d).map (·.1)).Nodup) :
    (((files.put place entry).inside d).map (·.1)).Nodup := by
  have hkeys : ∀ entries : List (Place × Entry),
      ((entries.filter fun e => d.below e.1).map (·.1))
        = (entries.map (·.1)).filter fun p => d.below p := by
    intro entries
    rw [List.filter_map]
    rfl
  rw [inside, hkeys] at h ⊢
  rw [put]
  split
  · have : ((files.entries.map fun e => if e.1 == place then (place, entry) else e).map (·.1))
        = files.entries.map (·.1) := by
      rw [List.map_map]
      refine List.map_congr_left fun e _ => ?_
      by_cases he : e.1 = place <;> simp [he]
    rwa [this]
  · rename_i hnone
    have hnew := (entryAt_eq_none_iff hplace).1 (by simpa using hnone)
    rw [List.map_cons, List.filter_cons]
    split
    · refine List.nodup_cons.2 ⟨fun hmem => ?_, h⟩
      obtain ⟨e, he, heq⟩ := List.mem_map.1 (List.mem_filter.1 hmem).1
      exact hnew e he heq
    · exact h

end Files

section Durable

variable {P : Fingerprint → Template → Prop} {d : Place} {base files : Files} {directory : Path}

theorem Overlay.put (h : Overlay P d base files) {fingerprint : Fingerprint} {template : Template}
    (hP : P fingerprint template) :
    Overlay P d base (files.put (d ++ [Cache.entryName fingerprint])
      (CacheEntry.fileAt d fingerprint template).2) where
  same hp := by
    rw [Files.entryAt_put (Place.append_name_ne_nil _ _), if_neg, h.same hp]
    rintro rfl
    rw [Place.below_append_name] at hp
    cases hp
  clean := h.clean
  entries e he := by
    rcases Files.mem_inside_put he with rfl | he
    · exact ⟨fingerprint, template, hP, rfl⟩
    · exact h.entries e he
  nodup := Files.nodup_inside_put (Place.append_name_ne_nil _ _) _ h.nodup

theorem Overlay.entryAt_draft (h : Overlay P d base files) (fingerprint : Fingerprint) :
    files.entryAt (d ++ [Cache.draftName fingerprint]) = none := by
  cases hentry : files.entryAt (d ++ [Cache.draftName fingerprint]) with
  | none => rfl
  | some entry =>
    obtain ⟨other, _, -, heq⟩ := h.of_below (Place.below_append_name ..) hentry
    have hname : Cache.draftName fingerprint = Cache.entryName other := by
      simpa [CacheEntry.fileAt] using congrArg Prod.fst heq
    exact absurd hname (draftName_ne_entryName fingerprint other)

theorem Overlay.works (h : Overlay P d base files)
    (hbase : base.find directory = .ok (d, .directory)) (fingerprint : Fingerprint) :
    Cache.Works files directory d fingerprint :=
  ⟨h.find_directory hbase, h.entryAt_draft fingerprint, h.not_directory fingerprint⟩

theorem Overlay.save (h : Overlay P d base files)
    (hbase : base.find directory = .ok (d, .directory)) {fingerprint : Fingerprint}
    {template : Template} (hP : P fingerprint template) :
    ∃ saved, Cache.save files (Cache.entryFile directory fingerprint) fingerprint template
        = .ok saved ∧ Overlay P d base saved :=
  ⟨_, (h.works hbase fingerprint).save_eq template, h.put hP⟩

/-! ## Creating -/

theorem createSteps_of_walk {steps : List String} : ∀ {here p : Place},
    files.walk here steps = .ok p → files.entryAt p = some .directory →
      files.createSteps here steps = .ok files := by
  induction steps with
  | nil => exact fun _ _ => rfl
  | cons step steps ih =>
    intro here p hwalk hp
    have hstart : ∀ {q : Place}, files.walk q steps = .ok p →
        files.entryAt q = some .directory := by
      intro q hq
      cases steps with
      | nil =>
        cases hq
        exact hp
      | cons next rest =>
        rw [Files.walk] at hq
        split at hq
        · cases hq
        · cases hq
        · assumption
    rw [Files.walk] at hwalk
    rw [Files.createSteps]
    split at hwalk
    · cases hwalk
    · cases hwalk
    · split at hwalk
      · rename_i hstep
        rw [if_pos hstep]
        exact ih hwalk hp
      · rename_i hstep
        rw [if_neg hstep]
        split at hwalk
        · rename_i hup
          rw [if_pos hup]
          split at hwalk
          · cases hwalk
          · rename_i hempty
            rw [if_neg hempty]
            exact ih hwalk hp
        · rename_i hup
          rw [if_neg hup, hstart hwalk]
          exact ih hwalk hp

theorem createDirectory_of_find (hfind : files.find directory = .ok (d, .directory)) :
    files.createDirectory directory = .ok files := by
  obtain ⟨hwalk, hentry, -⟩ := Files.walk_parts_of_find hfind
  exact createSteps_of_walk hwalk hentry

end Durable

/-! ## Clearing -/

section Clearing

variable {P : Fingerprint → Template → Prop} {d : Place} {base files : Files} {directory : Path}

theorem places_of_list (entries : List (Place × Entry)) :
    (entries.filterMap fun (p, entry) =>
      if p.dropLast == d then p.getLast?.map (·, entry) else none).map (fun e => (d ++ [e.1], e.2))
      = entries.filter fun e => e.1.dropLast == d && e.1 != [] := by
  induction entries with
  | nil => rfl
  | cons e entries ih =>
    obtain ⟨p, entry⟩ := e
    rw [List.filterMap_cons, List.filter_cons]
    by_cases hd : p.dropLast = d
    · cases hlast : p.getLast? with
      | none =>
        obtain rfl := List.getLast?_eq_none_iff.1 hlast
        simpa [hd, hlast] using ih
      | some name =>
        obtain ⟨front, rfl⟩ := List.getLast?_eq_some_iff.1 hlast
        rw [List.dropLast_concat] at hd
        subst hd
        simpa using ih
    · simpa [hd] using ih

theorem Files.places_of_list_eq (hfind : files.find directory = .ok (d, .directory))
    {listed : List (String × Entry)} (hlist : files.list directory = .ok listed) :
    listed.map (fun e => (d ++ [e.1], e.2)) =
      files.entries.filter fun e => e.1.dropLast == d && e.1 != [] := by
  rw [list, hfind] at hlist
  rw [← places_of_list, ← Except.ok.inj hlist]

theorem Files.mem_list_iff (hfind : files.find directory = .ok (d, .directory))
    {listed : List (String × Entry)} (hlist : files.list directory = .ok listed) (name : String)
    (entry : Entry) : (name, entry) ∈ listed ↔ (d ++ [name], entry) ∈ files.entries := by
  have hmem : (name, entry) ∈ listed ↔
      (d ++ [name], entry) ∈ listed.map fun e => (d ++ [e.1], e.2) := by simp
  rw [hmem, places_of_list_eq hfind hlist, List.mem_filter]
  simp

theorem Overlay.drop (h : Overlay P d base files) (name : String) :
    Overlay P d base (files.drop (d ++ [name])) := by
  have hsub : (files.drop (d ++ [name])).inside d
      = (files.inside d).filter fun e => e.1 != d ++ [name] := by
    rw [Files.inside, Files.inside, Files.drop, List.filter_filter, List.filter_filter]
    congr 1
    funext e
    exact Bool.and_comm ..
  refine ⟨fun hp => ?_, h.clean, fun e he => ?_, ?_⟩
  · rw [Files.entryAt_drop (Place.append_name_ne_nil _ _), if_neg, h.same hp]
    rintro rfl
    rw [Place.below_append_name] at hp
    cases hp
  · rw [hsub] at he
    exact h.entries e (List.mem_filter.1 he).1
  · rw [hsub]
    exact h.nodup.sublist (List.filter_sublist.map _)

theorem Overlay.removeEntries (hbase : base.find directory = .ok (d, .directory)) :
    ∀ {listed : List (String × Entry)} {files : Files}, Overlay P d base files →
      (∀ e ∈ listed, (files.entryAt (d ++ [e.1])).isSome) → (listed.map (·.1)).Nodup →
      ∃ left, Cache.removeEntries files directory listed = (.ok (), left) ∧
        Overlay P d base left := by
  intro listed
  induction listed with
  | nil => exact fun h _ _ => ⟨_, rfl, h⟩
  | cons e listed ih =>
    intro files h hthere hnodup
    obtain ⟨name, entry⟩ := e
    rw [List.map_cons, List.nodup_cons] at hnodup
    rw [Cache.removeEntries]
    split
    · obtain ⟨found, hfound⟩ := Option.isSome_iff_exists.1 (hthere _ List.mem_cons_self)
      obtain ⟨fingerprint, template, hP, heq⟩ := h.of_below (Place.below_append_name ..) hfound
      obtain rfl := congrArg Prod.snd heq
      have hname : name = Cache.entryName fingerprint := by
        simpa [CacheEntry.fileAt] using congrArg Prod.fst heq
      have hlocate : files.locate (directory.join ⟨name⟩) = .ok (d ++ [name]) := by
        rw [hname]
        exact Files.locate_join (isName_entryName fingerprint) (h.find_directory hbase)
      have hremove : files.remove (directory.join ⟨name⟩) = .ok (files.drop (d ++ [name])) := by
        rw [Files.remove, Files.find, hlocate]
        dsimp only
        rw [hfound]
        rfl
      rw [hremove]
      refine ih (h.drop name) (fun e he => ?_) hnodup.2
      rw [Files.entryAt_drop (Place.append_name_ne_nil _ _), if_neg]
      · exact hthere e (List.mem_cons_of_mem _ he)
      · intro heq
        have : e.1 = name := by simpa using heq
        exact hnodup.1 (this ▸ List.mem_map.2 ⟨e, he, rfl⟩)
    · exact ih h (fun e he => hthere e (List.mem_cons_of_mem _ he)) hnodup.2

theorem Overlay.listed (h : Overlay P d base files)
    (hfind : files.find directory = .ok (d, .directory)) {listed : List (String × Entry)}
    (hlist : files.list directory = .ok listed) :
    (∀ e ∈ listed, (files.entryAt (d ++ [e.1])).isSome) ∧ (listed.map (·.1)).Nodup := by
  refine ⟨fun e he => ?_, ?_⟩
  · have hmem := (Files.mem_list_iff hfind hlist e.1 e.2).1 he
    cases hentry : files.entryAt (d ++ [e.1]) with
    | none =>
      exact absurd rfl ((Files.entryAt_eq_none_iff (Place.append_name_ne_nil _ _)).1 hentry _ hmem)
    | some _ => rfl
  · have hinside : (files.entries.filter fun e => e.1.dropLast == d && e.1 != [])
        = (files.inside d).filter fun e => e.1.dropLast == d && e.1 != [] := by
      rw [Files.inside, List.filter_filter]
      refine List.filter_congr fun e _ => ?_
      cases hlisted : (e.1.dropLast == d && e.1 != []) with
      | false => rfl
      | true =>
        simp only [Bool.and_eq_true, beq_iff_eq, bne_iff_ne] at hlisted
        simp [Place.below_of_dropLast hlisted.2 hlisted.1]
    have hsublist : (listed.map fun e => (d ++ [e.1], e.2)).Sublist (files.inside d) := by
      rw [Files.places_of_list_eq hfind hlist, hinside]
      exact List.filter_sublist
    have hnodup := h.nodup.sublist (hsublist.map (·.1))
    rw [List.map_map] at hnodup
    refine List.pairwise_map.2 ((List.pairwise_map.1 hnodup).imp fun hne heq => hne ?_)
    exact congrArg (fun name => d ++ [name]) heq

/-- Clearing succeeds and forgets what is in memory. -/
theorem Overlay.clear (h : Overlay P d base files) (c : Cache)
    (hbase : ∀ directory, c.mode = .durable directory →
      base.find directory = .ok (d, .directory)) :
    ∃ left, c.clear files = (.ok (), c.clearMemory, left) ∧ Overlay P d base left := by
  rw [Cache.clear]
  split
  · rename_i directory hmode
    have hfind := h.find_directory (hbase directory hmode)
    cases hlist : files.list directory with
    | error fault =>
      rw [Files.list, hfind] at hlist
      cases hlist
    | ok listed =>
      obtain ⟨hthere, hnodup⟩ := h.listed hfind hlist
      obtain ⟨left, hremove, hleft⟩ := h.removeEntries (hbase directory hmode) hthere hnodup
      dsimp only
      rw [hremove]
      exact ⟨left, rfl, hleft⟩
  · exact ⟨files, rfl, h⟩

/-! ## Changes elsewhere -/

theorem Overlay.edit (h : Overlay P d base files) (other : Files) :
    Overlay P d (other.outside d) (files.edit d other) where
  same hp := by rw [Files.entryAt_edit hp, Files.entryAt_outside hp]
  clean := Files.inside_outside
  entries e he := by
    rw [Files.inside_edit] at he
    exact h.entries e he
  nodup := by
    rw [Files.inside_edit]
    exact h.nodup

theorem Overlay.refl (h : files.inside d = []) : Overlay P d files files where
  same _ := rfl
  clean := h
  entries e he := by
    rw [h] at he
    cases he
  nodup := by
    rw [h]
    exact List.nodup_nil

end Clearing

end Mustache
