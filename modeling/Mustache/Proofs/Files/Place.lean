import Mustache.Files
import Mustache.Proofs.Text.Splitting

/-!
# Mustache.Proofs.Files.Place

Where paths lead.

What is at a place after a change to a tree of files is said by `entryAt_put`, `entryAt_drop` and
`entryAt_dropTree`.
A walk that arrives somewhere arrives at the place that its steps spell (`follow_of_walk`). A
directory and a name in it lead to the place of the name below that of the directory (`walk_join`).
Trees with the same directories lead to the same places (`Files.SameDirectories`), and so does a
tree from which files were removed (`Files.Fewer`).
-/

namespace Mustache

namespace Files

variable {files files' : Files}

/-! ## Changes -/

theorem entryAt_of_ne_nil {p : Place} (h : p ≠ []) :
    files.entryAt p = (files.entries.find? (·.1 == p)).map (·.2) := by
  rw [entryAt, if_neg (by simpa using h)]
  cases files.entries.find? (·.1 == p) <;> rfl

theorem entryAt_nil : files.entryAt [] = some .directory := rfl

theorem mem_entries_of_entryAt {p : Place} {entry : Entry} (hp : p ≠ [])
    (h : files.entryAt p = some entry) : (p, entry) ∈ files.entries := by
  rw [entryAt_of_ne_nil hp] at h
  obtain ⟨⟨q, x⟩, hfind, rfl⟩ := Option.map_eq_some_iff.1 h
  have hq : q = p := by simpa using List.find?_some hfind
  rw [← hq]
  exact List.mem_of_find?_eq_some hfind

theorem entryAt_eq_none_iff {p : Place} (hp : p ≠ []) :
    files.entryAt p = none ↔ ∀ e ∈ files.entries, e.1 ≠ p := by
  rw [entryAt_of_ne_nil hp, Option.map_eq_none_iff, List.find?_eq_none]
  simp

theorem find?_map_put (entries : List (Place × Entry)) (place p : Place) (entry : Entry) :
    (entries.map fun e => if e.1 == place then (place, entry) else e).find? (·.1 == p) =
      if p = place then (entries.find? (·.1 == p)).map fun _ => (place, entry)
      else entries.find? (·.1 == p) := by
  induction entries with
  | nil => split <;> rfl
  | cons e entries ih =>
    rw [List.map_cons, List.find?_cons, List.find?_cons, ih]
    by_cases he : e.1 = place
    · by_cases hp : p = place
      · simp [he, hp]
      · have hne : (place == p) = false := beq_false_of_ne fun h => hp h.symm
        simp [he, hp, hne]
    · by_cases hp : p = place
      · subst hp
        have hne : (e.1 == p) = false := beq_false_of_ne he
        simp [hne]
      · simp [he, hp]

theorem entryAt_put {place : Place} (hplace : place ≠ []) (entry : Entry) (p : Place) :
    (files.put place entry).entryAt p = if p = place then some entry else files.entryAt p := by
  by_cases hp : p = []
  · subst hp
    rw [if_neg (fun h => hplace h.symm)]
    rfl
  rw [put]
  split
  · rename_i hsome
    rw [entryAt_of_ne_nil hp, find?_map_put, entryAt_of_ne_nil hp]
    split
    · rename_i heq
      subst heq
      rw [entryAt_of_ne_nil hp, Option.isSome_map] at hsome
      obtain ⟨x, hx⟩ := Option.isSome_iff_exists.1 hsome
      rw [hx]
      rfl
    · rfl
  · rw [entryAt_of_ne_nil hp, entryAt_of_ne_nil hp, List.find?_cons]
    by_cases heq : p = place
    · simp [heq]
    · have hne : (place == p) = false := beq_false_of_ne fun h => heq h.symm
      simp [heq, hne]

theorem entryAt_drop {place : Place} (hplace : place ≠ []) (p : Place) :
    (files.drop place).entryAt p = if p = place then none else files.entryAt p := by
  by_cases hp : p = []
  · subst hp
    rw [if_neg (fun h => hplace h.symm)]
    rfl
  rw [entryAt_of_ne_nil hp, drop, List.find?_filter]
  split
  · rename_i heq
    subst heq
    rw [Option.map_eq_none_iff, List.find?_eq_none]
    simp
  · rename_i hne
    rw [entryAt_of_ne_nil hp]
    congr 2
    funext e
    by_cases he : e.1 = p
    · simp [he, hne]
    · simp [he]

theorem entryAt_dropTree {place : Place} (hplace : place ≠ []) (p : Place) :
    (files.dropTree place).entryAt p = if place <+: p then none else files.entryAt p := by
  by_cases hp : p = []
  · subst hp
    rw [if_neg (fun h => hplace (List.prefix_nil.1 h))]
    rfl
  rw [entryAt_of_ne_nil hp, dropTree, List.find?_filter]
  split
  · rename_i hbelow
    rw [Option.map_eq_none_iff, List.find?_eq_none]
    rintro e -
    have hdropped := List.isPrefixOf_iff_prefix.2 hbelow
    by_cases he : e.1 = p
    · simp [he, hdropped]
    · simp [he]
  · rename_i hbelow
    rw [entryAt_of_ne_nil hp]
    congr 2
    funext e
    have hkept : place.isPrefixOf p = false :=
      Bool.eq_false_iff.2 fun h => hbelow (List.isPrefixOf_iff_prefix.1 h)
    by_cases he : e.1 = p
    · simp [he, hkept]
    · simp [he]

theorem drop_put {place : Place} (hplace : place ≠ []) (entry : Entry)
    (h : files.entryAt place = none) : (files.put place entry).drop place = files := by
  have hnone := (entryAt_eq_none_iff hplace).1 h
  rw [put, h]
  simp only [Option.isSome_none, Bool.false_eq_true, if_false, drop, List.filter_cons,
    bne_self_eq_false]
  have : files.entries.filter (fun e => e.1 != place) = files.entries :=
    List.filter_eq_self.2 fun e he => by simpa using hnone e he
  rw [this]

end Files

/-! ## Walks -/

def Place.follow (here : Place) (step : String) : Place :=
  if step = "." then here else if step = ".." then here.dropLast else here ++ [step]

/-- The place that the steps of a path spell. -/
def Path.place (path : Path) : Place := (Files.steps path).foldl Place.follow []

namespace Files

variable {files files' : Files}

theorem follow_of_walk {steps : List String} : ∀ {here p : Place},
    files.walk here steps = .ok p → p = steps.foldl Place.follow here := by
  induction steps with
  | nil =>
    intro here p h
    cases h
    rfl
  | cons step steps ih =>
    intro here p h
    rw [walk] at h
    split at h
    · cases h
    · cases h
    · rw [List.foldl_cons, Place.follow]
      split at h
      · rename_i hstep
        rw [if_pos hstep]
        exact ih h
      · rename_i hstep
        rw [if_neg hstep]
        split at h
        · rename_i hup
          rw [if_pos hup]
          split at h
          · cases h
          · exact ih h
        · rename_i hup
          rw [if_neg hup]
          exact ih h

theorem walk_append (xs ys : List String) : ∀ (here : Place),
    files.walk here (xs ++ ys) =
      match files.walk here xs with
      | .ok p => files.walk p ys
      | .error fault => .error fault := by
  induction xs with
  | nil => exact fun here => rfl
  | cons step xs ih =>
    intro here
    rw [List.cons_append, walk, walk]
    split
    · rfl
    · rfl
    · split
      · exact ih here
      · split
        · split
          · rfl
          · exact ih _
        · exact ih _

theorem walk_congr {steps : List String} : ∀ {here : Place},
    (∀ before, before <+: steps →
      files.entryAt (before.foldl Place.follow here)
        = files'.entryAt (before.foldl Place.follow here)) →
    files.walk here steps = files'.walk here steps := by
  induction steps with
  | nil => exact fun _ => rfl
  | cons step steps ih =>
    intro here h
    have hnext : files.walk (here.follow step) steps = files'.walk (here.follow step) steps :=
      ih fun before hbefore => h (step :: before) (List.cons_prefix_cons.2 ⟨rfl, hbefore⟩)
    rw [walk, walk, show files.entryAt here = files'.entryAt here from h [] (List.nil_prefix ..)]
    split
    · rfl
    · rfl
    · rw [Place.follow] at hnext
      split
      · rename_i hstep
        rwa [if_pos hstep] at hnext
      · rename_i hstep
        rw [if_neg hstep] at hnext
        split
        · rename_i hup
          rw [if_pos hup] at hnext
          split
          · rfl
          · exact hnext
        · rename_i hup
          rwa [if_neg hup] at hnext

theorem walk_of_directories
    (h : ∀ p, files.entryAt p = some .directory → files'.entryAt p = some .directory)
    {steps : List String} : ∀ {here p : Place},
    files.walk here steps = .ok p → files'.walk here steps = .ok p := by
  induction steps with
  | nil => exact fun h => h
  | cons step steps ih =>
    intro here p hwalk
    rw [walk] at hwalk ⊢
    split at hwalk
    · cases hwalk
    · cases hwalk
    · rename_i hhere
      rw [h here hhere]
      dsimp only
      split
      · rename_i hstep
        rw [if_pos hstep] at hwalk
        exact ih hwalk
      · rename_i hstep
        rw [if_neg hstep] at hwalk
        split
        · rename_i hup
          rw [if_pos hup] at hwalk
          split
          · rename_i hempty
            rw [if_pos hempty] at hwalk
            cases hwalk
          · rename_i hempty
            rw [if_neg hempty] at hwalk
            exact ih hwalk
        · rename_i hup
          rw [if_neg hup] at hwalk
          exact ih hwalk

/-! ## Paths -/

theorem place_of_locate {path : Path} {p : Place} (h : files.locate path = .ok p) :
    p = path.place ∧ path.text.isEmpty = false := by
  rw [locate] at h
  split at h
  · cases h
  · rename_i hpath
    exact ⟨follow_of_walk h, Bool.not_eq_true _ ▸ hpath⟩

theorem find_eq_ok_iff {path : Path} {found : Place × Entry} :
    files.find path = .ok found ↔
      files.locate path = .ok found.1 ∧ files.entryAt found.1 = some found.2 := by
  rw [find]
  constructor
  · intro h
    split at h
    · cases h
    · rename_i place hlocate
      split at h
      · cases h
      · rename_i entry hentry
        cases h
        exact ⟨hlocate, hentry⟩
  · rintro ⟨hlocate, hentry⟩
    rw [hlocate]
    dsimp only
    rw [hentry]

end Files

/-! ## Names in a directory -/

/-- A name that a directory can hold. -/
structure IsName (name : String) : Prop where
  ne_empty : name ≠ ""
  ne_here : name ≠ "."
  ne_up : name ≠ ".."
  no_separator : '/' ∉ name.toList

/-- A path whose text ends in the end of a name spells a place with that name. -/
theorem Path.exists_place_eq {path : Path} {front tail : List Char} {c : Char}
    (htext : path.text.toList = front ++ (tail ++ [c])) (hslash : '/' ∉ tail ++ [c])
    (hdot : c ≠ '.') :
    ∃ before last, path.place = before ++ [String.ofList (last ++ (tail ++ [c]))] := by
  obtain ⟨parts, last, hsplit⟩ := Text.split_last hslash front
  have hparts :
      path.parts = parts.map String.ofList ++ [String.ofList (last ++ (tail ++ [c]))] := by
    rw [Path.parts, htext, hsplit]
    simp
  have hends : ∀ s : String, s.toList.getLast? ≠ some c →
      String.ofList (last ++ (tail ++ [c])) ≠ s := by
    rintro s hs rfl
    exact hs (by simp)
  have hempty := hends "" (by simp)
  have hhere := hends "." (by simpa using fun h : '.' = c => hdot h.symm)
  have hup := hends ".." (by simpa using fun h : '.' = c => hdot h.symm)
  refine ⟨((parts.map String.ofList).filter (· != "")).foldl Place.follow [], last, ?_⟩
  generalize String.ofList (last ++ (tail ++ [c])) = name at *
  rw [Path.place, Files.steps, hparts, List.getLast?_concat, if_neg (by simpa using hempty),
    List.append_nil, List.filter_append, List.foldl_append]
  simp [hempty, Place.follow, hhere, hup]

theorem IsName.not_isAbsolute {name : String} (h : IsName name) :
    (Path.mk name).isAbsolute = false := by
  rw [Path.isAbsolute]
  cases hs : name.toList with
  | nil => rfl
  | cons c cs =>
    have hc : c ≠ '/' := by
      rintro rfl
      exact h.no_separator (by rw [hs]; exact List.mem_cons_self)
    simpa using hc

/-- The text of a name in a directory: that of the directory, perhaps a separator, the name. -/
theorem Path.join_text {directory : Path} (hne : directory.text.isEmpty = false) :
    ∃ front, (directory.text.toList = front ∨ directory.text.toList = front ++ ['/']) ∧
      ∀ {name}, IsName name →
        (directory.join ⟨name⟩).text.toList = front ++ '/' :: name.toList := by
  have hlist : directory.text.toList ≠ [] := by
    intro hnil
    rw [String.toList_eq_nil_iff] at hnil
    rw [hnil] at hne
    cases hne
  by_cases hlast : directory.text.toList.getLast? = some '/'
  · obtain ⟨front, hfront⟩ := List.getLast?_eq_some_iff.1 hlast
    refine ⟨front, .inr hfront, fun h => ?_⟩
    rw [join, h.not_isAbsolute, hlast]
    simp [hfront]
  · refine ⟨directory.text.toList, .inl rfl, fun h => ?_⟩
    rw [join, h.not_isAbsolute]
    simp only [Bool.false_eq_true, if_false]
    split
    · rename_i hnone
      exact absurd (List.getLast?_eq_none_iff.1 hnone) hlist
    · rename_i hslash
      exact absurd hslash hlast
    · simp

theorem Path.parts_join {directory : Path} {name : String} (h : IsName name)
    (hne : directory.text.isEmpty = false) :
    ∃ front, (directory.join ⟨name⟩).parts = front ++ [name] ∧
      front.filter (· != "") = directory.parts.filter (· != "") := by
  obtain ⟨front, hfront, htext⟩ := join_text hne
  refine ⟨(Text.split '/' front).map String.ofList, ?_, ?_⟩
  · rw [parts, htext h, Text.split_append, Text.split_of_not_mem h.no_separator]
    simp
  · rcases hfront with hfront | hfront
    · rw [parts, hfront]
    · rw [parts, hfront, Text.split_append]
      simp [Text.split]

namespace Files

variable {files : Files}

/-- A path that leads to a directory leads there also without the separators in it. -/
theorem walk_parts_of_find {directory : Path} {d : Place}
    (h : files.find directory = .ok (d, .directory)) :
    files.walk [] (directory.parts.filter (· != "")) = .ok d ∧
      files.entryAt d = some .directory ∧ directory.text.isEmpty = false := by
  rw [find] at h
  split at h
  · cases h
  · rename_i place hlocate
    split at h
    · cases h
    · rename_i entry hentry
      cases h
      obtain ⟨-, hne⟩ := place_of_locate hlocate
      refine ⟨?_, hentry, hne⟩
      rw [locate, hne] at hlocate
      simp only [Bool.false_eq_true, if_false] at hlocate
      rw [steps, walk_append] at hlocate
      split at hlocate
      · rename_i p hwalk
        rw [hwalk]
        split at hlocate
        · rw [walk] at hlocate
          split at hlocate
          · cases hlocate
          · cases hlocate
          · simp only [if_true] at hlocate
            cases hlocate
            rfl
        · exact hlocate
      · cases hlocate

theorem walk_join {directory : Path} {d : Place} {name : String} (h : IsName name)
    (hfind : files.find directory = .ok (d, .directory)) :
    files.walk [] (directory.parts.filter (· != "") ++ [name]) = .ok (d ++ [name]) := by
  obtain ⟨hwalk, hentry, -⟩ := walk_parts_of_find hfind
  rw [walk_append, hwalk]
  dsimp only
  rw [walk, hentry]
  simp only [if_neg h.ne_here, if_neg h.ne_up]
  rfl

theorem locate_join {directory : Path} {d : Place} {name : String} (h : IsName name)
    (hfind : files.find directory = .ok (d, .directory)) :
    files.locate (directory.join ⟨name⟩) = .ok (d ++ [name]) := by
  obtain ⟨-, -, hne⟩ := walk_parts_of_find hfind
  obtain ⟨front, hparts, hfront⟩ := Path.parts_join h hne
  have hempty : (directory.join ⟨name⟩).text.isEmpty = false := by
    obtain ⟨a, -, htext⟩ := Path.join_text hne
    replace htext := htext h
    cases hc : (directory.join ⟨name⟩).text.isEmpty with
    | false => rfl
    | true =>
      rw [String.isEmpty_iff.1 hc] at htext
      simp at htext
  rw [locate, hempty]
  simp only [Bool.false_eq_true, if_false]
  have hsteps : steps (directory.join ⟨name⟩) = directory.parts.filter (· != "") ++ [name] := by
    rw [steps, hparts]
    simp [List.filter_append, hfront, h.ne_empty]
  rw [hsteps]
  exact walk_join h hfind

/-- Where a file in a directory may be written: anywhere but in the place of a directory. -/
theorem locateFile_join_eq {directory : Path} {d : Place} {name : String} (h : IsName name)
    (hfind : files.find directory = .ok (d, .directory)) :
    files.locateFile (directory.join ⟨name⟩) =
      match files.entryAt (d ++ [name]) with
      | some .directory => .error .isDirectory
      | _ => .ok (d ++ [name]) := by
  obtain ⟨-, -, hne⟩ := walk_parts_of_find hfind
  obtain ⟨front, hparts, hfront⟩ := Path.parts_join h hne
  have hlocate := locate_join h hfind
  obtain ⟨-, hne'⟩ := place_of_locate hlocate
  rw [locateFile, hne']
  simp only [Bool.false_eq_true, if_false]
  have hsteps : (directory.join ⟨name⟩).parts.filter (· != "")
      = directory.parts.filter (· != "") ++ [name] := by
    rw [hparts]
    simp [List.filter_append, hfront, h.ne_empty]
  have hlast : (directory.join ⟨name⟩).parts.getLast? = some name := by
    rw [hparts]
    simp
  rw [hsteps, walk_join h hfind]
  dsimp only
  rw [hlast]
  split
  · rename_i hdirectory
    rw [hdirectory]
  · rename_i hname _
    exact absurd (Option.some.inj hname) h.ne_empty
  · rename_i hfile _
    split
    · rename_i hdirectory
      exact absurd hdirectory hfile
    · rfl

theorem locateFile_join {directory : Path} {d : Place} {name : String} (h : IsName name)
    (hfind : files.find directory = .ok (d, .directory))
    (hfile : files.entryAt (d ++ [name]) ≠ some .directory) :
    files.locateFile (directory.join ⟨name⟩) = .ok (d ++ [name]) := by
  rw [locateFile_join_eq h hfind]
  split
  · rename_i hdirectory
    exact absurd hdirectory hfile
  · rfl

end Files

/-! ## Directories -/

theorem Place.append_name_ne_nil (d : Place) (name : String) : d ++ [name] ≠ [] := by simp

section Directories

variable {files files' files'' : Files} {directory : Path} {d : Place}

theorem find_directory_of_directories
    (h : ∀ p, files.entryAt p = some .directory → files'.entryAt p = some .directory)
    (hfind : files.find directory = .ok (d, .directory)) :
    files'.find directory = .ok (d, .directory) := by
  obtain ⟨hlocate, hentry⟩ := Files.find_eq_ok_iff.1 hfind
  obtain ⟨-, hne⟩ := Files.place_of_locate hlocate
  refine Files.find_eq_ok_iff.2 ⟨?_, h d hentry⟩
  rw [Files.locate, hne] at hlocate ⊢
  exact Files.walk_of_directories h hlocate

/-- A file where no directory was hides none, so paths lead where they led before. -/
theorem find_directory_put {place : Place} (hplace : place ≠ []) (entry : Entry)
    (hne : files.entryAt place ≠ some .directory)
    (hfind : files.find directory = .ok (d, .directory)) :
    (files.put place entry).find directory = .ok (d, .directory) := by
  refine find_directory_of_directories (fun p hp => ?_) hfind
  rw [Files.entryAt_put hplace, if_neg, hp]
  rintro rfl
  exact hne hp

namespace Files

/-- Below the place that a path leads to nothing is left, and nothing else is different. -/
theorem entryAt_removeTree {path : Path} {place : Place} (hlocate : files.locate path = .ok place)
    (hplace : place ≠ []) (p : Place) :
    (files.removeTree path).entryAt p = if place <+: p then none else files.entryAt p := by
  rw [removeTree, hlocate]
  exact entryAt_dropTree hplace p

theorem read_of_write {path : Path} {content : ByteArray} {modified : Int} {written : Files}
    (h : files.write path content modified = .ok written) :
    written.read path = .ok content ∧
      ∀ p, p ≠ path.place → written.entryAt p = files.entryAt p := by
  rw [write] at h
  split at h
  · cases h
  rename_i place hplace
  cases h
  rw [locateFile] at hplace
  split at hplace
  · cases hplace
  rename_i hne
  split at hplace
  · cases hplace
  rename_i place' hwalk
  split at hplace
  · cases hplace
  · cases hplace
  rename_i hfile hlast
  cases hplace
  have hnil : place ≠ [] := by
    rintro rfl
    exact hfile entryAt_nil
  have hsteps : steps path = path.parts.filter (· != "") := by
    rw [steps, if_neg (fun h => hlast (beq_iff_eq.1 h)), List.append_nil]
  have hdirectory (q : Place) (hq : files.entryAt q = some .directory) :
      (files.put place (.file content modified)).entryAt q = some .directory := by
    rw [entryAt_put hnil, if_neg, hq]
    rintro rfl
    exact hfile hq
  have hlocate : (files.put place (.file content modified)).locate path = .ok place := by
    rw [locate, if_neg hne, hsteps]
    exact walk_of_directories hdirectory hwalk
  have hfind : (files.put place (.file content modified)).find path =
      .ok (place, .file content modified) :=
    find_eq_ok_iff.2 ⟨hlocate, by rw [entryAt_put hnil, if_pos rfl]⟩
  refine ⟨by rw [read, hfind], fun p hp => ?_⟩
  rw [entryAt_put hnil, if_neg fun hsame => hp (hsame.trans (place_of_locate hlocate).1)]

theorem read_of_writeWithParents {path : Path} {content : ByteArray} {modified : Int}
    {written : Files} (h : files.writeWithParents path content modified = .ok written) :
    written.read path = .ok content := by
  rw [writeWithParents] at h
  split at h
  · cases h
  · exact (read_of_write h).1

end Files

def Files.SameDirectories (files files' : Files) : Prop :=
  ∀ p, files'.entryAt p = some .directory ↔ files.entryAt p = some .directory

namespace Files.SameDirectories

theorem refl (files : Files) : SameDirectories files files := fun _ => Iff.rfl

theorem find (h : SameDirectories files files') :
    files'.find directory = .ok (d, .directory) ↔ files.find directory = .ok (d, .directory) :=
  ⟨find_directory_of_directories fun p => (h p).1, find_directory_of_directories fun p => (h p).2⟩

end Files.SameDirectories

theorem Files.exists_of_remove {path : Path} (h : files.remove path = .ok files') :
    ∃ place content modified, place ≠ [] ∧
      files.find path = .ok (place, .file content modified) ∧ files.drop place = files' := by
  rw [remove] at h
  split at h
  · cases h
  · cases h
  · rename_i place content modified hfind
    have hplace : place ≠ [] := by
      rintro rfl
      cases (find_eq_ok_iff.1 hfind).2
    exact ⟨place, content, modified, hplace, hfind, Except.ok.inj h⟩

/-- Some of the files are gone, and nothing else is different. -/
def Files.Fewer (files files' : Files) : Prop :=
  ∀ p, files'.entryAt p = files.entryAt p ∨
    files'.entryAt p = none ∧ files.entryAt p ≠ some .directory

namespace Files.Fewer

theorem refl (files : Files) : Fewer files files := fun _ => .inl rfl

theorem trans (h : Fewer files files') (h' : Fewer files' files'') : Fewer files files'' := by
  intro p
  rcases h' p with hp | ⟨hnone, hp⟩
  · rw [hp]
    exact h p
  · rcases h p with hp' | ⟨-, hp'⟩
    · exact .inr ⟨hnone, hp' ▸ hp⟩
    · exact .inr ⟨hnone, hp'⟩

theorem remove {path : Path} (h : files.remove path = .ok files') : Fewer files files' := by
  obtain ⟨place, content, modified, hplace, hfind, rfl⟩ := exists_of_remove h
  intro p
  rw [entryAt_drop hplace]
  split
  · rename_i hp
    rw [hp, (find_eq_ok_iff.1 hfind).2]
    simp
  · exact .inl rfl

theorem directories (h : Fewer files files') : SameDirectories files files' := by
  intro p
  rcases h p with hp | ⟨hnone, hp⟩
  · rw [hp]
  · simp [hnone, hp]

theorem eq_none (h : Fewer files files') {p : Place} (hp : files.entryAt p = none) :
    files'.entryAt p = none := by
  rcases h p with heq | ⟨hnone, -⟩
  · rw [heq, hp]
  · exact hnone

theorem eq_some (h : Fewer files files') {p : Place} {entry : Entry}
    (hp : files'.entryAt p = some entry) : files.entryAt p = some entry := by
  rcases h p with heq | ⟨hnone, -⟩
  · rw [← heq, hp]
  · rw [hnone] at hp
    cases hp

end Files.Fewer

end Directories

end Mustache
