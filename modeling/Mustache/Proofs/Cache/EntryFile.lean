import Mustache.Proofs.Cache.Entry
import Mustache.Proofs.Files.Place

/-!
# Mustache.Proofs.Cache.EntryFile

The file of one entry, in the directory of a cache.

Fingerprints have names that a directory can hold (`isName_entryName`). A file with an entry is
loaded for the fingerprint that it was saved for, and is a miss for every other one
(`Cache.load_of_entryAt`). Saving succeeds exactly where no directory is in the way, and then it
leaves everything but the file and its draft as it was (`Cache.save_eq_ok_iff`,
`Cache.entryAt_withEntry`).
-/

namespace Mustache

/-! ## Names of entries -/

namespace Cache

def entryName (fingerprint : Fingerprint) : String := fingerprint.digest ++ "." ++ fileExtension

def draftName (fingerprint : Fingerprint) : String := fingerprint.digest ++ "." ++ "tmp-0"

end Cache

theorem digitChar_mod_ne (x : Nat) :
    Nat.digitChar (x % 16) ≠ '/' ∧ Nat.digitChar (x % 16) ≠ '.' := by
  have : ∀ d, d < 16 → Nat.digitChar d ≠ '/' ∧ Nat.digitChar d ≠ '.' := by decide
  exact this _ (Nat.mod_lt _ (by decide))

theorem mem_hexDigits_ne :
    ∀ (n x : Nat) (c : Char), c ∈ Fingerprint.hexDigits n x → c ≠ '/' ∧ c ≠ '.'
  | 0, _, _, h => by cases h
  | n + 1, x, c, h => by
    rw [Fingerprint.hexDigits, List.mem_append, List.mem_singleton] at h
    rcases h with h | rfl
    · exact mem_hexDigits_ne n _ c h
    · exact digitChar_mod_ne x

theorem length_hexDigits : ∀ (n x : Nat), (Fingerprint.hexDigits n x).length = n
  | 0, _ => rfl
  | n + 1, x => by rw [Fingerprint.hexDigits, List.length_append, length_hexDigits n]; rfl

theorem isName_digest_append (fingerprint : Fingerprint) {extension : String}
    (h : '/' ∉ extension.toList) : IsName (fingerprint.digest ++ "." ++ extension) := by
  have hlength : (fingerprint.digest ++ "." ++ extension).toList.length
      = 17 + extension.toList.length := by
    simp [Fingerprint.digest, length_hexDigits]
    omega
  have hne : ∀ s : String, s.toList.length < 17 → fingerprint.digest ++ "." ++ extension ≠ s := by
    rintro s hs rfl
    omega
  refine ⟨hne _ (by decide), hne _ (by decide), hne _ (by decide), ?_⟩
  simp only [String.toList_append, List.mem_append, not_or, Fingerprint.digest,
    String.toList_ofList]
  exact ⟨⟨fun hc => (mem_hexDigits_ne _ _ _ hc).1 rfl, by decide⟩, h⟩

theorem isName_entryName (fingerprint : Fingerprint) : IsName (Cache.entryName fingerprint) :=
  isName_digest_append fingerprint (by decide)

theorem isName_draftName (fingerprint : Fingerprint) : IsName (Cache.draftName fingerprint) :=
  isName_digest_append fingerprint (by decide)

theorem draftName_ne_entryName (fingerprint other : Fingerprint) :
    Cache.draftName fingerprint ≠ Cache.entryName other := by
  intro h
  have hlength := congrArg (fun s : String => s.toList.length) h
  simp [Cache.draftName, Cache.entryName, Fingerprint.digest, length_hexDigits,
    Cache.fileExtension] at hlength

theorem split_at_last {mark : Char} (front : List Char) {tail : List Char}
    (h : mark ∉ tail) :
    (front ++ mark :: tail).reverse.takeWhile (· != mark) = tail.reverse ∧
      (front ++ mark :: tail).reverse.dropWhile (· != mark) = (front ++ [mark]).reverse := by
  have hall : ∀ c ∈ tail.reverse, (c != mark) = true := fun c hc => by
    simpa using fun heq : c = mark => h (heq ▸ List.mem_reverse.1 hc)
  have hreverse : (front ++ mark :: tail).reverse = tail.reverse ++ (front ++ [mark]).reverse := by
    simp
  rw [hreverse, List.takeWhile_append_of_pos hall, List.dropWhile_append_of_pos hall]
  simp

theorem Cache.dot_not_mem_fileExtension : '.' ∉ Cache.fileExtension.toList := by
  decide +kernel

theorem splitExtension_entryName (fingerprint : Fingerprint) :
    Path.splitExtension (Cache.entryName fingerprint).toList =
      (fingerprint.digest.toList, some Cache.fileExtension.toList) := by
  have hlist : (Cache.entryName fingerprint).toList
      = fingerprint.digest.toList ++ '.' :: Cache.fileExtension.toList := by
    simp [Cache.entryName]
  have hne : fingerprint.digest.toList ≠ [] := by
    intro hnil
    have := length_hexDigits 16 (SipHash.hash fingerprint.bytes).toNat
    rw [Fingerprint.digest, String.toList_ofList] at hnil
    rw [hnil] at this
    cases this
  obtain ⟨htake, hdrop⟩ := split_at_last fingerprint.digest.toList Cache.dot_not_mem_fileExtension
  rw [Path.splitExtension, hlist, htake, hdrop]
  simp [hne]

theorem withExtension_join {directory : Path} {fingerprint : Fingerprint}
    (hne : directory.text.isEmpty = false) :
    (directory.join ⟨Cache.entryName fingerprint⟩).withExtension "tmp-0"
      = directory.join ⟨Cache.draftName fingerprint⟩ := by
  obtain ⟨front, -, htext⟩ := Path.join_text hne
  have hname := htext (isName_entryName fingerprint)
  have hdraft := htext (isName_draftName fingerprint)
  obtain ⟨htake, hdrop⟩ := split_at_last front (isName_entryName fingerprint).no_separator
  have hlist : ((directory.join ⟨Cache.entryName fingerprint⟩).withExtension "tmp-0").text.toList
      = (directory.join ⟨Cache.draftName fingerprint⟩).text.toList := by
    rw [Path.withExtension, hname, hdraft, hdrop, htake, List.reverse_reverse, List.reverse_reverse,
      splitExtension_entryName]
    simp [Cache.draftName]
  have heq := String.toList_inj.1 hlist
  cases hp : (directory.join ⟨Cache.entryName fingerprint⟩).withExtension "tmp-0"
  cases hq : directory.join ⟨Cache.draftName fingerprint⟩
  rw [hp, hq] at heq
  exact congrArg Path.mk heq

def CacheEntry.fileAt (d : Place) (fingerprint : Fingerprint) (template : Template) :
    Place × Entry :=
  (d ++ [Cache.entryName fingerprint],
    .file (toBytes ⟨currentVersion, fingerprint, template⟩) Cache.entryTime)

/-! ## Loading -/

namespace Cache

section Load

variable {files : Files} {directory : Path} {d : Place}

theorem read_entryFile (hfind : files.find directory = .ok (d, .directory))
    (fingerprint : Fingerprint) :
    files.read (entryFile directory fingerprint) =
      match files.entryAt (d ++ [entryName fingerprint]) with
      | none => .error .notFound
      | some .directory => .error .isDirectory
      | some (.file content _) => .ok content := by
  rw [Files.read, Files.find, show entryFile directory fingerprint =
    directory.join ⟨entryName fingerprint⟩ from rfl,
    Files.locate_join (isName_entryName fingerprint) hfind]
  dsimp only
  cases files.entryAt (d ++ [entryName fingerprint]) with
  | none => rfl
  | some entry => cases entry <;> rfl

theorem load_of_missing (hfind : files.find directory = .ok (d, .directory))
    {fingerprint : Fingerprint} (hnone : files.entryAt (d ++ [entryName fingerprint]) = none) :
    load files (entryFile directory fingerprint) fingerprint = .ok none := by
  rw [load, read_entryFile hfind, hnone]

/-- An entry is for the fingerprint that it was saved for, unless it nests too deeply to be read. -/
theorem load_of_entryAt (hfind : files.find directory = .ok (d, .directory))
    {fingerprint saved : Fingerprint} {t : Template}
    (hentry : files.entryAt (d ++ [entryName fingerprint]) =
      some (CacheEntry.fileAt d saved t).2) :
    load files (entryFile directory fingerprint) fingerprint =
      .ok (if t.toJson.depth < Json.maxDepth ∧ saved == fingerprint then some t else none) := by
  rw [load, read_entryFile hfind, hentry]
  dsimp only [CacheEntry.fileAt]
  rw [CacheEntry.ofBytes?_toBytes]
  by_cases hdepth : t.toJson.depth < Json.maxDepth
  · rw [if_pos hdepth]
    by_cases hsame : (saved == fingerprint) = true
    · simp [hdepth, hsame]
    · simp [hsame]
  · simp [hdepth]

end Load

end Cache

/-! ## Saving -/

section Save

variable {files : Files} {directory : Path} {d : Place} {fingerprint : Fingerprint} {t : Template}

/-- The tree with the file of an entry, which was written as a draft first. -/
def Files.withEntry (files : Files) (d : Place) (fingerprint : Fingerprint) (t : Template) :
    Files :=
  ((files.put (d ++ [Cache.draftName fingerprint]) (CacheEntry.fileAt d fingerprint t).2).drop
    (d ++ [Cache.draftName fingerprint])).put (d ++ [Cache.entryName fingerprint])
      (CacheEntry.fileAt d fingerprint t).2

theorem Files.withEntry_of_free (h : files.entryAt (d ++ [Cache.draftName fingerprint]) = none) :
    files.withEntry d fingerprint t =
      files.put (d ++ [Cache.entryName fingerprint]) (CacheEntry.fileAt d fingerprint t).2 := by
  rw [withEntry, drop_put (Place.append_name_ne_nil _ _) _ h]

namespace Cache

theorem entryAt_withEntry (p : Place) :
    (files.withEntry d fingerprint t).entryAt p =
      if p = d ++ [entryName fingerprint] then some (CacheEntry.fileAt d fingerprint t).2
      else if p = d ++ [draftName fingerprint] then none else files.entryAt p := by
  have hnil (name : String) : d ++ [name] ≠ [] := Place.append_name_ne_nil d name
  rw [Files.withEntry, Files.entryAt_put (hnil _), Files.entryAt_drop (hnil _)]
  split
  · rfl
  · split
    · rfl
    · rename_i hdraft
      rw [Files.entryAt_put (hnil _), if_neg hdraft]

theorem rename_draft (hfind : files.find directory = .ok (d, .directory))
    (hdraft : files.entryAt (d ++ [draftName fingerprint]) ≠ some .directory) :
    (files.put (d ++ [draftName fingerprint]) (CacheEntry.fileAt d fingerprint t).2).rename
        (directory.join ⟨draftName fingerprint⟩) (directory.join ⟨entryName fingerprint⟩) =
      match files.entryAt (d ++ [entryName fingerprint]) with
      | some .directory => .error .isDirectory
      | _ => .ok (files.withEntry d fingerprint t) := by
  have hnil (name : String) : d ++ [name] ≠ [] := Place.append_name_ne_nil d name
  have hwritten := find_directory_put (hnil (draftName fingerprint))
    (CacheEntry.fileAt d fingerprint t).2 hdraft hfind
  have hother : d ++ [entryName fingerprint] ≠ d ++ [draftName fingerprint] := by
    simpa using Ne.symm (draftName_ne_entryName fingerprint fingerprint)
  rw [Files.rename, Files.find, Files.locate_join (isName_draftName fingerprint) hwritten]
  dsimp only
  rw [Files.entryAt_put (hnil _), if_pos rfl]
  dsimp only
  rw [Files.locateFile_join_eq (isName_entryName fingerprint) hwritten,
    Files.entryAt_put (hnil _), if_neg hother]
  cases files.entryAt (d ++ [entryName fingerprint]) with
  | none => rfl
  | some entry => cases entry <;> rfl

theorem save_eq (hne : directory.text.isEmpty = false) :
    save files (entryFile directory fingerprint) fingerprint t =
      match files.write (directory.join ⟨draftName fingerprint⟩)
        (CacheEntry.toBytes ⟨CacheEntry.currentVersion, fingerprint, t⟩) entryTime with
      | .error fault => .error (.cacheIo (directory.join ⟨draftName fingerprint⟩).text fault)
      | .ok written =>
        match written.rename (directory.join ⟨draftName fingerprint⟩)
          (directory.join ⟨entryName fingerprint⟩) with
        | .error fault => .error (.cacheIo (directory.join ⟨entryName fingerprint⟩).text fault)
        | .ok moved => .ok moved := by
  have hentry : entryFile directory fingerprint = directory.join ⟨entryName fingerprint⟩ := rfl
  cases hwrite : files.write (directory.join ⟨draftName fingerprint⟩)
      (CacheEntry.toBytes ⟨CacheEntry.currentVersion, fingerprint, t⟩) entryTime with
  | error fault => simp only [save, hentry, withExtension_join hne, hwrite]
  | ok written =>
    cases hmove : written.rename (directory.join ⟨draftName fingerprint⟩)
        (directory.join ⟨entryName fingerprint⟩) <;>
      simp only [save, hentry, withExtension_join hne, hwrite, hmove]

/-- Saving succeeds where no directory is in the way of the file or of its draft. -/
theorem save_eq_ok_iff (hfind : files.find directory = .ok (d, .directory)) {saved : Files} :
    save files (entryFile directory fingerprint) fingerprint t = .ok saved ↔
      files.entryAt (d ++ [draftName fingerprint]) ≠ some .directory ∧
        files.entryAt (d ++ [entryName fingerprint]) ≠ some .directory ∧
        files.withEntry d fingerprint t = saved := by
  obtain ⟨-, -, hne⟩ := Files.walk_parts_of_find hfind
  rw [save_eq hne, Files.write]
  by_cases hdraft : files.entryAt (d ++ [draftName fingerprint]) = some .directory
  · rw [Files.locateFile_join_eq (isName_draftName fingerprint) hfind, hdraft]
    simp
  · have hrename := rename_draft (t := t) hfind hdraft
    rw [CacheEntry.fileAt] at hrename
    rw [Files.locateFile_join (isName_draftName fingerprint) hfind hdraft]
    dsimp only at hrename ⊢
    rw [hrename]
    by_cases hentry : files.entryAt (d ++ [entryName fingerprint]) = some .directory
    · rw [hentry]
      simp
    · have hmoved : (match files.entryAt (d ++ [entryName fingerprint]) with
          | some .directory => .error .isDirectory
          | _ => .ok (files.withEntry d fingerprint t) : Except Files.Fault Files) =
          .ok (files.withEntry d fingerprint t) := by
        split
        · rename_i h
          exact absurd h hentry
        · rfl
      rw [hmoved]
      simp [hdraft, hentry]

theorem save_directories (hfind : files.find directory = .ok (d, .directory)) {saved : Files}
    (hsave : save files (entryFile directory fingerprint) fingerprint t = .ok saved) :
    files.SameDirectories saved := by
  obtain ⟨hdraft, hentry, rfl⟩ := (save_eq_ok_iff hfind).1 hsave
  intro p
  rw [entryAt_withEntry]
  split
  · rename_i hp
    subst hp
    simp [CacheEntry.fileAt, hentry]
  · split
    · rename_i hp
      subst hp
      simp [hdraft]
    · rfl

end Cache

/-- The directory works for a fingerprint: it is there, and a file can be written beside the place
of the entry and be moved there. -/
structure Cache.Works (files : Files) (directory : Path) (d : Place) (fingerprint : Fingerprint) :
    Prop where
  found : files.find directory = .ok (d, .directory)
  draft : files.entryAt (d ++ [Cache.draftName fingerprint]) = none
  entry : files.entryAt (d ++ [Cache.entryName fingerprint]) ≠ some .directory

theorem Cache.Works.save_eq (h : Cache.Works files directory d fingerprint)
    (template : Template) :
    Cache.save files (Cache.entryFile directory fingerprint) fingerprint template =
      .ok (files.put (d ++ [Cache.entryName fingerprint])
        (CacheEntry.fileAt d fingerprint template).2) := by
  refine (Cache.save_eq_ok_iff h.found).2 ⟨?_, h.entry, Files.withEntry_of_free h.draft⟩
  rw [h.draft]
  simp

end Save

end Mustache
