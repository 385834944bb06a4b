import Mustache.Engine
import Mustache.Proofs.Files.Place
import Mustache.Proofs.Template.Staleness

/-!
# Mustache.Proofs.Engine.World

The sources that engines work with, and the templates that were compiled from them.

A `World` holds the texts that are compiled in the course of a run, the paths that templates are
read from, and the trees of files that there are from moment to moment. It is `Distinct` when
versions tell all these sources apart. Then two states of the partials tell each other apart too
(`World.State.tells`), and a template that was compiled for a fingerprint at some moment
(`World.Sound`) is, while it is current, what compiling gives for that fingerprint
(`World.Sound.same_ofSource`).
-/

namespace Mustache

/-! ## What is in files -/

namespace Entry

/-- What an entry holds, apart from its time. -/
def content : Entry → Option ByteArray
  | .file content _ => some content
  | .directory => none

/-- The words by which a version tells an entry from others at its place. -/
def words : Entry → UInt64 × UInt64
  | .file content modified => (UInt64.ofNat modified.toNat, UInt64.ofNat content.size)
  | .directory => (UInt64.ofNat 0, UInt64.ofNat Files.directorySize)

def source (entry : Entry) : Except Error String :=
  match entry.content with
  | none => .error (.io .isDirectory)
  | some content =>
    match String.fromUTF8? content with
    | some text => .ok text
    | none => .error (.io .invalidEncoding)

end Entry

namespace Engine

variable {files : Files} {path : Path}

theorem versionOf_eq_ok_iff {v : SourceVersion} :
    versionOf files path = .ok v ↔
      ∃ found, files.find path = .ok found ∧ v = .file path found.2.words.1 found.2.words.2 := by
  rw [versionOf, Files.version]
  cases files.find path with
  | error fault => simp
  | ok found =>
    obtain ⟨p, entry⟩ := found
    cases entry <;> simp [Entry.words, eq_comm]

theorem readSource_of_find {found : Place × Entry} (h : files.find path = .ok found) :
    readSource files path = found.2.source := by
  obtain ⟨p, entry⟩ := found
  rw [readSource, Files.readText, Files.read, h]
  cases entry with
  | directory => rfl
  | file content modified =>
    dsimp only [Entry.source, Entry.content]
    cases String.fromUTF8? content <;> rfl

theorem find_of_isFile (h : files.isFile path = true) : ∃ found, files.find path = .ok found := by
  rw [Files.isFile] at h
  split at h
  · rename_i hfind
    exact ⟨_, hfind⟩
  · cases h

end Engine

/-! ## Worlds -/

structure World where
  /-- The place of the directory that compiled templates are kept in. -/
  directory : Place
  texts : List String
  /-- The paths that templates are read from. -/
  paths : Path → Prop
  moments : List Files

namespace World

/-- Versions tell the sources apart: two texts never share hash and length, and what two equal
paths lead to never shares time and size, unless it is the same. -/
structure Distinct (w : World) : Prop where
  texts {s t} : s ∈ w.texts → t ∈ w.texts → SourceVersion.ofText s == SourceVersion.ofText t → s = t
  contents {path path' files files' found found'} : w.paths path → w.paths path' → path == path' →
    files ∈ w.moments → files' ∈ w.moments → files.find path = .ok found →
    files'.find path' = .ok found' → found.2.words = found'.2.words →
    found.2.content = found'.2.content

def held (w : World) : List Entry :=
  .directory :: w.moments.flatMap fun files => files.entries.map (·.2)

/-- Whether versions tell all sources apart can be seen from the texts and from what is held. -/
theorem distinct_of_held {w : World}
    (htexts : ∀ s ∈ w.texts, ∀ t ∈ w.texts,
      SourceVersion.ofText s == SourceVersion.ofText t → s = t)
    (hheld : ∀ entry ∈ w.held, ∀ entry' ∈ w.held, entry.words = entry'.words →
      entry.content = entry'.content) : w.Distinct where
  texts hs ht := htexts _ hs _ ht
  contents := by
    have hmem : ∀ {files path} {found : Place × Entry}, files ∈ w.moments →
        files.find path = .ok found → found.2 ∈ w.held := by
      intro files path found hfiles hfind
      have hentry := (Files.find_eq_ok_iff.1 hfind).2
      by_cases hp : found.1 = []
      · rw [hp, Files.entryAt_nil] at hentry
        rw [← Option.some.inj hentry]
        exact List.mem_cons_self
      · have := Files.mem_entries_of_entryAt hp hentry
        exact List.mem_cons_of_mem _
          (List.mem_flatMap.2 ⟨files, hfiles, List.mem_map.2 ⟨_, this, rfl⟩⟩)
    intro _ _ _ _ _ _ _ _ _ hfiles hfiles' hfind hfind'
    exact hheld _ (hmem hfiles hfind) _ (hmem hfiles' hfind')

/-- Reading what has this version gives this source, or fails so. -/
inductive Reads (w : World) : SourceVersion → Except Error String → Prop where
  | text {s} : s ∈ w.texts → Reads w (.ofText s) (.ok s)
  | file {files path v} : w.paths path → files ∈ w.moments → Engine.versionOf files path = .ok v →
      Reads w v (Engine.readSource files path)

variable {w : World} (hw : w.Distinct)
include hw

theorem Reads.unique {v v' : SourceVersion} {answer answer' : Except Error String}
    (h : w.Reads v answer) (h' : w.Reads v' answer') (hv : v == v') : answer = answer' := by
  cases h with
  | text hs =>
    cases h' with
    | text ht => rw [hw.texts hs ht hv]
    | file _ _ hversion =>
      obtain ⟨found, -, rfl⟩ := Engine.versionOf_eq_ok_iff.1 hversion
      cases hv
  | file hpath hfiles hversion =>
    obtain ⟨found, hfind, rfl⟩ := Engine.versionOf_eq_ok_iff.1 hversion
    cases h' with
    | text _ => cases hv
    | file hpath' hfiles' hversion' =>
      obtain ⟨found', hfind', rfl⟩ := Engine.versionOf_eq_ok_iff.1 hversion'
      have hkey := SourceVersion.beq_iff.1 hv
      simp only [SourceVersion.key, Sum.inr.injEq, Prod.mk.injEq] at hkey
      have hcontent := hw.contents hpath hpath' (Path.beq_iff.2 hkey.1) hfiles hfiles' hfind hfind'
        (Prod.ext hkey.2.1 hkey.2.2)
      rw [Engine.readSource_of_find hfind, Engine.readSource_of_find hfind', Entry.source,
        Entry.source, hcontent]

end World

/-! ## States of the partials -/

/-- The partials of the engine are among the sources of the world. -/
structure Engine.Draws (e : Engine) (w : World) : Prop where
  texts : ∀ registered ∈ e.partials, registered.2 ∈ w.texts
  paths (name : String) : w.paths (e.options.templateFile name)

theorem Engine.Draws.registered {e : Engine} {w : World} (h : e.Draws w) {name source : String}
    (hname : e.registered name = some source) : source ∈ w.texts := by
  rw [Engine.registered] at hname
  split at hname
  · rename_i hfind
    cases hname
    exact h.texts _ (List.mem_of_find?_eq_some hfind)
  · cases hname

def World.State (w : World) (partials : PartialSources) : Prop :=
  ∃ (e : Engine) (files : Files), e.Draws w ∧ files ∈ w.moments ∧
    partials = e.partialSources files

namespace Engine

variable {e : Engine} {files : Files} {w : World}

theorem exists_partialVersion (e : Engine) (files : Files) (name : String) :
    ∃ v, e.partialVersion files name = .ok v := by
  rw [partialVersion]
  cases e.registered name with
  | some source => exact ⟨_, rfl⟩
  | none =>
    dsimp only
    split
    · rename_i hfile
      obtain ⟨found, hfind⟩ := find_of_isFile hfile
      rw [versionOf_eq_ok_iff.2 ⟨found, hfind, rfl⟩]
      exact ⟨_, rfl⟩
    · exact ⟨_, rfl⟩

theorem partialSource_of_version (hdraws : e.Draws w) (hfiles : files ∈ w.moments)
    {name : String} {v : Option SourceVersion} (hv : e.partialVersion files name = .ok v) :
    match v with
    | none => e.partialSource files name = .ok none
    | some version => ∃ answer, w.Reads version answer ∧
        e.partialSource files name = answer.map some := by
  rw [partialVersion] at hv
  rw [partialSource]
  cases hname : e.registered name with
  | some source =>
    rw [hname] at hv
    cases hv
    exact ⟨.ok source, .text (hdraws.registered hname), rfl⟩
  | none =>
    rw [hname] at hv
    dsimp only at hv ⊢
    split at hv
    · rename_i hfile
      rw [if_pos hfile]
      cases hversion : versionOf files (e.options.templateFile name) with
      | error error =>
        rw [hversion] at hv
        cases hv
      | ok version =>
        rw [hversion] at hv
        cases hv
        exact ⟨_, .file (hdraws.paths name) hfiles hversion, rfl⟩
    · rename_i hfile
      rw [if_neg hfile]
      cases hv
      rfl

end Engine

namespace World

variable {w : World}

theorem State.tells (hw : w.Distinct) {before after : PartialSources} (hbefore : w.State before)
    (hafter : w.State after) : before.Tells after := by
  obtain ⟨e, files, hdraws, hfiles, rfl⟩ := hbefore
  obtain ⟨e', files', hdraws', hfiles', rfl⟩ := hafter
  intro name v v' hv hv' hsame
  have hsource := Engine.partialSource_of_version hdraws hfiles hv
  have hsource' := Engine.partialSource_of_version hdraws' hfiles' hv'
  cases v with
  | none =>
    cases v' with
    | none => exact Eq.trans hsource (Eq.symm hsource')
    | some version' => cases hsame
  | some version =>
    cases v' with
    | none => cases hsame
    | some version' =>
      obtain ⟨answer, hreads, heq⟩ := hsource
      obtain ⟨answer', hreads', heq'⟩ := hsource'
      have hversion : version == version' :=
        SourceVersion.beq_iff.2 (by simpa using SourceVersion.option_beq_iff.1 hsame)
      rw [Reads.unique hw hreads hreads' hversion] at heq
      exact heq.trans heq'.symm

theorem State.exists_isCurrent {partials : PartialSources} (h : w.State partials)
    (t : Template) : ∃ current, t.isCurrent partials = .ok current := by
  obtain ⟨e, files, -, -, rfl⟩ := h
  rw [Template.isCurrent]
  induction t.dependencies with
  | nil => exact ⟨true, rfl⟩
  | cons d ds ih =>
    obtain ⟨v, hv⟩ := e.exists_partialVersion files d.name
    rw [Template.allCurrent, show (e.partialSources files).version d.name = .ok v from hv]
    dsimp only
    split
    · exact ih
    · exact ⟨false, rfl⟩

/-- The template was compiled for the fingerprint at some moment. -/
def Sound (w : World) (fingerprint : Fingerprint) (t : Template) : Prop :=
  ∃ source partials, w.Reads fingerprint.source (.ok source) ∧ w.State partials ∧
    Template.ofSource source fingerprint.delimiters fingerprint.options partials = .ok t

end World

theorem Dependency.Same.symm {a b : Dependency} (h : a.Same b) : b.Same a :=
  ⟨h.1.symm, BEq.symm h.2⟩

theorem Template.Same.refl (t : Template) : t.Same t :=
  ⟨rfl, rfl, List.forall₂_same.2 fun _ _ => ⟨rfl, BEq.rfl⟩⟩

theorem Template.Same.symm {a b : Template} (h : a.Same b) : b.Same a :=
  ⟨h.options.symm, h.ops.symm, (h.dependencies.imp fun _ _ => Dependency.Same.symm).flip⟩

theorem World.Sound.of_beq {w : World} (hw : w.Distinct) {saved fingerprint : Fingerprint}
    {t : Template} (h : w.Sound saved t) (hsaved : saved == fingerprint)
    {answer : Except Error String} (hreads : w.Reads fingerprint.source answer) :
    w.Sound fingerprint t := by
  obtain ⟨source, before, hreads', hbefore, hcompile⟩ := h
  obtain ⟨hversion, hdelimiters, hoptions⟩ := Fingerprint.beq_iff.1 hsaved
  rw [hdelimiters, hoptions] at hcompile
  rw [← Reads.unique hw hreads' hreads hversion] at hreads
  exact ⟨source, before, hreads, hbefore, hcompile⟩

/-- A sound template that is current is what compiling gives now. -/
theorem World.Sound.same_ofSource {w : World} (hw : w.Distinct) {fingerprint : Fingerprint}
    {t : Template} (h : w.Sound fingerprint t) {answer : Except Error String}
    (hreads : w.Reads fingerprint.source answer) {now : PartialSources} (hnow : w.State now)
    (hcurrent : t.isCurrent now = .ok true) :
    ∃ source t', answer = .ok source ∧
      Template.ofSource source fingerprint.delimiters fingerprint.options now = .ok t' ∧
      t.Same t' := by
  obtain ⟨source, before, hreads', hbefore, hcompile⟩ := h
  obtain ⟨t', ht', hsame⟩ := ofSource_of_isCurrent (hbefore.tells hw hnow) hcompile hcurrent
  exact ⟨source, t', (Reads.unique hw hreads' hreads BEq.rfl).symm, ht', hsame.symm⟩

end Mustache
