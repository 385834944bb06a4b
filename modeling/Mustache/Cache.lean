import Mustache.Files
import Mustache.Json.Reader
import Mustache.Template.Json

/-!
# Mustache.Cache

Compiled templates kept under their fingerprints: not at all, in memory, or in memory and in the
files of a directory.

`Cache.fetch` gives the template of a fingerprint and compiles it only when it is not kept, or no
longer current. A file that does not hold a template for the fingerprint is no error: the template
is compiled and the file is replaced. Each template that is compiled or read from a file is a new
copy, told from the others by its number, and what is handed out twice from memory is one copy.
-/

namespace Mustache

inductive CacheMode where
  | disabled
  | memory
  | durable (directory : Path)
  deriving Repr

structure CacheStats where
  memoryHits : Nat := 0
  durableHits : Nat := 0
  compilations : Nat := 0
  deriving DecidableEq, Repr

/-- A copy of a compiled template. -/
structure SharedTemplate where
  template : Template
  serial : Nat
  deriving Repr

structure Cache where
  mode : CacheMode
  stored : List (Fingerprint × SharedTemplate)
  stats : CacheStats
  deriving Repr

/-! ## Entries -/

/-- What the file of a template holds. -/
structure CacheEntry where
  version : UInt32
  fingerprint : Fingerprint
  template : Template
  deriving Repr

namespace CacheEntry

/-- The version in which entries are written, and the only one that is read. -/
def currentVersion : UInt32 := 2

def toJson (e : CacheEntry) : Json :=
  .object [("schema_version", .integer e.version.toNat), ("fingerprint", e.fingerprint.toJson),
    ("template", e.template.toJson)]

def ofJson? (j : Json) : Option CacheEntry :=
  match j.fields? ["schema_version", "fingerprint", "template"] with
  | some [some version, some fingerprint, some template] =>
    match version.nat?, Fingerprint.ofJson? fingerprint, Template.ofJson? template with
    | some version, some fingerprint, some template =>
      if version < UInt32.size then some ⟨UInt32.ofNat version, fingerprint, template⟩ else none
    | _, _, _ => none
  | _ => none

def toBytes (e : CacheEntry) : ByteArray :=
  (String.ofList e.toJson.compact).toUTF8

def ofBytes? (content : ByteArray) : Option CacheEntry :=
  match String.fromUTF8? content with
  | none => none
  | some text =>
    match Json.skim text.toList with
    | none => none
    | some j => ofJson? j

end CacheEntry

namespace Cache

def fileExtension : String := "mustache_cache"

def ofMode (mode : CacheMode) : Cache := ⟨mode, [], {}⟩

/-- An empty cache; its directory is created where it is missing. -/
def create (mode : CacheMode) (files : Files) : Except Error (Cache × Files) :=
  match mode with
  | .durable directory =>
    match files.createDirectory directory with
    | .error fault => .error (.cacheIo directory.text fault)
    | .ok files => .ok (ofMode mode, files)
  | _ => .ok (ofMode mode, files)

def size (c : Cache) : Nat := c.stored.length

def entryFile (directory : Path) (fingerprint : Fingerprint) : Path :=
  directory.join ⟨fingerprint.digest ++ "." ++ fileExtension⟩

def entryPath (c : Cache) (fingerprint : Fingerprint) : Option Path :=
  match c.mode with
  | .durable directory => some (entryFile directory fingerprint)
  | _ => none

/-! ## Memory -/

def inMemory? (c : Cache) (fingerprint : Fingerprint) : Option SharedTemplate :=
  match c.stored.find? (·.1 == fingerprint) with
  | some (_, shared) => some shared
  | none => none

def remember (c : Cache) (fingerprint : Fingerprint) (shared : SharedTemplate) : Cache :=
  { c with stored := (fingerprint, shared) :: c.stored.filter fun e => !(e.1 == fingerprint) }

/-- The number of the next copy: as many were made before it. -/
def nextSerial (c : Cache) : Nat := c.stats.durableHits + c.stats.compilations

def countMemoryHit (c : Cache) : Cache :=
  { c with stats := { c.stats with memoryHits := c.stats.memoryHits + 1 } }

def countDurableHit (c : Cache) : Cache :=
  { c with stats := { c.stats with durableHits := c.stats.durableHits + 1 } }

def countCompilation (c : Cache) : Cache :=
  { c with stats := { c.stats with compilations := c.stats.compilations + 1 } }

/-! ## Files -/

def load (files : Files) (path : Path) (fingerprint : Fingerprint) :
    Except Error (Option Template) :=
  match files.read path with
  | .error .notFound => .ok none
  | .error fault => .error (.cacheIo path.text fault)
  | .ok content =>
    match CacheEntry.ofBytes? content with
    | none => .ok none
    | some entry =>
      if entry.version == CacheEntry.currentVersion && entry.fingerprint == fingerprint then
        .ok (some entry.template)
      else .ok none

def entryTime : Int := 0

/-- Writes the file for a fingerprint. It is written beside its place first and moved there in one
step, so that no half of it can be read. -/
def save (files : Files) (path : Path) (fingerprint : Fingerprint) (template : Template) :
    Except Error Files :=
  let entry : CacheEntry := ⟨CacheEntry.currentVersion, fingerprint, template⟩
  let draft := path.withExtension "tmp-0"
  match files.write draft entry.toBytes entryTime with
  | .error fault => .error (.cacheIo draft.text fault)
  | .ok written =>
    match written.rename draft path with
    | .error fault => .error (.cacheIo path.text fault)
    | .ok moved => .ok moved

/-! ## Fetching -/

/-- How a template was fetched, and what is kept afterwards. -/
structure Fetched where
  answer : Except Error SharedTemplate
  /-- Whether the source was compiled, or its compilation failed. -/
  compiled : Bool
  cache : Cache
  files : Files

def recompile (c : Cache) (files : Files) (fingerprint : Fingerprint)
    (compile : Unit → Except Error Template) : Fetched :=
  match compile () with
  | .error error => ⟨.error error, true, c, files⟩
  | .ok template =>
    let shared : SharedTemplate := ⟨template, c.nextSerial⟩
    let c := c.countCompilation
    match c.entryPath fingerprint with
    | none => ⟨.ok shared, true, c.remember fingerprint shared, files⟩
    | some path =>
      match save files path fingerprint template with
      | .error error => ⟨.error error, true, c, files⟩
      | .ok files => ⟨.ok shared, true, c.remember fingerprint shared, files⟩

def fetchDurable (c : Cache) (files : Files) (fingerprint : Fingerprint)
    (isCurrent : Template → Except Error Bool) (compile : Unit → Except Error Template) :
    Fetched :=
  match c.entryPath fingerprint with
  | none => c.recompile files fingerprint compile
  | some path =>
    match load files path fingerprint with
    | .error error => ⟨.error error, false, c, files⟩
    | .ok none => c.recompile files fingerprint compile
    | .ok (some template) =>
      match isCurrent template with
      | .error error => ⟨.error error, false, c, files⟩
      | .ok false => c.recompile files fingerprint compile
      | .ok true =>
        let shared : SharedTemplate := ⟨template, c.nextSerial⟩
        ⟨.ok shared, false, c.countDurableHit.remember fingerprint shared, files⟩

/-- The template of a fingerprint. A cache that keeps nothing counts a compilation even when it
fails. -/
def fetch (c : Cache) (files : Files) (fingerprint : Fingerprint)
    (isCurrent : Template → Except Error Bool) (compile : Unit → Except Error Template) :
    Fetched :=
  match c.mode with
  | .disabled =>
    match compile () with
    | .error error => ⟨.error error, true, c.countCompilation, files⟩
    | .ok template => ⟨.ok ⟨template, c.nextSerial⟩, true, c.countCompilation, files⟩
  | _ =>
    match c.inMemory? fingerprint with
    | none => c.fetchDurable files fingerprint isCurrent compile
    | some shared =>
      match isCurrent shared.template with
      | .error error => ⟨.error error, false, c, files⟩
      | .ok false => c.fetchDurable files fingerprint isCurrent compile
      | .ok true => ⟨.ok shared, false, c.countMemoryHit, files⟩

/-! ## Clearing -/

def clearMemory (c : Cache) : Cache := { c with stored := [] }

def removeEntries (files : Files) (directory : Path) :
    List (String × Entry) → Except Error Unit × Files
  | [] => (.ok (), files)
  | (name, _) :: rest =>
    let path := directory.join ⟨name⟩
    if path.extension == some fileExtension then
      match files.remove path with
      | .error fault => (.error (.cacheIo path.text fault), files)
      | .ok files => removeEntries files directory rest
    else removeEntries files directory rest

def clear (c : Cache) (files : Files) : Except Error Unit × Cache × Files :=
  match c.mode with
  | .durable directory =>
    match files.list directory with
    | .error .notFound => (.ok (), c.clearMemory, files)
    | .error fault => (.error (.cacheIo directory.text fault), c.clearMemory, files)
    | .ok entries =>
      let (result, files) := removeEntries files directory entries
      (result, c.clearMemory, files)
  | _ => (.ok (), c.clearMemory, files)

end Cache

end Mustache
