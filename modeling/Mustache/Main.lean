import Mustache.CommandLine

/-!
# Mustache.Main

The program. It reads the files below the directory that it is started in, carries out a command
on them, and writes back what the command has changed. The paths of a command lead to files below
that directory.
-/

namespace Mustache.Program

/-- Adds what a directory names to the files that have been read. Links to directories, and what
cannot be read, are left out. -/
partial def addEntry (directory : Place) (files : Files) (entry : IO.FS.DirEntry) : IO Files := do
  let place := directory ++ [entry.fileName]
  try
    let kind := (← entry.path.symlinkMetadata).type
    if kind == .dir then
      (← entry.path.readDir).foldlM (addEntry place) (files.put place .directory)
    else
      let modified := (← entry.path.metadata).modified
      let content ← IO.FS.readBinFile entry.path
      pure (files.put place
        (.file content (modified.sec * 1000 + modified.nsec.toNat / 1000000)))
  catch _ => pure files

def readFiles : IO Files := do
  (← (← IO.currentDir).readDir).foldlM (addEntry []) Files.empty

def pathOf (place : Place) : String := "/".intercalate place

/-- Writes an entry that is new, or not as it was. -/
def writeEntry (before : Files) (place : Place) (entry : Entry) : IO Unit :=
  match before.entryAt place, entry with
  | some .directory, .directory => pure ()
  | _, .directory => IO.FS.createDirAll (pathOf place)
  | some (.file old _), .file content _ =>
    if old.data == content.data then pure () else IO.FS.writeBinFile (pathOf place) content
  | _, .file content _ => IO.FS.writeBinFile (pathOf place) content

def removeEntry (after : Files) (place : Place) (entry : Entry) : IO Unit :=
  match after.entryAt place, entry with
  | none, .file _ _ => IO.FS.removeFile (pathOf place)
  | _, _ => pure ()

/-- Entries are listed latest first, so those that come last are the outermost. -/
def writeFiles (before after : Files) : IO Unit := do
  for (place, entry) in after.entries.reverse do
    writeEntry before place entry
  for (place, entry) in before.entries do
    removeEntry after place entry

def usage : String :=
  "usage: mustache [OPTIONS] render|tokens|compile [OPTIONS] FILES..."

end Mustache.Program

def main (arguments : List String) : IO UInt32 := do
  match Mustache.CommandLine.Arguments.parse arguments with
  | .error stop =>
    if stop.code == 0 then IO.println Mustache.Program.usage
    else IO.eprintln Mustache.Program.usage
    pure stop.code.toUInt32
  | .ok arguments =>
    let files ← Mustache.Program.readFiles
    let report := Mustache.CommandLine.run arguments files 0
    Mustache.Program.writeFiles files report.files
    IO.print report.printed
    for failure in report.failure.toList do
      IO.eprintln failure.heading
      for line in failure.details do
        IO.eprintln ("  " ++ line)
    pure report.code.toUInt32
