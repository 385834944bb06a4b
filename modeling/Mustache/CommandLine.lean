import Mustache.CommandLine.Arguments
import Mustache.Engine
import Mustache.Tree.Json

/-!
# Mustache.CommandLine

The commands: rendering files against a context, printing the trees of files, and printing or
writing their compiled form. A command that fails keeps what it has printed up to then.
-/

namespace Mustache.CommandLine

inductive Failure where
  | error (error : Error)
  | file (message : String)
  deriving Repr

/-- The line that tells a failure from others: the code of an error, or what is wrong with a
file. -/
def Failure.heading : Failure → String
  | .error cause => cause.code
  | .file message => "error: " ++ message

def Failure.details : Failure → List String
  | .error cause => cause.message :: cause.help.toList
  | .file _ => []

def Failure.ofFault (what : String) (path : Path) (fault : Files.Fault) : Failure :=
  .file s!"failed to {what} `{path.text}`: {fault.message}"

namespace Arguments

/-- The directory that partials and the config file belong to. -/
def root (a : Arguments) : Path :=
  match a.path with
  | some path => ⟨path⟩
  | none => ⟨"."⟩

/-- The options of the config file, with those of the command line on top. Without a config file
templates are kept in memory only. -/
def options (a : Arguments) (files : Files) : Except Error Options :=
  match Config.load files a.root with
  | .error error => .error error
  | .ok config =>
    let o := Options.ofConfig a.root config
    let o := if config.isNone then o.inMemory else o
    let o := if a.has .noCache then o.withoutCache else o
    .ok { o with
      compiler :=
        { disableLambdas := o.compiler.disableLambdas || a.has .disableLambdas
          disableIndentation := o.compiler.disableIndentation || a.has .disableIndentation
          includePartialCode := o.compiler.includePartialCode || a.has .includePartials
          beautify := o.compiler.beautify || a.has .beautify } }

def context (a : Arguments) (files : Files) : Except Failure Value :=
  match a.json with
  | none => .ok .null
  | some path =>
    match files.readText ⟨path⟩ with
    | .error fault => .error (.ofFault "read" ⟨path⟩ fault)
    | .ok text =>
      match Json.read text.toList with
      | none => .error (.file s!"invalid JSON in `{path}`")
      | some json => .ok json.toValue

def engine (a : Arguments) (files : Files) : Except Error (Engine × Store) :=
  match a.options files with
  | .error error => .error error
  | .ok options => Engine.create options files

end Arguments

structure Report where
  printed : String
  failure : Option Failure
  files : Files

def Report.code (r : Report) : Nat :=
  match r.failure with
  | none => 0
  | some _ => 2

def notFound (path : Path) : Failure := .file s!"template `{path.text}` not found"

def renderFiles (engine : Engine) (context : Value) (store : Store) (printed : String) :
    List String → Report
  | [] => ⟨printed, none, store.files⟩
  | file :: rest =>
    if store.files.isFile ⟨file⟩ then
      match engine.renderFile Host.empty ⟨file⟩ context () store with
      | (.error error, _, store) => ⟨printed, some (.error error), store.files⟩
      | (.ok text, _, store) => renderFiles engine context store (printed ++ text) rest
    else ⟨printed, some (notFound ⟨file⟩), store.files⟩

def printTrees (engine : Engine) (files : Files) (printed : String) : List String → Report
  | [] => ⟨printed, none, files⟩
  | file :: rest =>
    match files.readText ⟨file⟩ with
    | .error fault => ⟨printed, some (.ofFault "read template" ⟨file⟩ fault), files⟩
    | .ok source =>
      match engine.tokens source with
      | .error error => ⟨printed, some (.error error), files⟩
      | .ok tree =>
        let text := String.ofList (tree.toJson.pretty 0)
        printTrees engine files (printed ++ text ++ "\n") rest

def compileFiles (engine : Engine) (store : Store) (texts : List String) :
    List String → Except Failure (List String) × Files
  | [] => (.ok texts, store.files)
  | file :: rest =>
    if store.files.isFile ⟨file⟩ then
      match engine.compileFile ⟨file⟩ store with
      | (.error error, store) => (.error (.error error), store.files)
      | (.ok shared, store) => compileFiles engine store (texts ++ [shared.template.text]) rest
    else (.error (notFound ⟨file⟩), store.files)

def writeCompiled (engine : Engine) (store : Store) (sources : List String)
    (output : Option String) (now : Int) : Report :=
  match compileFiles engine store [] sources with
  | (.error failure, files) => ⟨"", some failure, files⟩
  | (.ok texts, files) =>
    let text := "\n".intercalate texts ++ "\n"
    match output with
    | none => ⟨text, none, files⟩
    | some path =>
      match files.write ⟨path⟩ text.toUTF8 now with
      | .error fault => ⟨"", some (.ofFault "write" ⟨path⟩ fault), files⟩
      | .ok files => ⟨"", none, files⟩

/-- Carries out a command. Files that it writes get the time `now`. -/
def run (arguments : Arguments) (files : Files) (now : Int) : Report :=
  match arguments.engine files with
  | .error error => ⟨"", some (.error error), files⟩
  | .ok (engine, store) =>
    match arguments.command with
    | .render sources =>
      match arguments.context store.files with
      | .error failure => ⟨"", some failure, store.files⟩
      | .ok context => renderFiles engine context store "" sources
    | .tokens sources => printTrees engine store.files "" sources
    | .compile sources output => writeCompiled engine store sources output now

end Mustache.CommandLine
