/-!
# Mustache.CommandLine.Arguments

The arguments of the command. Options may stand before the subcommand and behind it, files behind
it only, and everything behind `--` is a file. An option is given once on either side; of two
values the one behind the subcommand counts.

Reading the arguments ends early when they ask for help or for the version, and at the first
argument that does not fit.
-/

namespace Mustache.CommandLine

inductive Setting where
  | path
  | json
  | output
  deriving DecidableEq, Repr

inductive Flag where
  | disableLambdas
  | disableIndentation
  | includePartials
  | beautify
  | noCache
  | verbose
  | noColor
  deriving DecidableEq, Repr

inductive Action where
  | setting (setting : Setting)
  | flag (flag : Flag)
  | help
  | version
  deriving DecidableEq, Repr

/-- Why the arguments are not carried out. -/
inductive Stop where
  | shown
  | misused
  deriving DecidableEq, Repr

def Stop.code : Stop → Nat
  | .shown => 0
  | .misused => 2

inductive Subcommand where
  | render
  | tokens
  | compile
  deriving DecidableEq, Repr

def Subcommand.ofName? : String → Option Subcommand
  | "render" => some .render
  | "tokens" => some .tokens
  | "compile" => some .compile
  | _ => none

/-- Which options there are before the subcommand (`none`) and behind it. -/
def Action.isAllowed (at_ : Option Subcommand) : Action → Bool
  | .version => at_ == none
  | .setting .output => at_ == some .compile
  | _ => true

def Action.ofLong? : String → Option Action
  | "path" => some (.setting .path)
  | "json" => some (.setting .json)
  | "output" => some (.setting .output)
  | "disable-lambdas" => some (.flag .disableLambdas)
  | "disable-indentation" => some (.flag .disableIndentation)
  | "include-partials" => some (.flag .includePartials)
  | "beautify" => some (.flag .beautify)
  | "no-cache" => some (.flag .noCache)
  | "verbose" => some (.flag .verbose)
  | "no-color" => some (.flag .noColor)
  | "help" => some .help
  | "version" => some .version
  | _ => none

def Action.ofShort? : Char → Option Action
  | 'p' => some (.setting .path)
  | 'j' => some (.setting .json)
  | 'o' => some (.setting .output)
  | 'v' => some (.flag .verbose)
  | 'h' => some .help
  | 'V' => some .version
  | _ => none

/-! ## One side of the subcommand -/

structure Given where
  settings : List (Setting × String)
  flags : List Flag
  files : List String
  pending : Option Setting
  deriving DecidableEq, Repr

namespace Given

def none : Given := ⟨[], [], [], Option.none⟩

def value? (g : Given) (setting : Setting) : Option String :=
  match g.settings.find? (·.1 == setting) with
  | some (_, value) => some value
  | Option.none => Option.none

/-- A value is not empty. -/
def set (g : Given) (setting : Setting) (value : String) : Except Stop Given :=
  if value.isEmpty || (g.value? setting).isSome then .error .misused
  else .ok { g with settings := (setting, value) :: g.settings, pending := Option.none }

def raise (g : Given) (flag : Flag) : Except Stop Given :=
  if g.flags.contains flag then .error .misused
  else .ok { g with flags := flag :: g.flags }

def addFile (g : Given) (file : String) : Except Stop Given :=
  if file.isEmpty then .error .misused else .ok { g with files := g.files ++ [file] }

def long (g : Given) (at_ : Option Subcommand) (name : String) (value : Option String) :
    Except Stop Given :=
  match Action.ofLong? name with
  | Option.none => .error .misused
  | some action =>
    if !action.isAllowed at_ || g.pending.isSome then .error .misused
    else
      match action, value with
      | .setting setting, some value => g.set setting value
      | .setting setting, Option.none => .ok { g with pending := some setting }
      | .flag flag, Option.none => g.raise flag
      | .help, Option.none => .error .shown
      | .version, Option.none => .error .shown
      | _, some _ => .error .misused

/-- Short options in one argument. What is behind one that takes a value is its value. -/
def short (g : Given) (at_ : Option Subcommand) : List Char → Except Stop Given
  | [] => .ok g
  | c :: cs =>
    match Action.ofShort? c with
    | Option.none => .error .misused
    | some action =>
      if !action.isAllowed at_ || g.pending.isSome then .error .misused
      else
        match action, cs with
        | .setting setting, [] => .ok { g with pending := some setting }
        | .setting setting, '=' :: value => g.set setting (String.ofList value)
        | .setting setting, value => g.set setting (String.ofList value)
        | .flag flag, cs =>
          match g.raise flag with
          | .error stop => .error stop
          | .ok g => g.short at_ cs
        | .help, _ => .error .shown
        | .version, _ => .error .shown

def longText (g : Given) (at_ : Option Subcommand) (text : List Char) : Except Stop Given :=
  match text.dropWhile (· != '=') with
  | _ :: value =>
    g.long at_ (String.ofList (text.takeWhile (· != '='))) (some (String.ofList value))
  | [] => g.long at_ (String.ofList text) Option.none

def addFiles (g : Given) : List String → Except Stop Given
  | [] => .ok g
  | file :: files =>
    match g.addFile file with
    | .error stop => .error stop
    | .ok g => g.addFiles files

def behind (g : Given) (subcommand : Subcommand) : List String → Except Stop Given
  | [] => .ok g
  | argument :: rest =>
    let next : Except Stop Given :=
      match argument.toList, g.pending with
      | '-' :: '-' :: text, _ => g.longText (some subcommand) text
      | '-' :: c :: cs, _ => g.short (some subcommand) (c :: cs)
      | _, some setting => g.set setting argument
      | _, Option.none => g.addFile argument
    if argument = "--" then
      if g.pending.isSome then .error .misused else g.addFiles rest
    else
      match next with
      | .error stop => .error stop
      | .ok g => g.behind subcommand rest

def isWord (argument : String) : Bool :=
  match argument.toList with
  | '-' :: _ :: _ => false
  | _ => true

/-- The arguments up to the subcommand, with its name and those behind it. A last value that does
not fit is found out after those, so that help asked for there is still given. -/
def before (g : Given) : List String → Except Stop (Except Stop Given × String × List String)
  | [] => .error .misused
  | argument :: rest =>
    if argument = "--" then .error .misused
    else
      match argument.toList, g.pending with
      | '-' :: '-' :: text, _ =>
        match g.longText Option.none text with
        | .error stop => .error stop
        | .ok g => g.before rest
      | '-' :: c :: cs, _ =>
        match g.short Option.none (c :: cs) with
        | .error stop => .error stop
        | .ok g => g.before rest
      | _, some setting =>
        match g.set setting argument, rest with
        | .ok g, _ => g.before rest
        | .error stop, [] => .error stop
        | .error stop, name :: behind =>
          if isWord name then .ok (.error stop, name, behind) else .error stop
      | _, Option.none => .ok (.ok g, argument, rest)

end Given

/-! ## All arguments -/

inductive Command where
  | render (files : List String)
  | tokens (files : List String)
  | compile (files : List String) (output : Option String)
  deriving DecidableEq, Repr

structure Arguments where
  command : Command
  path : Option String
  json : Option String
  flags : List Flag
  deriving DecidableEq, Repr

namespace Arguments

def has (a : Arguments) (flag : Flag) : Bool := a.flags.contains flag

/-- Help is given on the command, and on one subcommand. -/
def askHelp : List String → Stop
  | [] => .shown
  | [name] => if (Subcommand.ofName? name).isSome || name == "help" then .shown else .misused
  | _ => .misused

def parse (arguments : List String) : Except Stop Arguments :=
  match Given.none.before arguments with
  | .error stop => .error stop
  | .ok (outer, name, rest) =>
    match Subcommand.ofName? name with
    | none => .error (if name == "help" then askHelp rest else .misused)
    | some subcommand =>
      match Given.none.behind subcommand rest with
      | .error stop => .error stop
      | .ok inner =>
        if inner.pending.isSome || inner.files.isEmpty then .error .misused
        else
          match outer with
          | .error stop => .error stop
          | .ok outer =>
            let command := match subcommand with
              | .render => Command.render inner.files
              | .tokens => Command.tokens inner.files
              | .compile => Command.compile inner.files (inner.value? .output)
            .ok ⟨command, (inner.value? .path).or (outer.value? .path),
              (inner.value? .json).or (outer.value? .json), inner.flags ++ outer.flags⟩

end Arguments

end Mustache.CommandLine
