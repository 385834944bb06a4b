import Mustache.Cache
import Mustache.Toml.Reader

/-!
# Mustache.Config

The options of an engine, and the config file that sets them. A config file is looked for under
three names; what it does not set stays as it is without one. Paths in it are relative to the
directory that it is looked for in.
-/

namespace Mustache

/-! ## Config files -/

structure Config where
  templatePath : Option String := none
  templateExtension : Option String := none
  cacheDirectory : Option String := none
  enableCache : Option Bool := none
  persistCache : Option Bool := none
  raiseOnMiss : Option Bool := none
  delimiters : Option Delimiters := none
  compiler : CompilerOptions := {}
  deriving DecidableEq, Repr

namespace Config

def candidates : List Path :=
  [⟨"proust.toml"⟩, ⟨".proust.toml"⟩, ⟨".config/proust.toml"⟩]

def path? (files : Files) (root : Path) : Option Path :=
  (candidates.map root.join).find? files.isFile

/-- A setting that is absent, or has the kind that is asked for. -/
def setting {α : Type} (members : List (String × Toml)) (key : String)
    (kind : Toml → Option α) : Option (Option α) :=
  match Toml.member? members key with
  | none => some none
  | some value => (kind value).map some

def string? : Toml → Option String
  | .string s => some s
  | _ => none

def bool? : Toml → Option Bool
  | .bool b => some b
  | _ => none

def delimiters? : Toml → Option Delimiters
  | .table members =>
    match Toml.member? members "open", Toml.member? members "close" with
    | some (.string opening), some (.string closing) => some ⟨opening, closing⟩
    | _, _ => none
  | .array (.string opening :: .string closing :: _) => some ⟨opening, closing⟩
  | _ => none

/-- Options, named or in order; one that is not given is off. -/
def compiler? : Toml → Option CompilerOptions
  | .table members =>
    match setting members "disable_lambdas" bool?, setting members "disable_indentation" bool?,
        setting members "include_partial_code" bool?, setting members "beautify" bool? with
    | some lambdas, some indentation, some code, some beautify =>
      some ⟨lambdas.getD false, indentation.getD false, code.getD false, beautify.getD false⟩
    | _, _, _, _ => none
  | .array items =>
    match (items.take 4).mapM bool? with
    | some flags =>
      some ⟨flags.getD 0 false, flags.getD 1 false, flags.getD 2 false, flags.getD 3 false⟩
    | none => none
  | _ => none

def ofMembers? (members : List (String × Toml)) : Option Config :=
  match setting members "template_path" string?, setting members "template_extension" string?,
      setting members "cache_dir" string?, setting members "enable_cache" bool?,
      setting members "persist_cache" bool?, setting members "raise_on_context_miss" bool?,
      setting members "delimiters" delimiters?, setting members "compiler" compiler? with
  | some templatePath, some templateExtension, some cacheDirectory, some enableCache,
      some persistCache, some raiseOnMiss, some delimiters, some compiler =>
    some ⟨templatePath, templateExtension, cacheDirectory, enableCache, persistCache,
      raiseOnMiss, delimiters, compiler.getD {}⟩
  | _, _, _, _, _, _, _, _ => none

def ofText? (text : String) : Option Config :=
  match Toml.read text.toList with
  | none => none
  | some members => ofMembers? members

def load (files : Files) (root : Path) : Except Error (Option Config) :=
  match path? files root with
  | none => .ok none
  | some path =>
    match files.readText path with
    | .error fault => .error (.io fault)
    | .ok text =>
      match ofText? text with
      | none => .error .configParse
      | some config => .ok (some config)

end Config

/-! ## Options -/

structure Options where
  /-- Where the files of named templates are. -/
  templatePath : Path := ⟨"."⟩
  templateExtension : String := "mustache"
  /-- Inside the template path, if it is not given. -/
  cacheDirectory : Option Path := none
  enableCache : Bool := true
  /-- Whether templates are kept in files as well as in memory. -/
  persistCache : Bool := true
  raiseOnMiss : Bool := false
  delimiters : Delimiters := .standard
  compiler : CompilerOptions := {}
  deriving Repr

namespace Options

def trimDots (s : String) : String :=
  String.ofList (s.toList.dropWhile (· == '.'))

def ofConfig (root : Path) : Option Config → Options
  | none => { templatePath := root }
  | some config =>
    let defaults : Options := {}
    { templatePath := match config.templatePath with
        | some path => root.join ⟨path⟩
        | none => root
      templateExtension := match config.templateExtension with
        | some extension => trimDots extension
        | none => defaults.templateExtension
      cacheDirectory := config.cacheDirectory.map fun path => root.join ⟨path⟩
      enableCache := config.enableCache.getD defaults.enableCache
      persistCache := config.persistCache.getD defaults.persistCache
      raiseOnMiss := config.raiseOnMiss.getD defaults.raiseOnMiss
      delimiters := config.delimiters.getD defaults.delimiters
      compiler := config.compiler }

def inMemory (o : Options) : Options := { o with enableCache := true, persistCache := false }

def withoutCache (o : Options) : Options := { o with enableCache := false }

def defaultCacheDirectory : Path := ⟨".mustache_cache"⟩

def resolvedCacheDirectory (o : Options) : Path :=
  match o.cacheDirectory with
  | some directory => directory
  | none => o.templatePath.join defaultCacheDirectory

def cacheMode (o : Options) : CacheMode :=
  if !o.enableCache then .disabled
  else if !o.persistCache then .memory
  else .durable o.resolvedCacheDirectory

def templateFile (o : Options) (name : String) : Path :=
  o.templatePath.join ⟨name ++ "." ++ o.templateExtension⟩

end Options

end Mustache
