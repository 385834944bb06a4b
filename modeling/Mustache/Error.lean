import Mustache.Delimiters
import Mustache.Files.Fault

/-!
# Mustache.Error

What can go wrong, as causes. The words for a cause stand in one place each: `Error.message`,
`Error.code` and `Error.help`.
-/

namespace Mustache

/-- Why the text from an opening mark on is not a tag. -/
inductive TagFault where
  | unclosed (closing : String)
  | delimiters (fault : Delimiters.Fault)
  | notTwoDelimiters
  | nameEmpty
  | nameBlank
  deriving DecidableEq, Repr

def TagFault.message : TagFault → String
  | .unclosed closing => s!"missing closing `{closing}`"
  | .delimiters fault => fault.message
  | .notTwoDelimiters => "expected an opening and a closing delimiter"
  | .nameEmpty => "tag name is empty"
  | .nameBlank => "tag name contains whitespace"

inductive Error where
  | io (fault : Files.Fault)
  /-- `expected` is the innermost section that is open, if one is. -/
  | unmatchedClose (name : String) (expected : Option String) (line column : Nat)
  | unterminatedSection (name : String) (line column : Nat)
  | malformedTag (tag : String) (fault : TagFault) (line column : Nat)
  | contextMiss (path : String)
  /-- The file or directory at `path`, which belongs to the cache, cannot be used. -/
  | cacheIo (path : String) (fault : Files.Fault)
  | configParse
  | partialRecursion (name : String) (depth : Nat)
  | invalidContext (reason : String)
  /-- Lambdas gave text whose lambdas gave text, and so on, deeper than the stack of the host. -/
  | expansionLimit
  deriving DecidableEq, Repr

namespace Error

def expectedLabel : Option String → String
  | some name => s!"open section `{name}`"
  | none => "any open section"

def message : Error → String
  | .io fault => fault.message
  | .unmatchedClose name expected line column =>
    s!"closing tag `{name}` at {line}:{column} does not match " ++ expectedLabel expected
  | .unterminatedSection name line column =>
    s!"section `{name}` opened at {line}:{column} is never closed"
  | .malformedTag tag fault line column =>
    s!"malformed tag `{tag}` at {line}:{column}: " ++ fault.message
  | .contextMiss path => s!"no value found in context for `{path}`"
  | .cacheIo path fault => s!"cache failure at `{path}`: " ++ fault.message
  | .configParse => "failed to parse config file"
  | .partialRecursion name depth => s!"partial `{name}` nested deeper than {depth} levels"
  | .invalidContext reason => "value cannot be used as a render context: " ++ reason
  | .expansionLimit => "lambdas return text with lambdas without end"

def code : Error → String
  | .io _ => "proust::io_error"
  | .unmatchedClose .. => "proust::unmatched_close_tag"
  | .unterminatedSection .. => "proust::unterminated_section"
  | .malformedTag .. => "proust::malformed_tag"
  | .contextMiss _ => "proust::context_miss"
  | .cacheIo .. => "proust::cache_io"
  | .configParse => "proust::config_parse"
  | .partialRecursion .. => "proust::partial_recursion"
  | .invalidContext _ => "proust::invalid_context"
  | .expansionLimit => "proust::expansion_limit"

def help : Error → Option String
  | .unmatchedClose .. => some "sections must be closed in reverse order of opening"
  | .unterminatedSection name _ _ =>
    some ("add `\x7b\x7b/" ++ name ++ "\x7d\x7d` to close this section")
  | .contextMiss _ => some "provide the value or disable `raise_on_context_miss`"
  | .cacheIo .. =>
    some "check that the cache directory exists and is writable, or disable the cache"
  | .configParse => some "check that proust.toml is valid TOML"
  | .partialRecursion .. =>
    some "a partial probably includes itself without a terminating condition"
  | .io _ | .malformedTag .. | .invalidContext _ | .expansionLimit => none

end Error

end Mustache
