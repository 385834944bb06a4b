/-!
# Mustache.Files.Fault

Why an operation on files fails, in the words of the operating system.
-/

namespace Mustache.Files

inductive Fault where
  | notFound
  | exists
  | notDirectory
  | isDirectory
  | invalidEncoding
  deriving DecidableEq, Repr

def Fault.message : Fault → String
  | .notFound => "No such file or directory (os error 2)"
  | .exists => "File exists (os error 17)"
  | .notDirectory => "Not a directory (os error 20)"
  | .isDirectory => "Is a directory (os error 21)"
  | .invalidEncoding => "stream did not contain valid UTF-8"

end Mustache.Files
