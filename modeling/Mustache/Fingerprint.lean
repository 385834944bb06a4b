import Mustache.Delimiters
import Mustache.Path
import Mustache.SipHash

/-!
# Mustache.Fingerprint

What decides the result of compiling: where the source comes from and in which version, the
delimiters it starts with, and the options of the compiler. Compiled templates are kept under
their fingerprints, in files under the digest of one.
-/

namespace Mustache

structure CompilerOptions where
  /-- Lambdas are truthy values and are not called. -/
  disableLambdas : Bool := false
  /-- The indentation of a lone partial tag is written once, before all of its output. -/
  disableIndentation : Bool := false
  /-- Partials are compiled into the templates that include them. -/
  includePartialCode : Bool := false
  /-- Compiled templates are printed on many lines. -/
  beautify : Bool := false
  deriving DecidableEq, Repr, Inhabited

/-- A version of a source: of a text by its hash and its length in bytes, of a file by its time
of modification, in milliseconds, and its size. All of them are words of 64 bits. -/
inductive SourceVersion where
  | text (hash : UInt64) (length : UInt64)
  | file (path : Path) (modified : UInt64) (size : UInt64)
  deriving Repr

namespace SourceVersion

def ofText (source : String) : SourceVersion :=
  .text (SipHash.hash (SipHash.textBytes source)) (UInt64.ofNat source.utf8ByteSize)

/-- Files at the same path in the same version are the same. -/
def same : SourceVersion → SourceVersion → Bool
  | .text hash length, .text hash' length' => hash == hash' && length == length'
  | .file path modified size, .file path' modified' size' =>
    path == path' && modified == modified' && size == size'
  | _, _ => false

instance : BEq SourceVersion := ⟨same⟩

/-- What `==` compares: the words of a text, or the steps and the words of a file. -/
def key : SourceVersion → (UInt64 × UInt64) ⊕ (List String × UInt64 × UInt64)
  | .text hash length => .inl (hash, length)
  | .file path modified size => .inr (path.components, modified, size)

theorem beq_iff {v w : SourceVersion} : v == w ↔ v.key = w.key := by
  show same v w = true ↔ _
  cases v <;> cases w <;> simp [same, key, Path.beq_iff, and_assoc]

instance : EquivBEq SourceVersion := equivBEq_of_iff_apply_eq key fun _ _ => beq_iff

theorem option_beq_iff {v w : Option SourceVersion} : v == w ↔ v.map key = w.map key := by
  cases v <;> cases w <;> simp [beq_iff]

instance : EquivBEq (Option SourceVersion) :=
  equivBEq_of_iff_apply_eq (Option.map key) fun _ _ => option_beq_iff

/-- The bytes of the steps of a path, then a word that tells where one step ends and the next
begins: the running sum of their lengths, turned right by two bits at each. -/
def pathBytes (path : Path) : List UInt8 :=
  let steps := path.components.filter (· != "/")
  let lengths := steps.foldl
    (fun sum step => SipHash.rotateLeft (sum + UInt64.ofNat step.utf8ByteSize) 62) 0
  steps.flatMap (fun step => step.toUTF8.toList) ++ SipHash.wordBytes lengths

def bytes : SourceVersion → List UInt8
  | .text hash length =>
    SipHash.wordBytes 0 ++ SipHash.wordBytes hash ++ SipHash.wordBytes length
  | .file path modified size =>
    SipHash.wordBytes 1 ++ pathBytes path ++ SipHash.wordBytes modified
      ++ SipHash.wordBytes size

end SourceVersion

structure Fingerprint where
  source : SourceVersion
  delimiters : Delimiters
  options : CompilerOptions
  deriving Repr, BEq

namespace Fingerprint

theorem beq_iff {f g : Fingerprint} :
    f == g ↔ f.source == g.source ∧ f.delimiters = g.delimiters ∧ f.options = g.options := by
  obtain ⟨s, d, o⟩ := f
  obtain ⟨s', d', o'⟩ := g
  show (s == s' && (d == d' && o == o')) = true ↔ _
  simp

instance : EquivBEq Fingerprint :=
  equivBEq_of_iff_apply_eq (fun f => (f.source.key, f.delimiters, f.options)) fun f g => by
    simp [beq_iff, SourceVersion.beq_iff]

def ofText (source : String) (delimiters : Delimiters) (options : CompilerOptions) :
    Fingerprint :=
  ⟨.ofText source, delimiters, options⟩

def bytes (f : Fingerprint) : List UInt8 :=
  f.source.bytes
    ++ SipHash.textBytes f.delimiters.opening ++ SipHash.textBytes f.delimiters.closing
    ++ SipHash.flagBytes f.options.disableLambdas
    ++ SipHash.flagBytes f.options.disableIndentation
    ++ SipHash.flagBytes f.options.includePartialCode
    ++ SipHash.flagBytes f.options.beautify

def hexDigits : Nat → Nat → List Char
  | 0, _ => []
  | n + 1, x => hexDigits n (x / 16) ++ [Nat.digitChar (x % 16)]

/-- Sixteen digits, lower-case, that name the file of a compiled template. -/
def digest (f : Fingerprint) : String :=
  String.ofList (hexDigits 16 (SipHash.hash f.bytes).toNat)

end Fingerprint

end Mustache
