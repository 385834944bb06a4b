/-!
# Mustache.SipHash

SipHash-1-3 with a key of zeros: one round for each block of eight bytes, three at the end. The
last block holds the bytes that are left and the length of the message, modulo 256, in its
highest byte.
-/

namespace Mustache.SipHash

structure State where
  v0 : UInt64
  v1 : UInt64
  v2 : UInt64
  v3 : UInt64
  deriving DecidableEq, Repr

/-- The four constants, the key being zero. -/
def initial : State :=
  ⟨0x736f6d6570736575, 0x646f72616e646f6d, 0x6c7967656e657261, 0x7465646279746573⟩

def rotateLeft (x n : UInt64) : UInt64 :=
  (x <<< n) ||| (x >>> (64 - n))

def round (s : State) : State :=
  let v0 := s.v0 + s.v1
  let v2 := s.v2 + s.v3
  let v1 := rotateLeft s.v1 13 ^^^ v0
  let v3 := rotateLeft s.v3 16 ^^^ v2
  let v0 := rotateLeft v0 32
  let v2 := v2 + v1
  let v0 := v0 + v3
  let v1 := rotateLeft v1 17 ^^^ v2
  let v3 := rotateLeft v3 21 ^^^ v0
  let v2 := rotateLeft v2 32
  ⟨v0, v1, v2, v3⟩

def absorb (s : State) (block : UInt64) : State :=
  let s := round { s with v3 := s.v3 ^^^ block }
  { s with v0 := s.v0 ^^^ block }

/-- The number with these bytes, lowest first. -/
def littleEndian : List UInt8 → UInt64
  | [] => 0
  | b :: bs => b.toUInt64 ||| (littleEndian bs <<< 8)

def absorbAll (length : Nat) (s : State) : List UInt8 → State
  | b₀ :: b₁ :: b₂ :: b₃ :: b₄ :: b₅ :: b₆ :: b₇ :: bs =>
    absorbAll length (absorb s (littleEndian [b₀, b₁, b₂, b₃, b₄, b₅, b₆, b₇])) bs
  | bs => absorb s (littleEndian bs ||| (UInt64.ofNat length <<< 56))

def finish (s : State) : UInt64 :=
  let s := round (round (round { s with v2 := s.v2 ^^^ 0xff }))
  s.v0 ^^^ s.v1 ^^^ s.v2 ^^^ s.v3

def hash (message : List UInt8) : UInt64 :=
  finish (absorbAll message.length initial message)

/-! ## What is hashed -/

def wordBytes (n : UInt64) : List UInt8 :=
  (List.range 8).map fun i => (n >>> (8 * UInt64.ofNat i)).toUInt8

/-- A text is followed by a byte that no text holds, so that the end of it can be told. -/
def textBytes (s : String) : List UInt8 :=
  s.toUTF8.toList ++ [0xff]

def flagBytes (b : Bool) : List UInt8 := [if b then 1 else 0]

end Mustache.SipHash
