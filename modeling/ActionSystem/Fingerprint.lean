import ActionSystem.Value.Basic

/-!
# Fingerprints

A 64-bit digest of a list of values, by which states are found quickly. The digests of the values
depend on their positions and are combined by exclusive or. Integers and truth values are mixed into
their positions modulo 2^64; the digest of strings and composite values is a parameter.
-/

namespace ActionSystem

structure Fingerprint where
  word : UInt64
deriving DecidableEq

namespace Fingerprint

def render (f : Fingerprint) : String :=
  let digits := Nat.toDigits 16 f.word.toNat
  String.ofList (List.replicate (16 - digits.length) '0' ++ digits)

/-- Mix a word into a position, with a seed that tells the kinds of words apart. -/
def scramble (seed : UInt64) (position : Nat) (word : UInt64) : UInt64 :=
  let h := (UInt64.ofNat position ^^^ seed) * 0x9e3779b97f4a7c15
  let h := (h ^^^ word) * 0x517cc1b727220a95
  h ^^^ (h >>> 32)

def intSeed : UInt64 := 0x2d358dccaa6c78a5

def boolSeed : UInt64 := 0x7f4a7c159e3779b9

section

-- The digest of the values that are neither integers nor truth values is not fixed here.
variable (nested : Nat → Value → UInt64)

def ofValue (position : Nat) : Value → UInt64
  | .int n => scramble intSeed position n.toUInt64
  | .bool b => scramble boolSeed position (if b then 1 else 0)
  | v => nested position v

def ofValuesFrom (position : Nat) : List Value → UInt64
  | [] => 0
  | v :: vs => ofValue nested position v ^^^ ofValuesFrom (position + 1) vs

def ofValues (vs : List Value) : Fingerprint := ⟨ofValuesFrom nested 0 vs⟩

end

end Fingerprint

end ActionSystem
