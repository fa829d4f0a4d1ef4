import Folio.Json.Value

/-!
The byte stream that stands for a data value, and its digest. Every kind of value begins with a byte
of its own, texts end in a byte that UTF-8 never holds, and arrays and maps begin with their length.
-/
namespace Folio

/-- A word as eight bytes, the lowest first. -/
def wordBytes (n : UInt64) : List UInt8 :=
  [n.toUInt8, (n >>> 8).toUInt8, (n >>> 16).toUInt8, (n >>> 24).toUInt8, (n >>> 32).toUInt8,
    (n >>> 40).toUInt8, (n >>> 48).toUInt8, (n >>> 56).toUInt8]

@[simp] theorem wordBytes_length (n : UInt64) : (wordBytes n).length = 8 := rfl

def lengthBytes (n : Nat) : List UInt8 := wordBytes n.toUInt64

def textBytes (s : String) : List UInt8 := s.toUTF8.toList ++ [0xFF]

namespace Json

mutual

def stream : Json → List UInt8
  | null => [0]
  | bool b => [1, if b then 1 else 0]
  | number n => 2 :: wordBytes n.pattern
  | string s => 3 :: textBytes s
  | array items => 4 :: lengthBytes items.length ++ streamItems items
  | object fields => 5 :: lengthBytes fields.length ++ streamFields fields

def streamItems : List Json → List UInt8
  | [] => []
  | x :: xs => stream x ++ streamItems xs

def streamFields : List (String × Json) → List UInt8
  | [] => []
  | (k, x) :: fs => textBytes k ++ stream x ++ streamFields fs

end

end Json

namespace Fields

/-- The stream of a map that is known to be one. -/
def stream (fs : Fields) : List UInt8 := lengthBytes fs.length ++ Json.streamFields fs

end Fields

/-! ## SipHash

A keyed hash of a byte stream, here with the key that is all zeros, with one round for each word
and three at the end. -/

def rotateLeft (x count : UInt64) : UInt64 := (x <<< count) ||| (x >>> (64 - count))

/-- The four words of the hash on its way. -/
structure SipState where
  v0 : UInt64
  v1 : UInt64
  v2 : UInt64
  v3 : UInt64

namespace SipState

def initial : SipState :=
  ⟨0x736F6D6570736575, 0x646F72616E646F6D, 0x6C7967656E657261, 0x7465646279746573⟩

def round (s : SipState) : SipState :=
  let v0 := s.v0 + s.v1
  let v2 := s.v2 + s.v3
  let v1 := rotateLeft s.v1 13 ^^^ v0
  let v3 := rotateLeft s.v3 16 ^^^ v2
  let v0 := rotateLeft v0 32 + v3
  let v2 := v2 + v1
  ⟨v0, rotateLeft v1 17 ^^^ v2, rotateLeft v2 32, rotateLeft v3 21 ^^^ v0⟩

/-- Takes one word in. -/
def absorb (s : SipState) (word : UInt64) : SipState :=
  let s := { s with v3 := s.v3 ^^^ word }.round
  { s with v0 := s.v0 ^^^ word }

def finish (s : SipState) : UInt64 :=
  let s := { s with v2 := s.v2 ^^^ 0xFF }.round.round.round
  s.v0 ^^^ s.v1 ^^^ s.v2 ^^^ s.v3

end SipState

/-- The word of at most eight bytes, the lowest first. -/
def wordOf : List UInt8 → UInt64
  | [] => 0
  | b :: bs => b.toUInt64 ||| (wordOf bs <<< 8)

/-- Takes in all whole words and then what is left, with the length in its highest byte. -/
def digestFrom (length : UInt64) (s : SipState) : List UInt8 → UInt64
  | b₀ :: b₁ :: b₂ :: b₃ :: b₄ :: b₅ :: b₆ :: b₇ :: rest =>
    digestFrom length (s.absorb (wordOf [b₀, b₁, b₂, b₃, b₄, b₅, b₆, b₇])) rest
  | rest => (s.absorb ((length <<< 56) ||| wordOf rest)).finish

/-- A 64-bit digest of a stream; equal streams have equal digests. -/
def digest (bytes : List UInt8) : UInt64 :=
  digestFrom bytes.length.toUInt64 .initial bytes

example : digest [] = 0xD1FBA762150C532C := by decide +kernel

end Folio
