import Folio.Picture.Reader

/-!
The header scan of a JPEG that is put into a document: segment lengths are followed to the first
start of frame, whose size and number of components are taken. No byte behind the end is read.
-/
namespace Folio.Picture

open Resource (Bytes)

structure JpegFrame where
  width : Nat
  height : Nat
  components : Nat
  deriving DecidableEq, Repr

/-- The markers of a start of frame: all of `C0` to `CF` but three that say something else. -/
def startsFrame (marker : UInt8) : Bool :=
  0xC0 ≤ marker && marker ≤ 0xCF && marker != 0xC4 && marker != 0xC8 && marker != 0xCC

/-- The frame that the segments from here on lead to. -/
def scanFrame (data : Bytes) : Option JpegFrame :=
  match h : data with
  | mark :: marker :: l0 :: l1 :: _ :: h0 :: h1 :: w0 :: w1 :: components :: _ =>
    if mark != 0xFF then none
    else if startsFrame marker then
      some ⟨bigEndian [w0, w1], bigEndian [h0, h1], components.toNat⟩
    else scanFrame (data.drop (2 + bigEndian [l0, l1]))
  | _ => none
termination_by data.length
decreasing_by
  subst h
  simp only [List.length_drop, List.length_cons]
  omega

def jpegFrame? (data : Bytes) : Option JpegFrame :=
  match data with
  | 0xFF :: 0xD8 :: rest => if rest.length < 2 then none else scanFrame rest
  | _ => none

end Folio.Picture
