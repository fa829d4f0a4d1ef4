import Folio.Picture.Reader

/-!
The header of a GIF file: the screen, its palette, and extensions up to the first part of another
kind.
-/
namespace Folio.Picture.Gif

open Resource (Bytes)

/-- What blocks of data hold together, each with its length in front, and what stands behind the
empty one that ends them. -/
def readBlocks (fuel : Nat) (data : Bytes) : Option (Bytes × Bytes) :=
  match fuel, data with
  | fuel + 1, length :: rest =>
    let size := length.toNat
    if size = 0 then some ([], rest)
    else if rest.length < size then none
    else (readBlocks fuel (rest.drop size)).map fun r => (rest.take size ++ r.1, r.2)
  | _, _ => none

/-- The labels of extensions: a text, the control of a picture, a comment, an application. -/
def labels : Bytes := [0x01, 0xF9, 0xFE, 0xFF]

/-- The control of a picture takes four bytes, other extensions hold what they like. -/
def fits (label : UInt8) (content : Bytes) : Bool :=
  labels.contains label && (label != 0xF9 || content.length == 4)

/-- Has a part of another kind begun behind the extensions? Its second byte shows it, but behind an
extension the end mark is enough. -/
def reachesPart (fuel : Nat) (data : Bytes) : Bool :=
  match fuel, data with
  | fuel + 1, 0x21 :: label :: rest =>
    match readBlocks rest.length rest with
    | some (content, rest) =>
      fits label content && (rest.head? == some 0x3B || reachesPart fuel rest)
    | none => false
  | _, kind :: _ :: _ => kind != 0x21
  | _, _ => false

/-- Width and height in pixels. -/
def size (data : Bytes) : Option (Nat × Nat) :=
  let screen := data.drop 6
  let packed := ((screen.drop 4).headD 0).toNat
  let palette := if 128 ≤ packed then 3 * Nat.pow 2 (packed % 8 + 1) else 0
  if reachesPart data.length (screen.drop (7 + palette)) then
    some (littleEndian (screen.take 2), littleEndian ((screen.drop 2).take 2))
  else none

end Folio.Picture.Gif
