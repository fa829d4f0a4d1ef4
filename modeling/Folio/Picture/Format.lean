import Folio.Picture.Gif
import Folio.Picture.JpegHeader
import Folio.Picture.Png

/-!
Pictures told apart by their first bytes, and their size in pixels read from their headers. A header
that is cut off or says nothing sensible gives no size.
-/
namespace Folio.Picture

open Resource (Bytes)

inductive PictureFormat where
  | png | jpeg | gif
  deriving DecidableEq, Repr

/-- The usual extension of a file of the format. -/
def PictureFormat.extension : PictureFormat → String
  | png => "png"
  | jpeg => "jpg"
  | gif => "gif"

def pngSignature : Bytes := [0x89, 0x50, 0x4E, 0x47, 0x0D, 0x0A, 0x1A, 0x0A]
def gifSignatures : List Bytes :=
  [[0x47, 0x49, 0x46, 0x38, 0x37, 0x61], [0x47, 0x49, 0x46, 0x38, 0x39, 0x61]]

def PictureFormat.guess (data : Bytes) : Option PictureFormat :=
  if pngSignature.isPrefixOf data then some png
  else if [0xFF, 0xD8, 0xFF].isPrefixOf data then some jpeg
  else if gifSignatures.any (·.isPrefixOf data) then some gif
  else none

/-- Width and height in pixels. -/
def pixelSize (format : PictureFormat) (data : Bytes) : Option (Nat × Nat) :=
  match format with
  | .png => Png.size data
  | .jpeg => JpegHeader.size data
  | .gif => Gif.size data

end Folio.Picture
