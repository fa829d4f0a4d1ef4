import Folio.Picture.Checksum
import Folio.Picture.Reader
import Folio.Text.Latin1

/-!
The header of a PNG file: a chunk with the measures of the picture, then more chunks up to the one
where the pixels begin. What is wrong with a chunk that may be left out mostly counts for nothing.
-/
namespace Folio.Picture.Png

open Resource (Bytes)

/-- A chunk of a file: what it is called, and what it holds. -/
structure Chunk where
  kind : Bytes
  content : Bytes
  /-- Does its check sum fit? -/
  sound : Bool

def kindOf (name : String) : Bytes := Text.encodeLatin1 name

/-- A chunk may be left out if the bit is set that small letters have and capitals have not. -/
def Chunk.ancillary (c : Chunk) : Bool := c.kind.headD 0 / 32 % 2 == 1

/-- The first chunk and the bytes behind it: a length, a name, the content and a check sum. -/
def nextChunk (data : Bytes) : Option (Chunk × Bytes) :=
  let length := bigEndian (data.take 4)
  if data.length < length + 12 then none
  else
    let body := (data.drop 4).take (length + 4)
    let rest := data.drop (length + 8)
    some (⟨body.take 4, body.drop 4, (checksum body).toNat == bigEndian (rest.take 4)⟩, rest.drop 4)

structure Header where
  width : Nat
  height : Nat
  depth : UInt8
  colorType : UInt8

/-- The depths of a channel that a type of colour allows. -/
def depthsOf (colorType : UInt8) : List UInt8 :=
  if colorType == 0 then [1, 2, 4, 8, 16]
  else if colorType == 3 then [1, 2, 4, 8]
  else if colorType == 2 || colorType == 4 || colorType == 6 then [8, 16]
  else []

/-- What a header chunk says, if all of it is allowed. -/
def header? (c : Chunk) : Option Header :=
  match c.content.drop 8 with
  | [depth, colorType, compression, filter, interlace] =>
    let width := bigEndian (c.content.take 4)
    let height := bigEndian ((c.content.drop 4).take 4)
    if c.kind == kindOf "IHDR" && c.sound && 0 < width && 0 < height
        && (depthsOf colorType).contains depth && compression == 0 && filter == 0
        && interlace ≤ 1 then
      some ⟨width, height, depth, colorType⟩
    else none
  | _ => none

/-- What the chunks behind the header have settled. -/
structure Known where
  /-- The kinds that count once and have been met. -/
  kinds : List Bytes
  /-- The frames of an animation that have been announced. -/
  frames : Nat

namespace Known

def has (name : String) (known : Known) : Bool := known.kinds.contains (kindOf name)

def add (c : Chunk) (known : Known) : Known := { known with kinds := c.kind :: known.kinds }

/-- A chunk of fixed size that counts once. Too short it is passed over, too long it is refused. -/
def once (c : Chunk) (size : Nat) (allowed : Bool) (known : Known) : Option Known :=
  if known.kinds.contains c.kind || c.content.length < size then some known
  else if c.content.length == size && allowed then some (known.add c)
  else none

/-- Can the content make colours of the picture see-through? -/
def seesThrough (h : Header) (content : Bytes) (known : Known) : Bool :=
  if h.colorType == 0 then 2 ≤ content.length
  else if h.colorType == 2 then 6 ≤ content.length
  else h.colorType == 3 && known.has "PLTE"

/-- One more frame of an animation: they are numbered from nought on, and one in front of the pixels
is as large as the picture. -/
def frame (h : Header) (content : Bytes) (known : Known) : Option Known :=
  let part (start size : Nat) : Nat := bigEndian ((content.drop start).take size)
  if 26 ≤ content.length && part 0 4 == known.frames && part 4 4 == h.width && part 8 4 == h.height
      && part 12 8 == 0 && part 24 1 ≤ 2 && part 25 1 ≤ 1 then
    some { known with frames := known.frames + 1 }
  else none

/-- Passes one chunk behind the header, unless it must not stand there. -/
def pass (h : Header) (c : Chunk) (known : Known) : Option Known :=
  if !c.sound then if c.ancillary then some known else none
  else if c.kind == kindOf "PLTE" then
    if known.has "PLTE" || c.content.isEmpty || 768 < c.content.length then none
    else some (known.add c)
  else if c.kind == kindOf "tRNS" then
    some (if known.seesThrough h c.content then known.add c else known)
  else if c.kind == kindOf "fcTL" then known.frame h c.content
  else if c.kind == kindOf "cICP" then
    if known.has "PLTE" then some known
    else known.once c 4 (c.content.getD 2 0 == 0 && c.content.getD 3 0 ≤ 1)
  else if c.kind == kindOf "mDCV" then
    if known.has "PLTE" then some known else known.once c 24 true
  else if c.kind == kindOf "cLLI" then known.once c 8 true
  else if c.ancillary then some known
  else none

end Known

/-- The channels that a pixel has once palettes are looked up and see-through colours marked. -/
def channels (h : Header) (seesThrough : Bool) : Nat :=
  if h.colorType == 0 then if seesThrough then 2 else 1
  else if h.colorType == 4 then 2
  else if h.colorType == 6 || seesThrough then 4
  else 3

/-- The bytes of a row, each channel taking one at least. -/
def rowSize (h : Header) (known : Known) : Nat :=
  h.width * channels h (known.has "tRNS") * (if h.depth == 16 then 2 else 1)

/-- Rows with more bytes are not held. -/
def maxRowSize : Nat := 536870912

/-- Do the pixels, or those of a frame that was announced, begin here or behind chunks that may
stand in front of them? -/
def reachesPixels (h : Header) (fuel : Nat) (known : Known) (data : Bytes) : Bool :=
  match fuel with
  | 0 => false
  | fuel + 1 =>
    let kind := (data.drop 4).take 4
    if kind == kindOf "IDAT" then rowSize h known ≤ maxRowSize
    else if kind == kindOf "fdAT" then
      0 < known.frames && 4 ≤ bigEndian (data.take 4) && rowSize h known ≤ maxRowSize
    else
      match nextChunk data with
      | none => false
      | some (c, rest) =>
        match known.pass h c with
        | none => false
        | some known => reachesPixels h fuel known rest

/-- Width and height in pixels. -/
def size (data : Bytes) : Option (Nat × Nat) := do
  let (first, rest) ← nextChunk (data.drop 8)
  let h ← header? first
  if reachesPixels h data.length ⟨[], 0⟩ rest then return (h.width, h.height) else none

end Folio.Picture.Png
