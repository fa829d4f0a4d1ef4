import Folio.Picture.Reader
import Folio.Text.Latin1

/-!
The header of a JPEG picture as a decoder reads it: segments up to the start of the first scan, each
of them checked. What the scan refers to must have been announced by a frame.
-/
namespace Folio.Picture.JpegHeader

open Resource (Bytes)
open Reader

structure Frame where
  width : Nat
  height : Nat
  /-- The name of each component. -/
  components : Bytes

/-- The next marker: a byte behind an `FF`, neither nought nor `FF`. All else is passed over. -/
def nextMarker : Bytes → Option (UInt8 × Bytes)
  | 0xFF :: marker :: rest =>
    if marker == 0 || marker == 0xFF then nextMarker (marker :: rest) else some (marker, rest)
  | _ :: rest => nextMarker rest
  | [] => none

/-- The length of a segment without the two bytes that give it. -/
def payload : Reader Nat := do
  let length ← word
  check (2 ≤ length)
  return length - 2

def isSampling (n : UInt8) : Bool := n == 1 || n == 2 || n == 4 || n == 8

/-- A component of a frame: its name, how it is sampled each way, and its table of divisors. -/
def component : Reader UInt8 := do
  let name ← byte
  let sampling ← byte
  let table ← byte
  check (isSampling (sampling / 16) && isSampling (sampling % 16) && table < 4)
  return name

def frame : Reader Frame := do
  let length ← word
  let precision ← byte
  let height ← word
  let width ← word
  let count := (← byte).toNat
  check (precision == 8 && height != 0 && width != 0 && 0 < count && count ≤ 4
    && length == 8 + 3 * count)
  return ⟨width, height, ← (List.range count).mapM fun _ => component⟩

/-- Tables of divisors, as many as the bytes that are left hold. -/
def divisors (left : Nat) : Reader Unit :=
  if left = 0 then return ()
  else do
    let info := (← byte).toNat
    let size := 64 * (info / 16 + 1)
    check (info / 16 ≤ 1 && info % 16 < 4 && size < left)
    skip size
    divisors (left - size - 1)
termination_by left

/-- Are there codes enough for so many symbols of each length, from one bit on? The code of ones
alone stands for none; `taken` is the number of codes that a length up to here has used. -/
def codesFit (taken room : Nat) : Bytes → Bool
  | [] => true
  | count :: rest =>
    let taken := 2 * taken + count.toNat
    let room := 2 * room
    taken < room && codesFit taken room rest

/-- Tables of codes, as many as the bytes that are left hold. Symbols of the first class are lengths
of at most 15 bits. -/
def codes (left : Nat) : Reader Unit :=
  if left ≤ 16 then check (left = 0)
  else do
    let info ← byte
    let counts ← bytes 16
    let total := counts.foldl (fun n count => n + count.toNat) 0
    check (info / 16 ≤ 1 && info % 16 < 4 && total ≤ 256 && 17 + total ≤ left)
    let symbols ← bytes total
    check (codesFit 0 1 counts && (info / 16 == 1 || symbols.all (· ≤ 15)))
    codes (left - 17 - total)
termination_by left

/-- How often the codes start afresh. -/
def restarts : Reader Unit := do
  let length ← word
  check (length == 4)
  skip 2

/-- A segment of an application. The first five bytes of a longer one are read at once, so that one
of four bytes takes another with it. -/
def application : Reader Unit := do
  let size ← payload
  skip (if size = 4 then 5 else size)

/-- A segment that may say how colours were changed: in the byte behind its first eleven, even if
the segment ends before. -/
def transform : Reader Unit := do
  let size ← payload
  if (Text.encodeLatin1 "Adobe").isPrefixOf (← get) then
    skip 11
    let kind ← byte
    check (kind ≤ 2)
    skip (size - 12)
  else skip size

/-- The component that a scan takes next, with the tables of codes for it. -/
def scanned : Reader UInt8 := do
  let name ← byte
  skip 1
  return name

/-- The start of a scan of some components of the frame. -/
def scan (f : Frame) : Reader Unit := do
  let length ← word
  let count := (← byte).toNat
  check (0 < count && count ≤ 4 && length == 6 + 2 * count)
  let names ← (List.range count).mapM fun _ => scanned
  check (decide names.Nodup && names.all f.components.contains)
  let first ← byte
  let last ← byte
  let bits ← byte
  check (first ≤ 63 && last ≤ 63 && bits / 16 ≤ 13 && bits % 16 ≤ 13)

/-- A segment that is no scan; there is one frame at most. -/
def segment (marker : UInt8) (f : Option Frame) : Reader (Option Frame) := do
  if 0xC0 ≤ marker && marker ≤ 0xC2 then
    check f.isNone
    return some (← frame)
  else
    if marker == 0xC4 then codes (← payload)
    else if marker == 0xDB then divisors (← payload)
    else if marker == 0xDD then restarts
    else if marker == 0xE0 then application
    else if marker == 0xEE then transform
    else if marker == 0xCC || marker == 0xD9 || marker == 0xDC then failure
    else skip (← payload)
    return f

/-- The frame of the first scan. -/
def readSegments (fuel : Nat) (f : Option Frame) (data : Bytes) : Option Frame :=
  match fuel with
  | 0 => none
  | fuel + 1 => do
    let (marker, rest) ← nextMarker data
    if marker == 0xDA then
      let f ← f
      let _ ← scan f rest
      return f
    else
      let (f, rest) ← segment marker f rest
      readSegments fuel f rest

/-- Width and height in pixels. -/
def size (data : Bytes) : Option (Nat × Nat) :=
  (readSegments data.length none (data.drop 2)).map fun f => (f.width, f.height)

end Folio.Picture.JpegHeader
