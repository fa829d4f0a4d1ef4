import Folio.Picture.Jpeg

/-!
# Scanning for a frame

The header scan of a JPEG goes from segment to segment by their lengths. With every byte read at its
own place in the file, no read leaves the file, whatever the lengths say. The scan passes over any
row of segments in front of a start of frame and answers with its size and its components; and what
it answers with always stands where the lengths lead.
-/
namespace Folio.Picture

open Resource (Bytes)

/-! ## Reading by position -/

/-- The number of two bytes at a place, the highest first. -/
def wordAt? (data : Bytes) (i : Nat) : Option Nat := do
  let high ← data[i]?
  let low ← data[i + 1]?
  return bigEndian [high, low]

/-- The scan from the segment at `i` on. There is no outcome at all if a read leaves the file. -/
def scanAt? (data : Bytes) (i : Nat) : Option (Option JpegFrame) :=
  if i + 9 < data.length then do
    let mark ← data[i]?
    if mark != 0xFF then return none
    let marker ← data[i + 1]?
    let length ← wordAt? data (i + 2)
    if startsFrame marker then
      let height ← wordAt? data (i + 5)
      let width ← wordAt? data (i + 7)
      let components ← data[i + 9]?
      return some ⟨width, height, components.toNat⟩
    scanAt? data (i + (2 + length))
  else return none
termination_by data.length - i

/-- The scan of a whole file. -/
def frameAt? (data : Bytes) : Option (Option JpegFrame) :=
  if data.length < 4 then return none
  else do
    let first ← data[0]?
    if first != 0xFF then return none
    let second ← data[1]?
    if second != 0xD8 then return none
    scanAt? data 2

/-- The bytes of a header at a place: a mark, a marker, a length and what a start of frame says. -/
structure HeaderAt (data : Bytes) (i : Nat) (mark marker : UInt8) (length : Nat)
    (frame : JpegFrame) : Prop where
  mark : data[i]? = some mark
  marker : data[i + 1]? = some marker
  length : wordAt? data (i + 2) = some length
  height : wordAt? data (i + 5) = some frame.height
  width : wordAt? data (i + 7) = some frame.width
  components : data[i + 9]?.map UInt8.toNat = some frame.components

theorem exists_ten (data : Bytes) (h : 10 ≤ data.length) :
    ∃ mark marker l0 l1 precision h0 h1 w0 w1 number rest,
      data = mark :: marker :: l0 :: l1 :: precision :: h0 :: h1 :: w0 :: w1 :: number :: rest :=
  match data, h with
  | _ :: _ :: _ :: _ :: _ :: _ :: _ :: _ :: _ :: _ :: _, _ => ⟨_, _, _, _, _, _, _, _, _, _, _, rfl⟩

/-- One turn of the scan: where ten bytes are left there is a header, which decides. -/
theorem exists_headerAt {data : Bytes} {i : Nat} (h : i + 9 < data.length) :
    ∃ mark marker length frame, HeaderAt data i mark marker length frame ∧
      scanFrame (data.drop i) = if mark != 0xFF then none
        else if startsFrame marker then some frame
        else scanFrame (data.drop (i + (2 + length))) := by
  obtain ⟨mark, marker, l0, l1, precision, h0, h1, w0, w1, number, rest, hten⟩ :=
    exists_ten (data.drop i) (by rw [List.length_drop]; omega)
  have hread (k : Nat) : data[i + k]? = (data.drop i)[k]? := List.getElem?_drop.symm
  refine ⟨mark, marker, bigEndian [l0, l1],
    ⟨bigEndian [w0, w1], bigEndian [h0, h1], number.toNat⟩, ?_, ?_⟩
  · constructor
    · simpa [hten] using hread 0
    · simp [hread, hten]
    all_goals simp [wordAt?, Nat.add_assoc, hread, hten]
  · rw [← List.drop_drop, hten, scanFrame]

theorem scanFrame_of_short {data : Bytes} {i : Nat} (h : data.length ≤ i + 9) :
    scanFrame (data.drop i) = none := by
  unfold scanFrame
  split
  · next heq =>
    have hlength := congrArg List.length heq
    simp only [List.length_drop, List.length_cons] at hlength
    omega
  · rfl

/-- Read by position the scan comes to the same, and no read leaves the file. -/
theorem scanAt?_eq (data : Bytes) (i : Nat) : scanAt? data i = some (scanFrame (data.drop i)) := by
  fun_induction scanAt? data i with
  | case1 i h ih =>
    obtain ⟨mark, marker, length, frame, hheader, hscan⟩ := exists_headerAt h
    obtain ⟨components, hcomponents, hnumber⟩ := Option.map_eq_some_iff.mp hheader.components
    simp only [hheader.mark, hheader.marker, hheader.length, hheader.height, hheader.width,
      hcomponents, ih, hscan, Option.bind_eq_bind, Option.bind_some, hnumber]
    split
    · rfl
    · split <;> rfl
  | case2 i h => rw [scanFrame_of_short (by omega)]; rfl

/-- A file is scanned behind its start marker. -/
theorem jpegFrame?_cons (first second : UInt8) (rest : Bytes) :
    jpegFrame? (first :: second :: rest) = if first != 0xFF then none
      else if second != 0xD8 then none else scanFrame rest := by
  by_cases hfirst : first = 0xFF
  · by_cases hsecond : second = 0xD8
    · subst hfirst hsecond
      by_cases hshort : rest.length < 2
      · have hnone : scanFrame (rest.drop 0) = none := scanFrame_of_short (by omega)
        simpa [jpegFrame?, hshort] using hnone.symm
      · simp [jpegFrame?, hshort]
    · simp [jpegFrame?, hsecond]
  · simp [jpegFrame?, hfirst]

theorem jpegFrame?_of_short {data : Bytes} (h : data.length < 4) : jpegFrame? data = none := by
  unfold jpegFrame?
  split
  · next rest =>
    rw [List.length_cons, List.length_cons] at h
    exact if_pos (by omega)
  · rfl

theorem frameAt?_eq (data : Bytes) : frameAt? data = some (jpegFrame? data) := by
  unfold frameAt?
  split
  · next hshort => rw [jpegFrame?_of_short hshort]; rfl
  · next hlong =>
    obtain ⟨first, second, rest, rfl⟩ : ∃ first second rest, data = first :: second :: rest :=
      match data, hlong with
      | [_], hlong => absurd (by simp) hlong
      | first :: second :: rest, _ => ⟨first, second, rest, rfl⟩
    simp only [List.getElem?_cons_zero, List.getElem?_cons_succ, scanAt?_eq, jpegFrame?_cons,
      List.drop_succ_cons, List.drop_zero, Option.bind_eq_bind, Option.bind_some]
    split
    · rfl
    · split <;> rfl

/-! ## Where the lengths lead -/

/-- The markers of a start of frame. -/
def frameMarkers : List UInt8 :=
  [0xC0, 0xC1, 0xC2, 0xC3, 0xC5, 0xC6, 0xC7, 0xC9, 0xCA, 0xCB, 0xCD, 0xCE, 0xCF]

theorem startsFrame_iff (marker : UInt8) : startsFrame marker = true ↔ marker ∈ frameMarkers := by
  simp only [startsFrame, frameMarkers, List.mem_cons, List.not_mem_nil, or_false,
    Bool.and_eq_true, decide_eq_true_eq, bne_iff_ne, ne_eq, ← UInt8.toNat_inj,
    UInt8.le_iff_toNat_le, UInt8.reduceToNat]
  omega

/-- From a place over segments that start no frame, each passed by its length, to another. -/
inductive Follows (data : Bytes) : Nat → Nat → Prop
  | here (i : Nat) : Follows data i i
  | next {i j : Nat} {marker : UInt8} {length : Nat} (hmark : data[i]? = some 0xFF)
      (hmarker : data[i + 1]? = some marker) (hother : marker ∉ frameMarkers)
      (hlength : wordAt? data (i + 2) = some length) (h : Follows data (i + (2 + length)) j) :
      Follows data i j

theorem Follows.le {data : Bytes} {i j : Nat} (h : Follows data i j) : i ≤ j := by
  induction h with
  | here => exact Nat.le_refl _
  | next _ _ _ _ _ ih => omega

/-- A start of frame stands at the place and says this. -/
def FrameAt (data : Bytes) (i : Nat) (frame : JpegFrame) : Prop :=
  ∃ marker ∈ frameMarkers, ∃ length, HeaderAt data i 0xFF marker length frame

theorem HeaderAt.lt {data : Bytes} {i length : Nat} {mark marker : UInt8} {frame : JpegFrame}
    (h : HeaderAt data i mark marker length frame) : i + 9 < data.length := by
  obtain ⟨components, hcomponents, -⟩ := Option.map_eq_some_iff.mp h.components
  exact (List.getElem?_eq_some_iff.mp hcomponents).1

theorem FrameAt.lt {data : Bytes} {i : Nat} {frame : JpegFrame} (h : FrameAt data i frame) :
    i + 9 < data.length := by
  obtain ⟨_, _, _, hheader⟩ := h
  exact hheader.lt

/-- There is one frame at most at a place. -/
theorem HeaderAt.frame_eq {data : Bytes} {i length length' : Nat}
    {mark marker mark' marker' : UInt8} {frame frame' : JpegFrame}
    (h : HeaderAt data i mark marker length frame)
    (k : HeaderAt data i mark' marker' length' frame') : frame = frame' := by
  have hwidth := Option.some.inj (h.width.symm.trans k.width)
  have hheight := Option.some.inj (h.height.symm.trans k.height)
  have hcomponents := Option.some.inj (h.components.symm.trans k.components)
  cases frame
  cases frame'
  simp_all

/-- The scan passes over a segment that starts no frame. -/
theorem scanFrame_next {data : Bytes} {i length : Nat} {marker : UInt8}
    (hroom : i + 9 < data.length) (hmark : data[i]? = some 0xFF)
    (hmarker : data[i + 1]? = some marker) (hother : marker ∉ frameMarkers)
    (hlength : wordAt? data (i + 2) = some length) :
    scanFrame (data.drop i) = scanFrame (data.drop (i + (2 + length))) := by
  obtain ⟨mark, _, _, _, hheader, hturn⟩ := exists_headerAt hroom
  obtain rfl := Option.some.inj (hheader.mark.symm.trans hmark)
  obtain rfl := Option.some.inj (hheader.marker.symm.trans hmarker)
  obtain rfl := Option.some.inj (hheader.length.symm.trans hlength)
  rw [← startsFrame_iff] at hother
  rw [hturn, if_neg (by decide), if_neg hother]

/-- The scan ends at a start of frame. -/
theorem scanFrame_frame {data : Bytes} {i : Nat} {frame : JpegFrame} (h : FrameAt data i frame) :
    scanFrame (data.drop i) = some frame := by
  obtain ⟨marker, hstarts, length, hframe⟩ := h
  obtain ⟨mark, _, _, _, hheader, hturn⟩ := exists_headerAt hframe.lt
  obtain rfl := Option.some.inj (hheader.mark.symm.trans hframe.mark)
  obtain rfl := Option.some.inj (hheader.marker.symm.trans hframe.marker)
  rw [← startsFrame_iff] at hstarts
  rw [hturn, if_neg (by decide), if_pos hstarts, hheader.frame_eq hframe]

/-- What the scan finds stands where the lengths lead. -/
theorem exists_follows {data : Bytes} {i : Nat} {frame : JpegFrame}
    (h : scanFrame (data.drop i) = some frame) : ∃ j, Follows data i j ∧ FrameAt data j frame := by
  -- on how much of the file is left, since a length leads any number of bytes ahead
  induction hn : data.length - i using Nat.strongRecOn generalizing i with
  | ind n ih =>
    by_cases hroom : i + 9 < data.length
    · obtain ⟨mark, marker, length, found, hheader, hturn⟩ := exists_headerAt hroom
      rw [hturn] at h
      split at h
      · cases h
      · next hmark =>
        obtain rfl : mark = 0xFF := by simpa using hmark
        split at h
        · next hstarts =>
          obtain rfl := Option.some.inj h
          exact ⟨i, .here i, marker, (startsFrame_iff marker).mp hstarts, length, hheader⟩
        · next hother =>
          obtain ⟨j, hfollows, hframe⟩ := ih _ (by omega) h rfl
          rw [startsFrame_iff] at hother
          exact ⟨j, .next hheader.mark hheader.marker hother hheader.length hfollows, hframe⟩
    · rw [scanFrame_of_short (by omega)] at h
      cases h

/-- A frame that the lengths lead to is found. -/
theorem Follows.scanFrame_eq {data : Bytes} {i j : Nat} {frame : JpegFrame} (h : Follows data i j)
    (hframe : FrameAt data j frame) : scanFrame (data.drop i) = some frame := by
  induction h with
  | here i => exact scanFrame_frame hframe
  | next hmark hmarker hother hlength h ih =>
    -- the frame further on fits into the file, and so does the header of the segment here
    have hle := h.le
    have hlt := hframe.lt
    rw [scanFrame_next (by omega) hmark hmarker hother hlength]
    exact ih hframe

/-- A file is a JPEG with a frame exactly if it has the start marker and the lengths behind it lead
to a start of frame. -/
theorem jpegFrame?_eq_some_iff {data : Bytes} {frame : JpegFrame} :
    jpegFrame? data = some frame ↔ [0xFF, 0xD8] <+: data ∧
      ∃ i, Follows data 2 i ∧ FrameAt data i frame := by
  constructor
  · intro h
    unfold jpegFrame? at h
    split at h
    · next rest =>
      split at h
      · cases h
      · exact ⟨List.prefix_append [0xFF, 0xD8] rest, exists_follows (i := 2) h⟩
    · cases h
  · rintro ⟨⟨rest, rfl⟩, i, hfollows, hframe⟩
    exact (jpegFrame?_cons 0xFF 0xD8 rest).trans (hfollows.scanFrame_eq hframe)

/-! ## Segments -/

/-- The two bytes of a number, the highest first. -/
def pairBytes (n : Nat) : Bytes := [(n / 256).toUInt8, (n % 256).toUInt8]

/-- A segment that starts no frame, with what stands behind its length. -/
structure Segment where
  marker : UInt8
  body : Bytes
  starts_none : marker ∉ frameMarkers
  short : body.length + 2 < 65536

def Segment.bytes (s : Segment) : Bytes :=
  0xFF :: s.marker :: pairBytes (s.body.length + 2) ++ s.body

/-- A start of frame: the bits of a sample, the size, and three bytes for each component. -/
structure FrameSegment where
  marker : UInt8
  precision : UInt8
  height : UInt16
  width : UInt16
  components : List (UInt8 × UInt8 × UInt8)
  starts : marker ∈ frameMarkers
  few : components.length < 256

namespace FrameSegment

def bytes (s : FrameSegment) : Bytes :=
  0xFF :: s.marker :: pairBytes (8 + 3 * s.components.length) ++
    s.precision :: pairBytes s.height.toNat ++ pairBytes s.width.toNat ++
    s.components.length.toUInt8 :: s.components.flatMap fun (id, sampling, table) =>
      [id, sampling, table]

def frame (s : FrameSegment) : JpegFrame := ⟨s.width.toNat, s.height.toNat, s.components.length⟩

end FrameSegment

/-- What stands behind `front` is read from its length on. -/
theorem getElem?_behind (front back : Bytes) (k : Nat) :
    (front ++ back)[front.length + k]? = back[k]? := by
  rw [List.getElem?_append_right (Nat.le_add_right ..), Nat.add_sub_cancel_left]

theorem wordAt?_behind (front back : Bytes) (k : Nat) :
    wordAt? (front ++ back) (front.length + k) = wordAt? back k := by
  unfold wordAt?
  rw [Nat.add_assoc, getElem?_behind, getElem?_behind]

/-- The lengths lead over a segment. -/
theorem Segment.follows (s : Segment) (front back : Bytes) :
    Follows (front ++ (s.bytes ++ back)) front.length (front.length + s.bytes.length) := by
  have hlength : wordAt? (front ++ (s.bytes ++ back)) (front.length + 2) =
      some (s.body.length + 2) := by
    rw [wordAt?_behind]
    simp [wordAt?, bytes, pairBytes, bigEndian_pair _ s.short]
  have hbytes : s.bytes.length = 2 + (s.body.length + 2) := by
    simp [bytes, pairBytes]
    omega
  rw [hbytes]
  exact .next (getElem?_behind _ _ 0) (getElem?_behind _ _ 1) s.starts_none hlength (.here _)

theorem Follows.trans {data : Bytes} {i j k : Nat} (h : Follows data i j) (l : Follows data j k) :
    Follows data i k := by
  induction h with
  | here => exact l
  | next hmark hmarker hother hlength _ ih => exact .next hmark hmarker hother hlength (ih l)

/-- The lengths lead over any row of segments. -/
theorem follows_segments (segments : List Segment) (front back : Bytes) :
    Follows (front ++ (segments.flatMap Segment.bytes ++ back)) front.length
      (front.length + (segments.flatMap Segment.bytes).length) := by
  induction segments generalizing front with
  | nil => exact .here _
  | cons s segments ih =>
    have hfirst := s.follows front (segments.flatMap Segment.bytes ++ back)
    have hrest := ih (front ++ s.bytes)
    rw [List.length_append, List.append_assoc] at hrest
    rw [List.flatMap_cons, List.append_assoc, List.length_append, ← Nat.add_assoc]
    exact hfirst.trans hrest

theorem FrameSegment.frameAt (s : FrameSegment) (front back : Bytes) :
    FrameAt (front ++ (s.bytes ++ back)) front.length s.frame := by
  have hlength : 8 + 3 * s.components.length < 65536 := by
    have hfew := s.few
    omega
  refine ⟨s.marker, s.starts, 8 + 3 * s.components.length, ?_⟩
  constructor
  · exact getElem?_behind _ _ 0
  · exact getElem?_behind _ _ 1
  · rw [wordAt?_behind]
    simp [wordAt?, bytes, pairBytes, bigEndian_pair _ hlength]
  · rw [wordAt?_behind]
    simp [wordAt?, bytes, pairBytes, frame, bigEndian_pair _ s.height.toNat_lt]
  · rw [wordAt?_behind]
    simp [wordAt?, bytes, pairBytes, frame, bigEndian_pair _ s.width.toNat_lt]
  · rw [getElem?_behind]
    simp [bytes, pairBytes, frame, Nat.mod_eq_of_lt s.few]

/-- The scan reads no byte outside of the file, whatever stands in it. It passes over every row of
segments in front of a start of frame and finds what that says. Whatever it finds, the lengths of
the segments lead to a start of frame that says so, and it finds every frame that they lead to. -/
theorem jpegFrame_followed :
    (∀ data : Bytes, frameAt? data = some (jpegFrame? data)) ∧
    (∀ (segments : List Segment) (s : FrameSegment) (rest : Bytes),
      jpegFrame? (0xFF :: 0xD8 :: segments.flatMap Segment.bytes ++ s.bytes ++ rest) =
        some s.frame) ∧
    ∀ (data : Bytes) (frame : JpegFrame), jpegFrame? data = some frame ↔
      [0xFF, 0xD8] <+: data ∧ ∃ i, Follows data 2 i ∧ FrameAt data i frame := by
  refine ⟨frameAt?_eq, fun segments s rest => ?_, fun data frame => jpegFrame?_eq_some_iff⟩
  have hfollows := follows_segments segments [0xFF, 0xD8] (s.bytes ++ rest)
  have hframe := s.frameAt ([0xFF, 0xD8] ++ segments.flatMap Segment.bytes) rest
  rw [List.length_append, List.append_assoc] at hframe
  rw [List.append_assoc]
  exact jpegFrame?_eq_some_iff.mpr ⟨List.prefix_append _ _, _, hfollows, hframe⟩

end Folio.Picture
