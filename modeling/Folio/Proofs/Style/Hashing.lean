import Folio.Cache
import Folio.Proofs.Json.Streams
import Folio.Proofs.Json.Zeros
import Folio.Style.Digest

/-!
# Equality and streams

What compares equal need not have one stream: zeros compare equal whatever their signs, and the
streams hold the bits of the signs. There is no other difference, so equal values have one stream
just if they are the same value.
-/
namespace Folio

variable {s t : List UInt8}

/-! ## Numbers -/

theorem single_eq_of_unpack {x y : Single} (h : x.toModel.unpack = y.toModel.unpack) : x = y := by
  have hbits := (Float.Model.UnpackedFloat.unpack_inj_of_valid x.toModel.valid y.toModel.valid).mp h
  exact Float32.toBits_inj.mp (UInt32.toBitVec_inj.mp hbits)

namespace Single

/-- The number, a zero taken as positive. -/
def unsignZero (x : Single) : Single := if x.toBits = 0x80000000 then .ofBits 0 else x

theorem unsignZero_of_unpack {x : Single} {sign : Float.Model.UnpackedFloat.Sign}
    (h : x.toModel.unpack = .zero sign) : unsignZero x = .ofBits 0 := by
  cases sign with
  | negative =>
    obtain rfl : x = .ofBits 0x80000000 := single_eq_of_unpack h
    rfl
  | positive =>
    obtain rfl : x = .ofBits 0 := single_eq_of_unpack h
    rfl

theorem unsignZero_eq_of_beq {x y : Single} (h : x == y) : unsignZero x = unsignZero y := by
  rcases unpacked_eq_of_beq h with h | ⟨_, _, hx, hy⟩
  · rw [single_eq_of_unpack h]
  · rw [unsignZero_of_unpack hx, unsignZero_of_unpack hy]

theorem stream_inj {x y : Single} : stream x = stream y ↔ x = y := by
  refine ⟨fun h => ?_, congrArg stream⟩
  have hbytes := congrArg (List.map UInt8.toNat) h
  simp only [stream, List.map_cons, List.map_nil, List.cons.injEq, UInt32.toNat_toUInt8,
    UInt32.toNat_shiftRight, Nat.shiftRight_eq_div_pow, UInt32.reduceToNat, Nat.reduceMod,
    Nat.reducePow, and_true] at hbytes
  have hx := x.toBits.toNat_lt
  have hy := y.toBits.toNat_lt
  exact Float32.toBits_inj.mp (UInt32.toNat_inj.mp (by omega))

theorem stream_append {x y : Single} : stream x ++ s = stream y ++ t ↔ x = y ∧ s = t := by
  rw [← stream_inj]
  exact ⟨fun h => List.append_inj h rfl, fun ⟨h, k⟩ => by rw [h, k]⟩

end Single

theorem Number.eq_of_pattern {m n : Number} (h : m == n) (hpattern : m.pattern = n.pattern) :
    m = n := by
  cases m with
  | whole m =>
    cases n with
    | whole n => rw [show m = n from hpattern]
    | _ => cases h
  | negative m =>
    cases n with
    | negative n => rw [show m = n from eq_of_beq h]
    | _ => cases h
  | real x =>
    cases n with
    | real y => rw [Float.toBits_inj.mp hpattern]
    | _ => cases h

/-! ## Values

Values that compare equal have the same texts, keys and lengths, so only at a number does it take
the streams to see that they are one. -/

namespace Json

mutual

theorem eq_of_stream : {x y : Json} → {s t : List UInt8} → beq x y →
    x.stream ++ s = y.stream ++ t → x = y ∧ s = t
  | null, null, _, _, _, h => ⟨rfl, List.append_cancel_left h⟩
  | bool a, bool b, _, _, hbeq, h => by
    obtain rfl : a = b := eq_of_beq hbeq
    exact ⟨rfl, List.append_cancel_left h⟩
  | number m, number n, _, _, hbeq, h => by
    obtain ⟨hpattern, hrest⟩ := wordBytes_append.mp (List.cons.inj h).2
    exact ⟨congrArg number (Number.eq_of_pattern hbeq hpattern), hrest⟩
  | string x, string y, _, _, hbeq, h => by
    obtain rfl : x = y := eq_of_beq hbeq
    exact ⟨rfl, List.append_cancel_left h⟩
  | array xs, array ys, _, _, hbeq, h => by
    simp only [stream, List.append_assoc, List.cons_append, List.cons.injEq, true_and] at h
    -- the lengths stand in eight bytes each, whatever they are
    obtain ⟨-, h⟩ := List.append_inj h rfl
    obtain ⟨hitems, hrest⟩ := items_eq_of_stream hbeq h
    exact ⟨congrArg array hitems, hrest⟩
  | object fs, object gs, _, _, hbeq, h => by
    simp only [stream, List.append_assoc, List.cons_append, List.cons.injEq, true_and] at h
    obtain ⟨-, h⟩ := List.append_inj h rfl
    obtain ⟨hfields, hrest⟩ := fields_eq_of_stream hbeq h
    exact ⟨congrArg object hfields, hrest⟩

theorem items_eq_of_stream : {xs ys : List Json} → {s t : List UInt8} → beqItems xs ys →
    streamItems xs ++ s = streamItems ys ++ t → xs = ys ∧ s = t
  | [], [], _, _, _, h => ⟨rfl, h⟩
  | x :: xs, y :: ys, _, _, hbeq, h => by
    obtain ⟨hx, hxs⟩ := Bool.and_eq_true_iff.mp hbeq
    simp only [streamItems, List.append_assoc] at h
    obtain ⟨rfl, htail⟩ := eq_of_stream hx h
    obtain ⟨rfl, hrest⟩ := items_eq_of_stream hxs htail
    exact ⟨rfl, hrest⟩

theorem fields_eq_of_stream : {fs gs : Fields} → {s t : List UInt8} → beqFields fs gs →
    streamFields fs ++ s = streamFields gs ++ t → fs = gs ∧ s = t
  | [], [], _, _, _, h => ⟨rfl, h⟩
  | (k, x) :: fs, (l, y) :: gs, _, _, hbeq, h => by
    obtain ⟨hfirst, hfs⟩ := Bool.and_eq_true_iff.mp hbeq
    obtain ⟨hkey, hx⟩ := Bool.and_eq_true_iff.mp hfirst
    obtain rfl : k = l := eq_of_beq hkey
    simp only [streamFields, List.append_assoc] at h
    obtain ⟨rfl, htail⟩ := eq_of_stream hx (List.append_cancel_left h)
    obtain ⟨rfl, hrest⟩ := fields_eq_of_stream hfs htail
    exact ⟨rfl, hrest⟩

end

end Json

/-! ## What the streams tell apart -/

/-- If two values compare equal then they are the same but for the signs of zeros, and if a sign
differs then so does the stream. -/
def TellsZerosApart {β : Type} [BEq β] (unsign : β → β) (stream : β → List UInt8) (a b : β) :
    Prop :=
  a == b → unsign a = unsign b ∧ (stream a = stream b ↔ a = b)

namespace Style

/-- The context, every zero in it taken as positive. -/
def Context.unsignZeros (context : Context) : Context := ⟨Json.unsignFields context.attrs⟩

def Font.unsignZeros (font : Font Single) : Font Single :=
  font.withSize (Single.unsignZero font.size)

def Margins.unsignZeros (m : Margins Single) : Margins Single :=
  ⟨Single.unsignZero m.top, Single.unsignZero m.right, Single.unsignZero m.bottom,
    Single.unsignZero m.left⟩

def PageSize.unsignZeros : PageSize Single → PageSize Single
  | named format => named format
  | custom width height => custom (Single.unsignZero width) (Single.unsignZero height)

theorem Context.tellsZerosApart (a b : Context) :
    TellsZerosApart Context.unsignZeros (fun context => Fields.stream context.attrs) a b := by
  obtain ⟨fs⟩ := a
  obtain ⟨gs⟩ := b
  intro hbeq
  refine ⟨congrArg Context.mk (Json.unsignFields_eq_of_beq hbeq), fun h => ?_, fun h => h ▸ rfl⟩
  obtain ⟨-, h⟩ := List.append_inj h rfl
  obtain ⟨hfields, -⟩ := Json.fields_eq_of_stream (s := []) (t := []) hbeq (congrArg (· ++ []) h)
  exact congrArg Context.mk hfields

theorem Font.tellsZerosApart (f g : Font Single) :
    TellsZerosApart Font.unsignZeros Font.stream f g := by
  obtain ⟨family, size, style, color⟩ := f
  obtain ⟨family', size', style', color'⟩ := g
  intro hbeq
  obtain ⟨h, hcolor⟩ := Bool.and_eq_true_iff.mp hbeq
  obtain ⟨h, hstyle⟩ := Bool.and_eq_true_iff.mp h
  obtain ⟨hfamily, hsize⟩ := Bool.and_eq_true_iff.mp h
  obtain rfl : family = family' := eq_of_beq hfamily
  obtain rfl : style = style' := eq_of_beq hstyle
  obtain rfl : color = color' := eq_of_beq hcolor
  refine ⟨?_, fun h => ?_, congrArg Font.stream⟩
  · simp only [Font.unsignZeros, Font.withSize, Single.unsignZero_eq_of_beq hsize]
  · simp only [Font.stream, List.append_assoc] at h
    rw [(Single.stream_append.mp (List.append_cancel_left h)).1]

theorem Margins.tellsZerosApart (m n : Margins Single) :
    TellsZerosApart Margins.unsignZeros Margins.stream m n := by
  obtain ⟨top, right, bottom, left⟩ := m
  obtain ⟨top', right', bottom', left'⟩ := n
  intro hbeq
  obtain ⟨h, hleft⟩ := Bool.and_eq_true_iff.mp hbeq
  obtain ⟨h, hbottom⟩ := Bool.and_eq_true_iff.mp h
  obtain ⟨htop, hright⟩ := Bool.and_eq_true_iff.mp h
  refine ⟨?_, fun h => ?_, congrArg Margins.stream⟩
  · simp only [Margins.unsignZeros, Single.unsignZero_eq_of_beq htop,
      Single.unsignZero_eq_of_beq hright, Single.unsignZero_eq_of_beq hbottom,
      Single.unsignZero_eq_of_beq hleft]
  · simp only [Margins.stream, List.append_assoc] at h
    obtain ⟨htop, h⟩ := Single.stream_append.mp h
    obtain ⟨hright, h⟩ := Single.stream_append.mp h
    obtain ⟨hbottom, h⟩ := Single.stream_append.mp h
    rw [htop, hright, hbottom, Single.stream_inj.mp h]

theorem PageSize.tellsZerosApart : (p q : PageSize Single) →
    TellsZerosApart PageSize.unsignZeros PageSize.stream p q
  | named format, named format', hbeq => by
    obtain rfl : format = format' := eq_of_beq hbeq
    exact ⟨rfl, by simp⟩
  | custom width height, custom width' height', hbeq => by
    obtain ⟨hwidth, hheight⟩ := Bool.and_eq_true_iff.mp hbeq
    refine ⟨?_, fun h => ?_, congrArg PageSize.stream⟩
    · simp only [PageSize.unsignZeros, Single.unsignZero_eq_of_beq hwidth,
        Single.unsignZero_eq_of_beq hheight]
    · obtain ⟨hwidth, hheight⟩ := Single.stream_append.mp h
      exact congrArg₂ custom hwidth (Single.stream_inj.mp hheight)

end Style

open Style

theorem Cache.Key.ofNode_beq {node : Json} (hnode : node == node) {a b : Context} (h : a == b) :
    (ofNode node a == ofNode node b) =
      (digest (node.stream ++ Fields.stream a.attrs) ==
        digest (node.stream ++ Fields.stream b.attrs)) := by
  change (_ == _ && node == node && a == b) = _
  rw [hnode, h, Bool.and_true, Bool.and_true]

/-- Of two contexts, fonts, margins or page sizes that compare equal the streams are equal just if
the two are the same value, and only the signs of zeros can make them differ. The keys of a node in
two equal contexts are equal just if the digests of the two streams are. -/
theorem equality_and_streams (node : Json) (a b : Context) (f g : Font Single)
    (m n : Margins Single) (p q : PageSize Single) :
    TellsZerosApart Context.unsignZeros (fun context => Fields.stream context.attrs) a b ∧
      TellsZerosApart Font.unsignZeros Font.stream f g ∧
      TellsZerosApart Margins.unsignZeros Margins.stream m n ∧
      TellsZerosApart PageSize.unsignZeros PageSize.stream p q ∧
      (node == node → a == b →
        (Cache.Key.ofNode node a == Cache.Key.ofNode node b) =
          (digest (node.stream ++ Fields.stream a.attrs) ==
            digest (node.stream ++ Fields.stream b.attrs))) :=
  ⟨Context.tellsZerosApart a b, Font.tellsZerosApart f g, Margins.tellsZerosApart m n,
    PageSize.tellsZerosApart p q, fun hnode h => Cache.Key.ofNode_beq hnode h⟩

/-- A context that holds a zero, and the node that is drawn in it. -/
def zeroContext (bits : UInt64) : Context := ⟨[("z", .number (.real (.ofBits bits)))]⟩

def bareChart : Json := .array [.string "chart"]

/-- Two zeros of different signs are equal and have different streams: as an attribute, where the
keys of one node differ as well, as the size of a font, as margins and as a page. -/
theorem equality_and_streams_zeros :
    (let a := zeroContext 0
     let b := zeroContext 0x8000000000000000
     a == b ∧ Fields.stream a.attrs ≠ Fields.stream b.attrs ∧
      ¬ Cache.Key.ofNode bareChart a == Cache.Key.ofNode bareChart b) ∧
    let zero : Single := .ofBits 0
    let minusZero : Single := .ofBits 0x80000000
    (let font (size : Single) : Font Single := Font.standard.withSize size
     font zero == font minusZero ∧ (font zero).stream ≠ (font minusZero).stream) ∧
    (Margins.all zero == Margins.all minusZero ∧
      (Margins.all zero).stream ≠ (Margins.all minusZero).stream) ∧
    (PageSize.custom zero zero == .custom minusZero zero ∧
      (PageSize.custom zero zero).stream ≠ (PageSize.custom minusZero zero).stream) := by
  decide +kernel

end Folio
