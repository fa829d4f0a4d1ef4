import Folio.Cache
import Mathlib.Data.List.Basic
import Mathlib.Tactic.SplitIfs

/-!
# Reading a stream back

The stream of a value can be split off whatever stands behind it, and the value can be read back
from it, but for the kinds of its numbers: of a number only the 64 bits are in the stream.
-/
namespace Folio

variable {s t : List UInt8}

/-! ## Words -/

theorem wordBytes_inj {m n : UInt64} : wordBytes m = wordBytes n ↔ m = n := by
  refine ⟨fun h => ?_, congrArg wordBytes⟩
  have hbytes := congrArg (List.map UInt8.toNat) h
  simp only [wordBytes, List.map_cons, List.map_nil, List.cons.injEq, UInt64.toNat_toUInt8,
    UInt64.toNat_shiftRight, Nat.shiftRight_eq_div_pow, UInt64.reduceToNat, Nat.reduceMod,
    Nat.reducePow, and_true] at hbytes
  have hm := m.toNat_lt
  have hn := n.toNat_lt
  exact UInt64.toNat_inj.mp (by omega)

theorem wordBytes_append {m n : UInt64} : wordBytes m ++ s = wordBytes n ++ t ↔ m = n ∧ s = t := by
  rw [← wordBytes_inj]
  exact ⟨fun h => List.append_inj h rfl, fun ⟨h, k⟩ => by rw [h, k]⟩

theorem lengthBytes_append {m n : Nat} (hm : m < UInt64.size) (hn : n < UInt64.size) :
    lengthBytes m ++ s = lengthBytes n ++ t ↔ m = n ∧ s = t := by
  have hword : m.toUInt64 = n.toUInt64 ↔ m = n := by
    rw [← UInt64.toNat_inj, UInt64.toNat_ofNat_of_lt' hm, UInt64.toNat_ofNat_of_lt' hn]
  rw [lengthBytes, lengthBytes, wordBytes_append, hword]

/-! ## Texts -/

theorem toList_loop (bytes : ByteArray) (i : Nat) (before : List UInt8) :
    ByteArray.toList.loop bytes i before = before.reverse ++ bytes.data.toList.drop i := by
  fun_induction ByteArray.toList.loop bytes i before with
  | case1 i before h ih =>
    have hi : i < bytes.data.toList.length := by simpa using h
    rw [ih, List.drop_eq_getElem_cons hi]
    simp [ByteArray.get!, h]
  | case2 i before h =>
    have hend : bytes.data.toList.drop i = [] :=
      List.drop_eq_nil_of_le (by simpa using Nat.le_of_not_lt h)
    simp [hend]

theorem toList_eq_data (bytes : ByteArray) : bytes.toList = bytes.data.toList :=
  toList_loop bytes 0 []

theorem toList_toUTF8_inj {x y : String} : x.toUTF8.toList = y.toUTF8.toList ↔ x = y := by
  rw [toList_eq_data, toList_eq_data, Array.toList_inj, ← ByteArray.ext_iff]
  exact String.toByteArray_inj

theorem toList_toUTF8 (x : String) : x.toUTF8.toList = x.toList.flatMap String.utf8EncodeChar := by
  rw [toList_eq_data]
  change x.toByteArray.data.toList = _
  rw [← String.utf8Encode_toList, List.utf8Encode, List.data_toByteArray]

/-- No character is encoded with the byte that ends a text. -/
theorem lt_of_mem_utf8EncodeChar {c : Char} {b : UInt8} (h : b ∈ String.utf8EncodeChar c) :
    b.toNat < 255 := by
  have hbyte {v : Nat} (hv : v < 255) : (UInt8.ofNat v).toNat < 255 :=
    Nat.lt_of_le_of_lt (Nat.mod_le v (2 ^ 8)) hv
  simp only [String.utf8EncodeChar] at h
  split_ifs at h <;> simp only [List.mem_cons, List.not_mem_nil, or_false] at h
  · exact h ▸ hbyte (by omega)
  · rcases h with rfl | rfl <;> exact hbyte (by omega)
  · rcases h with rfl | rfl | rfl <;> exact hbyte (by omega)
  · rcases h with rfl | rfl | rfl | rfl <;> exact hbyte (by omega)

theorem terminator_not_mem (x : String) : 0xFF ∉ x.toUTF8.toList := by
  rw [toList_toUTF8]
  intro h
  obtain ⟨c, -, hc⟩ := List.mem_flatMap.mp h
  exact absurd (lt_of_mem_utf8EncodeChar hc) (by decide)

/-- What stands in front of the first `b` can be told from what stands behind it. -/
theorem append_cons_of_not_mem {b : UInt8} {p q : List UInt8} (hp : b ∉ p) (hq : b ∉ q) :
    p ++ b :: s = q ++ b :: t ↔ p = q ∧ s = t := by
  refine ⟨fun h => ?_, fun ⟨h, k⟩ => by rw [h, k]⟩
  have hlength : p.length = q.length := by
    simpa [List.idxOf_append_of_notMem, hp, hq] using congrArg (List.idxOf b) h
  obtain ⟨h, k⟩ := List.append_inj h hlength
  exact ⟨h, (List.cons.inj k).2⟩

theorem textBytes_append {x y : String} : textBytes x ++ s = textBytes y ++ t ↔ x = y ∧ s = t := by
  unfold textBytes
  rw [List.append_assoc, List.append_assoc, List.singleton_append, List.singleton_append,
    append_cons_of_not_mem (terminator_not_mem x) (terminator_not_mem y), toList_toUTF8_inj]

namespace Json

/-! ## Values -/

mutual

/-- The value, every number in it replaced by the whole number of its 64 bits. -/
def patterned : Json → Json
  | number n => number (.whole n.pattern)
  | array items => array (patternedItems items)
  | object fields => object (patternedFields fields)
  | x => x

def patternedItems : List Json → List Json
  | [] => []
  | x :: xs => patterned x :: patternedItems xs

def patternedFields : Fields → Fields
  | [] => []
  | (k, x) :: fs => (k, patterned x) :: patternedFields fs

end

mutual

/-- No array and no map in the value has more entries than 64 bits can count. -/
def Counted : Json → Prop
  | array items => items.length < UInt64.size ∧ CountedItems items
  | object fields => fields.length < UInt64.size ∧ CountedFields fields
  | _ => True

def CountedItems : List Json → Prop
  | [] => True
  | x :: xs => Counted x ∧ CountedItems xs

def CountedFields : Fields → Prop
  | [] => True
  | (_, x) :: fs => Counted x ∧ CountedFields fs

end

theorem ctorIdx_of_stream {x y : Json} (h : x.stream ++ s = y.stream ++ t) :
    x.ctorIdx = y.ctorIdx := by
  cases x <;> cases y <;> first | rfl | simp [stream] at h

mutual

theorem patterned_of_stream : {x y : Json} → {s t : List UInt8} → x.ctorIdx = y.ctorIdx →
    x.Counted → y.Counted → x.stream ++ s = y.stream ++ t → x.patterned = y.patterned ∧ s = t
  | null, null, _, _, _, _, _, h => ⟨rfl, List.append_cancel_left h⟩
  | bool a, bool b, _, _, _, _, _, h => by
    cases a <;> cases b <;> simp_all [stream]
  | number m, number n, _, _, _, _, _, h => by
    obtain ⟨hpattern, hrest⟩ := wordBytes_append.mp (List.cons.inj h).2
    exact ⟨congrArg (number ∘ Number.whole) hpattern, hrest⟩
  | string x, string y, _, _, _, _, _, h => by
    obtain ⟨htext, hrest⟩ := textBytes_append.mp (List.cons.inj h).2
    exact ⟨congrArg string htext, hrest⟩
  | array xs, array ys, s, t, _, hxs, hys, h => by
    simp only [stream, List.append_assoc, List.cons_append, List.cons.injEq, true_and] at h
    obtain ⟨hlength, h⟩ := (lengthBytes_append hxs.1 hys.1).mp h
    obtain ⟨hitems, hrest⟩ := patternedItems_of_stream hlength hxs.2 hys.2 h
    exact ⟨congrArg array hitems, hrest⟩
  | object fs, object gs, s, t, _, hfs, hgs, h => by
    simp only [stream, List.append_assoc, List.cons_append, List.cons.injEq, true_and] at h
    obtain ⟨hlength, h⟩ := (lengthBytes_append hfs.1 hgs.1).mp h
    obtain ⟨hfields, hrest⟩ := patternedFields_of_stream hlength hfs.2 hgs.2 h
    exact ⟨congrArg object hfields, hrest⟩

theorem patternedItems_of_stream : {xs ys : List Json} → {s t : List UInt8} →
    xs.length = ys.length → CountedItems xs → CountedItems ys →
    streamItems xs ++ s = streamItems ys ++ t → patternedItems xs = patternedItems ys ∧ s = t
  | [], [], _, _, _, _, _, h => ⟨rfl, h⟩
  | x :: xs, y :: ys, s, t, hlength, hxs, hys, h => by
    simp only [streamItems, List.append_assoc] at h
    obtain ⟨hx, h⟩ := patterned_of_stream (ctorIdx_of_stream h) hxs.1 hys.1 h
    obtain ⟨hitems, hrest⟩ :=
      patternedItems_of_stream (Nat.succ.inj hlength) hxs.2 hys.2 h
    exact ⟨congrArg₂ List.cons hx hitems, hrest⟩

theorem patternedFields_of_stream : {fs gs : Fields} → {s t : List UInt8} →
    fs.length = gs.length → CountedFields fs → CountedFields gs →
    streamFields fs ++ s = streamFields gs ++ t → patternedFields fs = patternedFields gs ∧ s = t
  | [], [], _, _, _, _, _, h => ⟨rfl, h⟩
  | (k, x) :: fs, (l, y) :: gs, s, t, hlength, hfs, hgs, h => by
    simp only [streamFields, List.append_assoc] at h
    obtain ⟨hkey, h⟩ := textBytes_append.mp h
    obtain ⟨hx, h⟩ := patterned_of_stream (ctorIdx_of_stream h) hfs.1 hgs.1 h
    obtain ⟨hfields, hrest⟩ :=
      patternedFields_of_stream (Nat.succ.inj hlength) hfs.2 hgs.2 h
    exact ⟨congrArg₂ List.cons (Prod.ext hkey hx) hfields, hrest⟩

end

/-! Conversely the stream shows nothing else. -/

@[simp] theorem length_patternedItems (xs : List Json) :
    (patternedItems xs).length = xs.length := by
  induction xs with
  | nil => rfl
  | cons x xs ih => simp [patternedItems, ih]

@[simp] theorem length_patternedFields (fs : Fields) :
    (patternedFields fs).length = fs.length := by
  induction fs with
  | nil => rfl
  | cons entry fs ih => simp [patternedFields, ih]

mutual

theorem stream_patterned : (x : Json) → x.patterned.stream = x.stream
  | null => rfl
  | bool _ => rfl
  | number _ => rfl
  | string _ => rfl
  | array items => by
    simp only [patterned, stream, length_patternedItems, streamItems_patterned items]
  | object fields => by
    simp only [patterned, stream, length_patternedFields, streamFields_patterned fields]

theorem streamItems_patterned : (xs : List Json) → streamItems (patternedItems xs) = streamItems xs
  | [] => rfl
  | x :: xs => by
    simp only [patternedItems, streamItems, stream_patterned x, streamItems_patterned xs]

theorem streamFields_patterned : (fs : Fields) →
    streamFields (patternedFields fs) = streamFields fs
  | [] => rfl
  | (k, x) :: fs => by
    simp only [patternedFields, streamFields, stream_patterned x, streamFields_patterned fs]

end

/-- The stream of a value can be split off what stands behind it, and it shows the value but for the
kinds of its numbers. -/
theorem stream_append {a b : Json} (ha : a.Counted) (hb : b.Counted) :
    a.stream ++ s = b.stream ++ t ↔ a.patterned = b.patterned ∧ s = t := by
  refine ⟨fun h => patterned_of_stream (ctorIdx_of_stream h) ha hb h, fun ⟨h, hrest⟩ => ?_⟩
  rw [← stream_patterned a, h, stream_patterned b, hrest]

theorem fieldsStream_append {fs gs : Fields} (hfs : (object fs).Counted)
    (hgs : (object gs).Counted) : Fields.stream fs ++ s = Fields.stream gs ++ t ↔
      patternedFields fs = patternedFields gs ∧ s = t := by
  have hobject := stream_append (s := s) (t := t) hfs hgs
  simpa [stream, patterned, Fields.stream] using hobject

/-- A stream can be read back. It determines what stands behind it, it begins no other stream, it
shows the kind of the value, and behind a node it shows the context as well. -/
theorem stream_decodable {a b : Json} (ha : a.Counted) (hb : b.Counted) :
    (∀ s t, a.stream ++ s = b.stream ++ t ↔ a.patterned = b.patterned ∧ s = t) ∧
      (a.stream <+: b.stream → a.stream = b.stream) ∧
      (a.stream = b.stream → a.ctorIdx = b.ctorIdx) ∧
      ∀ c d : Style.Context, (object c.attrs).Counted → (object d.attrs).Counted →
        (a.stream ++ Fields.stream c.attrs = b.stream ++ Fields.stream d.attrs ↔
          a.patterned = b.patterned ∧ patternedFields c.attrs = patternedFields d.attrs) := by
  have hsplit (s t : List UInt8) := stream_append (s := s) (t := t) ha hb
  refine ⟨hsplit, fun hprefix => ?_, fun h => ?_, fun c d hc hd => ⟨fun h => ?_, ?_⟩⟩
  · obtain ⟨rest, hrest⟩ := hprefix
    obtain ⟨-, rfl⟩ := (hsplit rest []).mp (by rw [hrest, List.append_nil])
    rw [← hrest, List.append_nil]
  · exact ctorIdx_of_stream (s := []) (t := []) (congrArg (· ++ []) h)
  · obtain ⟨hnode, hcontext⟩ := (hsplit _ _).mp h
    have hfields := fieldsStream_append (s := []) (t := []) hc hd
    exact ⟨hnode, (hfields.mp (congrArg (· ++ []) hcontext)).1⟩
  · rintro ⟨hnode, hcontext⟩
    have hfields := (fieldsStream_append (s := []) (t := []) hc hd).mpr ⟨hcontext, rfl⟩
    rw [List.append_nil, List.append_nil] at hfields
    exact (hsplit _ _).mpr ⟨hnode, hfields⟩

/-- The largest word and the negative number of the same bits. -/
theorem stream_decodable_sameBits :
    (array [number (.whole 18446744073709551615)]).Counted ∧
      (array [number (.negative (-1))]).Counted ∧
      ∀ s t, (array [number (.whole 18446744073709551615)]).stream ++ s =
        (array [number (.negative (-1))]).stream ++ t ↔ s = t := by
  have hcounted (n : Number) : (array [number n]).Counted := by
    simp [Counted, CountedItems, UInt64.size]
  refine ⟨hcounted _, hcounted _, fun s t => ?_⟩
  exact ((stream_decodable (hcounted _) (hcounted _)).1 s t).trans (and_iff_right rfl)

end Json

end Folio
