import Folio.Style.Color
import Folio.Proofs.Doubles

/-!
# The grammar of colours

A colour is three numbers or a number sign with three or six hexadecimal digits, blanks around the
text apart. The reader takes one thing more for a colour, a plus sign in place of the first digit of
a pair, and it fails, instead of finding no colour, on a text of the right length in which a channel
would begin or end inside a character.
-/
namespace Folio.Style.Color

open Doubles (level)

/-! ## Digits -/

/-- A hexadecimal digit in either case, and what it stands for. -/
def HexDigit (c : Char) (d : ℕ) : Prop :=
  d < 16 ∧ (c = Nat.digitChar d ∨ c = (Nat.digitChar d).toUpper)

theorem HexDigit.hexDigit?_eq {c : Char} {d : ℕ} (h : HexDigit c d) : hexDigit? c = some d := by
  obtain ⟨hd, hc⟩ := h
  have hall : ∀ d : Fin 16, Color.hexDigit? (Nat.digitChar d) = some d.val ∧
      Color.hexDigit? (Nat.digitChar d).toUpper = some d.val := by decide
  rcases hc with rfl | rfl
  · exact (hall ⟨d, hd⟩).1
  · exact (hall ⟨d, hd⟩).2

theorem eq_ofNat_add {c : Char} {low : ℕ} (h : low ≤ c.toNat) :
    c = Char.ofNat (low + (c.toNat - low)) := by
  rw [Nat.add_sub_cancel' h, Char.ofNat_toNat]

theorem hexDigit?_eq_some_iff {c : Char} {d : ℕ} : hexDigit? c = some d ↔ HexDigit c d := by
  refine ⟨fun h => ?_, HexDigit.hexDigit?_eq⟩
  have hall : (∀ k : Fin 10, Char.ofNat (48 + k) = Nat.digitChar k) ∧
      (∀ k : Fin 6, Char.ofNat (97 + k) = Nat.digitChar (10 + k)) ∧
      ∀ k : Fin 6, Char.ofNat (65 + k) = (Nat.digitChar (10 + k)).toUpper := by decide
  unfold hexDigit? at h
  split at h
  · next hdigit =>
    simp only [Char.isDigit, Bool.and_eq_true, decide_eq_true_eq] at hdigit
    have hlow : 48 ≤ c.toNat := hdigit.1
    have hhigh : c.toNat ≤ 57 := hdigit.2
    have hc := eq_ofNat_add hlow
    obtain rfl : c.toNat - 48 = d := Option.some.inj h
    exact ⟨by omega, .inl (hc.trans (hall.1 ⟨c.toNat - 48, by omega⟩))⟩
  · split at h
    · next hlower =>
      simp only [Bool.and_eq_true, decide_eq_true_eq] at hlower
      have hlow : 97 ≤ c.toNat := hlower.1
      have hhigh : c.toNat ≤ 102 := hlower.2
      have hc := eq_ofNat_add hlow
      obtain rfl : c.toNat - 87 = d := Option.some.inj h
      have hd : c.toNat - 87 = 10 + (c.toNat - 97) := by omega
      rw [hd]
      exact ⟨by omega, .inl (hc.trans (hall.2.1 ⟨c.toNat - 97, by omega⟩))⟩
    · split at h
      · next hupper =>
        simp only [Bool.and_eq_true, decide_eq_true_eq] at hupper
        have hlow : 65 ≤ c.toNat := hupper.1
        have hhigh : c.toNat ≤ 70 := hupper.2
        have hc := eq_ofNat_add hlow
        obtain rfl : c.toNat - 55 = d := Option.some.inj h
        have hd : c.toNat - 55 = 10 + (c.toNat - 65) := by omega
        rw [hd]
        exact ⟨by omega, .inr (hc.trans (hall.2.2 ⟨c.toNat - 65, by omega⟩))⟩
      · cases h

theorem HexDigit.utf8Size {c : Char} {d : ℕ} (h : HexDigit c d) : c.utf8Size = 1 := by
  obtain ⟨hd, hc⟩ := h
  have hall : ∀ d : Fin 16, (Nat.digitChar d).utf8Size = 1 ∧
      (Nat.digitChar d).toUpper.utf8Size = 1 := by decide
  rcases hc with rfl | rfl
  · exact (hall ⟨d, hd⟩).1
  · exact (hall ⟨d, hd⟩).2

/-! ## Cuts -/

/-- How many bytes characters take. -/
def byteLength (cs : List Char) : ℕ := (String.ofList cs).utf8ByteSize

@[simp] theorem byteLength_nil : byteLength [] = 0 := by simp [byteLength]

@[simp] theorem byteLength_append (cs ds : List Char) :
    byteLength (cs ++ ds) = byteLength cs + byteLength ds := by
  simp [byteLength, String.ofList_append, String.utf8ByteSize_append]

@[simp] theorem byteLength_cons (c : Char) (cs : List Char) :
    byteLength (c :: cs) = c.utf8Size + byteLength cs := by
  have hone : byteLength [c] = c.utf8Size := by
    rw [byteLength, ← String.singleton_eq_ofList, String.utf8ByteSize_singleton]
  rw [← hone, ← byteLength_append]
  rfl

theorem cutBytes_eq_some_iff {cs piece rest : List Char} {n : ℕ} :
    cutBytes cs n = some (piece, rest) ↔ cs = piece ++ rest ∧ byteLength piece = n := by
  induction cs, n using cutBytes.induct generalizing piece rest with
  | case1 cs =>
    unfold cutBytes
    constructor
    · rintro ⟨⟩
      simp
    · rintro ⟨rfl, hlength⟩
      cases piece with
      | nil => rfl
      | cons c piece =>
        have hpos := c.utf8Size_pos
        rw [byteLength_cons] at hlength
        omega
  | case2 n =>
    unfold cutBytes
    constructor
    · nofun
    · rintro ⟨hnil, hlength⟩
      obtain ⟨rfl, rfl⟩ := List.append_eq_nil_iff.mp hnil.symm
      simp at hlength
  | case3 c cs n h ih =>
    unfold cutBytes
    rw [if_pos h]
    rw [Option.map_eq_some_iff]
    constructor
    · rintro ⟨⟨piece, rest⟩, hcut, ⟨⟩⟩
      obtain ⟨rfl, hlength⟩ := ih.mp hcut
      rw [byteLength_cons, hlength]
      exact ⟨rfl, Nat.add_sub_cancel' h⟩
    · rintro ⟨hsplit, hlength⟩
      cases piece with
      | nil => simp at hlength
      | cons d piece =>
        obtain ⟨rfl, rfl⟩ := List.cons.inj hsplit
        rw [byteLength_cons] at hlength
        exact ⟨(piece, rest), ih.mpr ⟨rfl, by omega⟩, rfl⟩
  | case4 c cs n h =>
    unfold cutBytes
    rw [if_neg h]
    constructor
    · nofun
    · rintro ⟨hsplit, hlength⟩
      cases piece with
      | nil => simp at hlength
      | cons d piece =>
        obtain ⟨rfl, -⟩ := List.cons.inj hsplit
        rw [byteLength_cons] at hlength
        omega

/-- No cut behind so many bytes falls between two characters. -/
def Uncut (width : ℕ) (cs : List Char) : Prop :=
  ∀ piece rest, cs = piece ++ rest → byteLength piece ≠ width

theorem cutBytes_eq_none_iff {cs : List Char} {n : ℕ} : cutBytes cs n = none ↔ Uncut n cs := by
  constructor
  · intro h piece rest hsplit hlength
    rw [cutBytes_eq_some_iff.mpr ⟨hsplit, hlength⟩] at h
    cases h
  · intro h
    cases hcut : cutBytes cs n with
    | none => rfl
    | some cut =>
      obtain ⟨hsplit, hlength⟩ := cutBytes_eq_some_iff.mp hcut
      exact absurd hlength (h _ _ hsplit)

/-! ## Channels -/

/-- How a channel is written in so many digits: one stands for two that are alike. -/
inductive Digits : ℕ → List Char → UInt8 → Prop
  | doubled {c : Char} {d : ℕ} (h : HexDigit c d) : Digits 1 [c] (16 * d + d).toUInt8
  | pair {b c : Char} {d e : ℕ} (hb : HexDigit b d) (hc : HexDigit c e) :
    Digits 2 [b, c] (16 * d + e).toUInt8

/-- What is taken for a channel: its digits, or a plus sign in place of the first of two. -/
inductive Channel : ℕ → List Char → UInt8 → Prop
  | digits {width : ℕ} {cs : List Char} {value : UInt8} (h : Digits width cs value) :
    Channel width cs value
  | signed {c : Char} {d : ℕ} (h : HexDigit c d) : Channel 2 ['+', c] d.toUInt8

theorem not_hexDigit_plus (d : ℕ) : ¬ HexDigit '+' d := by
  intro h
  have hplus : hexDigit? '+' = some d := h.hexDigit?_eq
  cases hplus

theorem Channel.byteLength_eq {width : ℕ} {cs : List Char} {value : UInt8}
    (h : Channel width cs value) : byteLength cs = width := by
  cases h with
  | digits h =>
    cases h with
    | doubled h => simp [h.utf8Size]
    | pair hb hc => simp [hb.utf8Size, hc.utf8Size]
  | signed h =>
    have hplus : '+'.utf8Size = 1 := by decide
    simp [h.utf8Size, hplus]

theorem pair?_eq_some_iff {cs : List Char} {value : UInt8} :
    pair? cs = some value ↔ Channel 2 cs value := by
  constructor
  · intro h
    unfold pair? at h
    split at h
    · next b c =>
      split at h
      · next hplus =>
        obtain rfl := eq_of_beq hplus
        obtain ⟨d, hd, rfl⟩ := Option.map_eq_some_iff.mp h
        exact .signed (hexDigit?_eq_some_iff.mp hd)
      · simp only [Option.bind_eq_bind, Option.bind_eq_some_iff, Option.pure_def,
          Option.some.injEq] at h
        obtain ⟨d, hd, e, he, rfl⟩ := h
        rw [Nat.mul_comm]
        exact .digits (.pair (hexDigit?_eq_some_iff.mp hd) (hexDigit?_eq_some_iff.mp he))
    · cases h
  · rintro (⟨⟨⟩ | ⟨hb, hc⟩⟩ | hc)
    · next b c d e =>
      have hplus : ¬ (b == '+') = true := by
        intro h
        obtain rfl := eq_of_beq h
        exact not_hexDigit_plus _ hb
      rw [pair?, if_neg hplus, hb.hexDigit?_eq, hc.hexDigit?_eq, Nat.mul_comm]
      rfl
    · rw [pair?, if_pos (beq_self_eq_true '+'), hc.hexDigit?_eq]
      rfl

theorem eq_nil_of_byteLength {cs : List Char} (h : byteLength cs = 0) : cs = [] := by
  cases cs with
  | nil => rfl
  | cons c cs =>
    have hc := c.utf8Size_pos
    rw [byteLength_cons] at h
    omega

theorem eq_singleton_of_byteLength {cs : List Char} (h : byteLength cs = 1) : ∃ c, cs = [c] := by
  match cs with
  | [] => simp at h
  | [c] => exact ⟨c, rfl⟩
  | b :: c :: cs =>
    have hb := b.utf8Size_pos
    have hc := c.utf8Size_pos
    simp only [byteLength_cons] at h
    omega

/-- How a piece of the text is read, by itself doubled if it is one byte long. -/
theorem pair?_piece {width : ℕ} (hwidth : width = 1 ∨ width = 2) {piece : List Char}
    (hlength : byteLength piece = width) {value : UInt8} :
    pair? (if width = 1 then piece ++ piece else piece) = some value ↔
      Channel width piece value := by
  rcases hwidth with rfl | rfl
  · obtain ⟨c, rfl⟩ := eq_singleton_of_byteLength hlength
    rw [if_pos rfl, pair?_eq_some_iff]
    constructor
    · rintro (⟨⟨⟩ | ⟨hb, hc⟩⟩ | hc)
      · next d e =>
        obtain rfl : d = e := Option.some.inj (hb.hexDigit?_eq.symm.trans hc.hexDigit?_eq)
        exact .digits (.doubled hb)
      · exact absurd hc (not_hexDigit_plus _)
    · rintro (⟨hc | ⟨⟩⟩ | ⟨⟩)
      exact .digits (.pair hc hc)
  · rw [if_neg (by decide)]
    exact pair?_eq_some_iff

section

variable {width n : ℕ} {piece rest cs : List Char} {value : UInt8}

theorem Channel.channels_succ (hwidth : width = 1 ∨ width = 2) (h : Channel width piece value) :
    channels width (n + 1) (piece ++ rest) =
      (channels width n rest).map fun values => values.map (value :: ·) := by
  have hcut : cutBytes (piece ++ rest) width = some (piece, rest) :=
    cutBytes_eq_some_iff.mpr ⟨rfl, h.byteLength_eq⟩
  have hpair := (pair?_piece hwidth h.byteLength_eq).mpr h
  simp only [channels, hcut, hpair]

theorem Uncut.channels_succ (h : Uncut width cs) :
    channels width (n + 1) cs = .error .cutCharacter := by
  simp only [channels, cutBytes_eq_none_iff.mpr h]

theorem channels_succ_of_not_channel (hwidth : width = 1 ∨ width = 2)
    (hlength : byteLength piece = width) (h : ∀ value, ¬ Channel width piece value) :
    channels width (n + 1) (piece ++ rest) = .ok none := by
  have hcut : cutBytes (piece ++ rest) width = some (piece, rest) :=
    cutBytes_eq_some_iff.mpr ⟨rfl, hlength⟩
  have hpair : pair? (if width = 1 then piece ++ piece else piece) = none :=
    Option.eq_none_iff_forall_ne_some.mpr fun value hvalue =>
      h value ((pair?_piece hwidth hlength).mp hvalue)
  simp only [channels, hcut, hpair]

/-- A text begins with a channel, or cannot be cut, or begins with what is no channel. -/
theorem channel_or_uncut (width : ℕ) (cs : List Char) :
    (∃ piece rest value, cs = piece ++ rest ∧ Channel width piece value) ∨ Uncut width cs ∨
      ∃ piece rest, cs = piece ++ rest ∧ byteLength piece = width ∧
        ∀ value, ¬ Channel width piece value := by
  by_cases hcut : Uncut width cs
  · exact .inr (.inl hcut)
  · simp only [Uncut, not_forall, not_not] at hcut
    obtain ⟨piece, rest, rfl, hlength⟩ := hcut
    by_cases h : ∃ value, Channel width piece value
    · obtain ⟨value, hvalue⟩ := h
      exact .inl ⟨piece, rest, value, rfl, hvalue⟩
    · exact .inr (.inr ⟨piece, rest, rfl, hlength, not_exists.mp h⟩)

/-- Channels that are all read stand at the start of the text. -/
theorem channels_eq_some_iff (hwidth : width = 1 ∨ width = 2) {values : List UInt8} :
    channels width n cs = .ok (some values) ↔ ∃ (pieces : List (List Char)) (rest : List Char),
      cs = pieces.flatten ++ rest ∧ pieces.length = n ∧
        List.Forall₂ (Channel width) pieces values := by
  constructor
  · intro h
    induction n generalizing cs values with
    | zero =>
      obtain rfl : [] = values := Option.some.inj (Except.ok.inj h)
      exact ⟨[], cs, rfl, rfl, .nil⟩
    | succ n ih =>
      rcases channel_or_uncut width cs with
        ⟨piece, rest, value, rfl, hvalue⟩ | hcut | ⟨piece, rest, rfl, hlength, hnone⟩
      · rw [hvalue.channels_succ hwidth] at h
        cases hrest : channels width n rest with
        | error fault =>
          rw [hrest] at h
          cases h
        | ok read =>
          rw [hrest] at h
          obtain ⟨tail, rfl, rfl⟩ := Option.map_eq_some_iff.mp (Except.ok.inj h)
          obtain ⟨pieces, rest, rfl, rfl, hpieces⟩ := ih hrest
          exact ⟨piece :: pieces, rest, by simp, rfl, .cons hvalue hpieces⟩
      · rw [hcut.channels_succ] at h
        cases h
      · rw [channels_succ_of_not_channel hwidth hlength hnone] at h
        cases h
  · rintro ⟨pieces, rest, rfl, rfl, hpieces⟩
    induction hpieces with
    | nil => rfl
    | cons hvalue hpieces ih =>
      rw [List.flatten_cons, List.append_assoc, List.length_cons, hvalue.channels_succ hwidth, ih]
      rfl

theorem channels_eq_error_iff (hwidth : width = 1 ∨ width = 2) :
    channels width n cs = .error .cutCharacter ↔
      ∃ (pieces : List (List Char)) (rest : List Char), cs = pieces.flatten ++ rest ∧
        pieces.length < n ∧ (∀ piece ∈ pieces, ∃ value, Channel width piece value) ∧
        Uncut width rest := by
  constructor
  · intro h
    induction n generalizing cs with
    | zero => cases h
    | succ n ih =>
      rcases channel_or_uncut width cs with
        ⟨piece, rest, value, rfl, hvalue⟩ | hcut | ⟨piece, rest, rfl, hlength, hnone⟩
      · rw [hvalue.channels_succ hwidth] at h
        cases hrest : channels width n rest with
        | ok read =>
          rw [hrest] at h
          cases h
        | error fault =>
          obtain ⟨pieces, rest, rfl, hfew, hpieces, hcut⟩ := ih hrest
          refine ⟨piece :: pieces, rest, by simp, Nat.succ_lt_succ hfew, ?_, hcut⟩
          exact List.forall_mem_cons.mpr ⟨⟨value, hvalue⟩, hpieces⟩
      · exact ⟨[], cs, rfl, Nat.succ_pos n, by simp, hcut⟩
      · rw [channels_succ_of_not_channel hwidth hlength hnone] at h
        cases h
  · rintro ⟨pieces, rest, rfl, hfew, hpieces, hcut⟩
    induction pieces generalizing n with
    | nil =>
      obtain ⟨n, rfl⟩ := Nat.exists_eq_add_one.mpr hfew
      exact hcut.channels_succ
    | cons piece pieces ih =>
      obtain ⟨n, rfl⟩ := Nat.exists_eq_add_one.mpr (Nat.zero_lt_of_lt hfew)
      obtain ⟨⟨value, hvalue⟩, hpieces⟩ := List.forall_mem_cons.mp hpieces
      rw [List.flatten_cons, List.append_assoc, hvalue.channels_succ hwidth,
        ih (Nat.lt_of_succ_lt_succ hfew) hpieces]
      rfl

end

/-! ## Texts -/

/-- Three channels behind a number sign, blanks around them apart. -/
def Written (IsChannel : List Char → UInt8 → Prop) (s : String) (c : Color) : Prop :=
  ∃ red green blue, (Text.trim s).toList = '#' :: (red ++ green ++ blue) ∧
    IsChannel red c.red ∧ IsChannel green c.green ∧ IsChannel blue c.blue

/-- Three or six bytes behind a number sign in which a cut goes through a character, all channels
before it being read. -/
def Torn (s : String) : Prop :=
  ∃ (width : ℕ) (pieces : List (List Char)) (rest : List Char), (width = 1 ∨ width = 2) ∧
    (Text.trim s).toList = '#' :: (pieces.flatten ++ rest) ∧
    byteLength (pieces.flatten ++ rest) = 3 * width ∧ pieces.length < 3 ∧
    (∀ piece ∈ pieces, ∃ value, Channel width piece value) ∧ Uncut width rest

theorem ofHex_of_trim {s : String} {digits : List Char}
    (h : (Text.trim s).toList = '#' :: digits) {width : ℕ} (hwidth : width = 1 ∨ width = 2)
    (hlength : byteLength digits = 3 * width) :
    ofHex s = (channels width 3 digits).map fun values => values.bind ofChannels? := by
  have hsize : (String.ofList digits).utf8ByteSize = 3 * width := hlength
  have hthird : 3 * width / 3 = width := Nat.mul_div_cancel_left width (by decide)
  have hfits : (decide (3 * width = 3) || decide (3 * width = 6)) = true := by
    rcases hwidth with rfl | rfl <;> rfl
  simp only [ofHex, h, hsize, hthird, hfits, if_true]

/-- Any other text is no colour. -/
theorem trim_of_ofHex {s : String} (h : ofHex s ≠ .ok none) : ∃ digits width,
    (Text.trim s).toList = '#' :: digits ∧ (width = 1 ∨ width = 2) ∧
      byteLength digits = 3 * width := by
  unfold ofHex at h
  split at h
  · next digits htrim =>
    simp only at h
    split at h
    · next hsize =>
      simp only [Bool.or_eq_true, decide_eq_true_eq] at hsize
      rcases hsize with hsize | hsize
      · exact ⟨digits, 1, htrim, .inl rfl, hsize⟩
      · exact ⟨digits, 2, htrim, .inr rfl, hsize⟩
    · exact absurd rfl h
  · exact absurd rfl h

theorem ofHex_eq_some_iff {s : String} {c : Color} :
    ofHex s = .ok (some c) ↔ ∃ width, (width = 1 ∨ width = 2) ∧ Written (Channel width) s c := by
  constructor
  · intro h
    obtain ⟨digits, width, htrim, hwidth, hlength⟩ := trim_of_ofHex (s := s) (by rw [h]; nofun)
    rw [ofHex_of_trim htrim hwidth hlength] at h
    cases hread : channels width 3 digits with
    | error fault =>
      rw [hread] at h
      cases h
    | ok values =>
      rw [hread] at h
      obtain ⟨values, rfl, hvalues⟩ := Option.bind_eq_some_iff.mp (Except.ok.inj h)
      obtain ⟨pieces, rest, rfl, -, hpieces⟩ := (channels_eq_some_iff hwidth).mp hread
      unfold ofChannels? at hvalues
      split at hvalues
      · next red green blue =>
        obtain rfl := Option.some.inj hvalues
        rcases hpieces with _ | ⟨hred, _ | ⟨hgreen, _ | ⟨hblue, ⟨⟩⟩⟩⟩
        simp only [List.flatten_cons, List.flatten_nil, List.append_nil, byteLength_append,
          hred.byteLength_eq, hgreen.byteLength_eq, hblue.byteLength_eq] at hlength
        obtain rfl : rest = [] := eq_nil_of_byteLength (by omega)
        exact ⟨width, hwidth, _, _, _, by simpa using htrim, hred, hgreen, hblue⟩
      · cases hvalues
  · rintro ⟨width, hwidth, red, green, blue, htrim, hred, hgreen, hblue⟩
    have hlength : byteLength (red ++ green ++ blue) = 3 * width := by
      rw [byteLength_append, byteLength_append, hred.byteLength_eq, hgreen.byteLength_eq,
        hblue.byteLength_eq]
      omega
    have hread : channels width 3 (red ++ green ++ blue) = .ok (some [c.red, c.green, c.blue]) :=
      (channels_eq_some_iff hwidth).mpr
        ⟨[red, green, blue], [], by simp, rfl, .cons hred (.cons hgreen (.cons hblue .nil))⟩
    rw [ofHex_of_trim htrim hwidth hlength, hread]
    rfl

theorem ofHex_eq_error_iff {s : String} : ofHex s = .error .cutCharacter ↔ Torn s := by
  constructor
  · intro h
    obtain ⟨digits, width, htrim, hwidth, hlength⟩ := trim_of_ofHex (s := s) (by rw [h]; nofun)
    rw [ofHex_of_trim htrim hwidth hlength] at h
    cases hread : channels width 3 digits with
    | error fault =>
      obtain ⟨pieces, rest, rfl, hpieces⟩ := (channels_eq_error_iff hwidth).mp hread
      exact ⟨width, pieces, rest, hwidth, htrim, hlength, hpieces⟩
    | ok values =>
      rw [hread] at h
      cases h
  · rintro ⟨width, pieces, rest, hwidth, htrim, hlength, hpieces⟩
    rw [ofHex_of_trim htrim hwidth hlength,
      (channels_eq_error_iff hwidth).mpr ⟨pieces, rest, rfl, hpieces⟩]
    rfl

/-! ## Numbers -/

/-- Restricting a double first and converting it then is what the conversion does by itself. -/
theorem toNat_channel (n : Number) : (channel n.toFloat).toNat = level (.ofNumber n) := by
  rw [← Doubles.level_toFloat]
  generalize n.toFloat = x
  unfold channel
  split
  · next h => exact (Doubles.level_of_lt_zero h).symm
  · split
    · next h => exact (Doubles.level_of_255_lt h).symm
    · exact Doubles.toNat_toUInt8 x.toModel.unpack

/-! ## Values -/

/-- The grammar of colours. -/
inductive Writes : Json → Color → Prop
  | triple (r g b : Number) {c : Color} (hred : c.red.toNat = level (.ofNumber r))
    (hgreen : c.green.toNat = level (.ofNumber g)) (hblue : c.blue.toNat = level (.ofNumber b)) :
    Writes (.array [.number r, .number g, .number b]) c
  | digits {s : String} {c : Color} (width : ℕ) (h : Written (Digits width) s c) :
    Writes (.string s) c

/-- Six characters are read as a colour of which a pair begins with a plus sign. -/
def Signed (v : Json) (c : Color) : Prop :=
  ∃ s, v = .string s ∧ '+' ∈ (Text.trim s).toList ∧ Written (Channel 2) s c

theorem Digits.width {width : ℕ} {cs : List Char} {value : UInt8} (h : Digits width cs value) :
    width = 1 ∨ width = 2 := by
  cases h with
  | doubled => exact .inl rfl
  | pair => exact .inr rfl

theorem Channel.digits_or_signed {width : ℕ} {cs : List Char} {value : UInt8}
    (h : Channel width cs value) : Digits width cs value ∨ width = 2 ∧ '+' ∈ cs := by
  cases h with
  | digits h => exact .inl h
  | signed => exact .inr ⟨rfl, List.mem_cons_self⟩

theorem Written.imp {P Q : List Char → UInt8 → Prop} {s : String} {c : Color}
    (h : Written P s c) (himp : ∀ cs value, P cs value → Q cs value) : Written Q s c := by
  obtain ⟨red, green, blue, htrim, hred, hgreen, hblue⟩ := h
  exact ⟨red, green, blue, htrim, himp _ _ hred, himp _ _ hgreen, himp _ _ hblue⟩

theorem writes_or_signed_iff {s : String} {c : Color} :
    (∃ width, (width = 1 ∨ width = 2) ∧ Written (Channel width) s c) ↔
      Writes (.string s) c ∨ Signed (.string s) c := by
  constructor
  · rintro ⟨width, -, hwritten⟩
    obtain ⟨red, green, blue, htrim, hred, hgreen, hblue⟩ := id hwritten
    rcases hred.digits_or_signed with hred | ⟨rfl, hplus⟩
    · rcases hgreen.digits_or_signed with hgreen | ⟨rfl, hplus⟩
      · rcases hblue.digits_or_signed with hblue | ⟨rfl, hplus⟩
        · exact .inl (.digits width ⟨red, green, blue, htrim, hred, hgreen, hblue⟩)
        · exact .inr ⟨s, rfl, by simp [htrim, hplus], hwritten⟩
      · exact .inr ⟨s, rfl, by simp [htrim, hplus], hwritten⟩
    · exact .inr ⟨s, rfl, by simp [htrim, hplus], hwritten⟩
  · rintro (hwrites | ⟨_, ⟨⟩, -, hwritten⟩)
    · cases hwrites with
      | digits width h =>
        have hwidth : width = 1 ∨ width = 2 := by
          obtain ⟨red, -, -, -, hred, -⟩ := h
          exact hred.width
        exact ⟨width, hwidth, h.imp fun _ _ => .digits⟩
    · exact ⟨2, .inr rfl, hwritten⟩

theorem Digits.plus_not_mem {width : ℕ} {cs : List Char} {value : UInt8}
    (h : Digits width cs value) : '+' ∉ cs := by
  have hne {c : Char} {d : ℕ} (hc : HexDigit c d) : '+' ≠ c := by
    rintro rfl
    exact not_hexDigit_plus d hc
  cases h with
  | doubled hc => simp [hne hc]
  | pair hb hc => simp [hne hb, hne hc]

/-- What the reader takes beside the grammar is outside of it. -/
theorem Signed.not_writes {v : Json} {c c' : Color} (h : Signed v c) : ¬ Writes v c' := by
  obtain ⟨s, rfl, hplus, -⟩ := h
  rintro (_ | ⟨width, red, green, blue, htrim, hred, hgreen, hblue⟩)
  simp [htrim, hred.plus_not_mem, hgreen.plus_not_mem, hblue.plus_not_mem] at hplus

theorem read_triple_iff (r g b : Number) {c : Color} :
    read (.array [.number r, .number g, .number b]) = .ok (some c) ↔
      Writes (.array [.number r, .number g, .number b]) c := by
  constructor
  · intro h
    obtain rfl := Option.some.inj (Except.ok.inj h)
    exact .triple r g b (toNat_channel r) (toNat_channel g) (toNat_channel b)
  · intro h
    cases h with
    | triple _ _ _ hred hgreen hblue =>
      rw [← toNat_channel] at hred hgreen hblue
      obtain ⟨red, green, blue⟩ := c
      rw [UInt8.toNat_inj] at hred hgreen hblue
      subst hred hgreen hblue
      rfl

theorem read_eq_some_iff {v : Json} {c : Color} :
    read v = .ok (some c) ↔ Writes v c ∨ Signed v c := by
  unfold read
  split
  · next r g b =>
    refine (read_triple_iff r g b).trans ⟨.inl, ?_⟩
    rintro (h | ⟨s, ⟨⟩, -⟩)
    exact h
  · next s => exact ofHex_eq_some_iff.trans writes_or_signed_iff
  · next hnumbers htext =>
    constructor
    · nofun
    · rintro (h | ⟨s, rfl, -⟩)
      · cases h with
        | triple r g b => exact absurd rfl (hnumbers r g b)
        | digits => exact absurd rfl (htext _)
      · exact absurd rfl (htext s)

theorem read_eq_error_iff {v : Json} :
    read v = .error .cutCharacter ↔ ∃ s, v = .string s ∧ Torn s := by
  unfold read
  split
  · simp
  · next s => simp [ofHex_eq_error_iff]
  · next hnumbers htext =>
    constructor
    · nofun
    · rintro ⟨s, rfl, -⟩
      exact absurd rfl (htext s)

/-- A value is read as the colour that it writes, and no other value is read as one, except for
texts with a plus sign; the reader gives an answer unless the text is torn. -/
theorem read_grammar (v : Json) :
    (∀ c, read v = .ok (some c) ↔ Writes v c ∨ Signed v c) ∧
      ((∃ answer, read v = .ok answer) ↔ ¬ ∃ s, v = .string s ∧ Torn s) := by
  refine ⟨fun c => read_eq_some_iff, ?_⟩
  rw [← read_eq_error_iff]
  cases read v with
  | ok answer => simp
  | error fault =>
    cases fault
    simp

theorem torn_accent : Torn "#é1" := by
  have htrim : (Text.trim "#é1").toList = ['#', 'é', '1'] := by decide
  have hsize : 'é'.utf8Size = 2 := by decide
  have hone : '1'.utf8Size = 1 := by decide
  refine ⟨1, [], ['é', '1'], .inl rfl, htrim, by simp [hsize, hone], by simp, by simp, ?_⟩
  intro piece rest hsplit hlength
  obtain ⟨c, rfl⟩ := eq_singleton_of_byteLength hlength
  obtain ⟨rfl, -⟩ := List.cons.inj hsplit
  simp [hsize] at hlength

theorem signed_digits : Signed (.string "#+1+2+3") ⟨1, 2, 3⟩ := by
  have htrim : (Text.trim "#+1+2+3").toList = ['#', '+', '1', '+', '2', '+', '3'] := by decide
  have hdigit (d : Fin 10) : HexDigit (Nat.digitChar d) d := ⟨by omega, .inl rfl⟩
  refine ⟨_, rfl, by simp [htrim], ['+', '1'], ['+', '2'], ['+', '3'], htrim, ?_, ?_, ?_⟩
  · exact .signed (hdigit 1)
  · exact .signed (hdigit 2)
  · exact .signed (hdigit 3)

/-- One text is torn at its first channel, and the other has three digits for six. -/
theorem read_outside_grammar : read (.string "#é1") = .error .cutCharacter ∧
    read (.string "#+1+2+3") = .ok (some ⟨1, 2, 3⟩) ∧
    ∀ c, ¬ Writes (.string "#+1+2+3") c :=
  ⟨read_eq_error_iff.mpr ⟨_, rfl, torn_accent⟩, read_eq_some_iff.mpr (.inr signed_digits),
    fun _ => signed_digits.not_writes⟩

end Folio.Style.Color
