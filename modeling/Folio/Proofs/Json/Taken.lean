import Folio.Json.Forms

/-!
# What reading takes

A value that is read takes at least one character off the text, so a text holds no more values than
it has characters.
-/
namespace Folio.Json

theorem length_dropWhile (p : Char → Bool) (cs : List Char) :
    (cs.dropWhile p).length ≤ cs.length := (List.dropWhile_suffix p).length_le

theorem length_skipSpace (cs : List Char) : (skipSpace cs).length ≤ cs.length :=
  length_dropWhile isSpace cs

theorem length_expect {word cs rest : List Char} {value v : Json} (hword : word ≠ [])
    (h : expect word value cs = some (v, rest)) : rest.length < cs.length := by
  unfold expect at h
  split at h
  · next hprefix =>
    cases h
    have hle : word.length ≤ cs.length := (List.isPrefixOf_iff_prefix.mp hprefix).length_le
    have hpos : 0 < word.length := List.length_pos_iff.mpr hword
    simp only [List.length_drop]
    omega
  · cases h

/-! ## Numbers -/

theorem length_takeSign (cs : List Char) : (Decimal.takeSign cs).2.length ≤ cs.length := by
  unfold Decimal.takeSign
  split <;> simp

theorem length_takeDigits (cs : List Char) : ∀ start taken : Nat,
    (takeDigits start taken cs).2.2.length + (takeDigits start taken cs).2.1 =
      cs.length + taken := by
  induction cs with
  | nil => exact fun _ _ => rfl
  | cons c cs ih =>
    intro start taken
    simp only [takeDigits]
    split
    · split
      · rw [ih, List.length_cons]
        omega
      · rfl
    · rfl

theorem length_readPower {negative : Bool} {significand : Nat} {exponent : Int}
    {cs rest : List Char} {n : Number}
    (h : readPower negative significand exponent cs = some (n, rest)) :
    rest.length ≤ cs.length := by
  have htail : ((Decimal.takeSign cs).2.dropWhile Char.isDigit).length ≤ cs.length :=
    Nat.le_trans (length_dropWhile _ _) (length_takeSign cs)
  unfold readPower at h
  simp only at h
  split at h
  · cases h
  · split at h
    · split at h
      · cases h
      · cases h
        exact htail
    · obtain ⟨x, -, hx⟩ := Option.map_eq_some_iff.mp h
      cases hx
      exact htail

theorem length_readTail {negative : Bool} {significand : Nat} {exponent : Int}
    {cs rest : List Char} {n : Number}
    (h : readTail negative significand exponent cs = some (n, rest)) :
    rest.length ≤ cs.length := by
  unfold readTail at h
  simp only at h
  split at h
  · split at h
    · exact Nat.le_succ_of_le (length_readPower h)
    · obtain ⟨x, -, hx⟩ := Option.map_eq_some_iff.mp h
      cases hx
      exact Nat.le_refl _
  · obtain ⟨x, -, hx⟩ := Option.map_eq_some_iff.mp h
    cases hx
    exact Nat.le_refl _

theorem length_readPlaces {negative : Bool} {significand : Nat} {exponent : Int}
    {cs rest : List Char} {n : Number}
    (h : readPlaces negative significand exponent cs = some (n, rest)) :
    rest.length ≤ cs.length := by
  have htaken := length_takeDigits cs significand 0
  have hdropped := length_dropWhile Char.isDigit (takeDigits significand 0 cs).2.2
  unfold readPlaces at h
  split at h
  · split at h
    · have htail := Nat.le_trans (length_readTail h) hdropped
      omega
    · cases h
  · cases h

theorem length_readNumber {negative : Bool} {cs rest : List Char} {n : Number}
    (h : readNumber negative cs = some (n, rest)) : rest.length < cs.length := by
  have hstart : ∀ zero : Bool, zero = (cs.head? == some '0') →
      (if zero then (0, 1, cs.tail) else takeDigits 0 0 cs).2.2.length +
        (if zero then (0, 1, cs.tail) else takeDigits 0 0 cs).2.1 = cs.length := by
    intro zero hzero
    cases zero with
    | false => exact length_takeDigits cs 0 0
    | true =>
      cases cs with
      | nil => cases hzero
      | cons c cs => rfl
  have hlength := hstart _ rfl
  unfold readNumber at h
  simp only at h
  generalize (if cs.head? == some '0' then (0, 1, cs.tail) else takeDigits 0 0 cs) = start
    at h hlength
  obtain ⟨value, taken, tail⟩ := start
  have htail := length_dropWhile Char.isDigit tail
  simp only at h hlength
  split at h
  · cases h
  · next htaken =>
    have hpos : taken ≠ 0 := by simpa using htaken
    have hle : rest.length ≤ tail.length := by
      split at h
      · cases h
      · split at h
        · next hdot =>
          have hplaces := length_readPlaces h
          rw [hdot, List.length_cons] at htail
          omega
        · have hpower := length_readTail h
          omega
        · have hpower := length_readTail h
          omega
        · split at h
          · have hpower := length_readTail h
            omega
          · split at h
            · cases h
              exact htail
            · split at h <;> cases h <;> exact htail
    omega

/-! ## Texts -/

theorem length_readHex4 {cs rest : List Char} {n : Nat} (h : readHex4 cs = some (n, rest)) :
    rest.length < cs.length := by
  unfold readHex4 at h
  split at h
  · simp only [Option.bind_eq_bind, Option.bind_eq_some_iff, Option.pure_def] at h
    obtain ⟨_, -, _, -, _, -, _, -, heq⟩ := h
    cases heq
    simp only [List.length_cons]
    omega
  · cases h

theorem length_readCode {cs rest : List Char} {c : Char} (h : readCode cs = some (c, rest)) :
    rest.length < cs.length := by
  unfold readCode at h
  simp only [Option.bind_eq_bind, Option.bind_eq_some_iff] at h
  obtain ⟨⟨n, tail⟩, hfirst, h⟩ := h
  have hlength := length_readHex4 hfirst
  simp only at h
  split at h
  · split at h
    · next more =>
      obtain ⟨⟨m, last⟩, hsecond, h⟩ := Option.bind_eq_some_iff.mp h
      have hmore := length_readHex4 hsecond
      split at h
      · simp only [Option.some.injEq, Prod.mk.injEq] at h
        obtain ⟨-, rfl⟩ := h
        simp only [List.length_cons] at hlength
        omega
      · cases h
    · cases h
  · split at h
    · cases h
    · cases h
      exact hlength

theorem length_readString (fuel : Nat) : ∀ {done cs rest : List Char} {s : String},
    readString fuel done cs = some (s, rest) → rest.length < cs.length := by
  induction fuel with
  | zero => exact fun h => by cases h
  | succ fuel ih =>
    intro done cs rest s h
    cases cs with
    | nil => cases h
    | cons c cs =>
      simp only [readString] at h
      split at h
      · cases h
        exact Nat.lt_succ_self _
      · split at h
        · split at h
          · next more =>
            obtain ⟨⟨code, tail⟩, hcode, h⟩ := Option.bind_eq_some_iff.mp h
            have hlength : tail.length < more.length := length_readCode hcode
            have hrest : rest.length < tail.length := ih h
            simp only [List.length_cons]
            omega
          · next e more _ =>
            obtain ⟨plain, -, h⟩ := Option.bind_eq_some_iff.mp h
            have hrest := ih h
            simp only [List.length_cons]
            omega
          · cases h
        · split at h
          · cases h
          · exact Nat.lt_succ_of_lt (ih h)

/-! ## Values -/

/-- Whatever form a value gets, what is left behind it stays. -/
theorem exists_of_map {β : Type} {f : β → Json} {read : Option (β × List Char)} {v : Json}
    {rest : List Char} (h : (read.map fun r => (f r.1, r.2)) = some (v, rest)) :
    ∃ b, read = some (b, rest) := by
  obtain ⟨⟨b, tail⟩, hread, heq⟩ := Option.map_eq_some_iff.mp h
  cases heq
  exact ⟨b, hread⟩

section

variable {fuel : Nat}

/-- Reading with so many steps leaves less than it was given. -/
def Shortens {β : Type} (read : Nat → List Char → Option (β × List Char)) : Prop :=
  ∀ depth cs b rest, read depth cs = some (b, rest) → rest.length < cs.length

theorem shortens_readValue (hitems : Shortens (readItems fuel))
    (hfields : Shortens (readFields fuel)) : Shortens (readValue (fuel + 1)) := by
  intro depth cs v rest h
  have hskip := length_skipSpace cs
  simp only [readValue] at h
  generalize skipSpace cs = start at h hskip
  refine Nat.lt_of_lt_of_le ?_ hskip
  split at h
  · cases h
  · obtain ⟨s, hs⟩ := exists_of_map h
    exact Nat.lt_succ_of_lt (length_readString _ hs)
  · next more =>
    have hmore := length_skipSpace more
    split at h
    · cases h
    · split at h
      · next tail htail =>
        cases h
        rw [htail, List.length_cons] at hmore
        rw [List.length_cons]
        omega
      · obtain ⟨items, hread⟩ := exists_of_map h
        have hlength := hitems _ _ _ _ hread
        rw [List.length_cons]
        omega
  · next c more _ _ =>
    have hmore := length_skipSpace more
    split at h
    · split at h
      · cases h
      · split at h
        · next d tail htail =>
          rw [htail] at hmore
          split at h
          · cases h
            simp only [List.length_cons] at hmore ⊢
            omega
          · obtain ⟨fields, hread⟩ := exists_of_map (f := fun fs => .object (Fields.ofList fs)) h
            have hlength := hfields _ _ _ _ hread
            rw [List.length_cons]
            omega
        · cases h
    · split at h
      · obtain ⟨n, hread⟩ := exists_of_map h
        exact Nat.lt_succ_of_lt (length_readNumber hread)
      · split at h
        · obtain ⟨n, hread⟩ := exists_of_map h
          exact length_readNumber hread
        · split at h
          · exact length_expect (by decide) h
          · split at h
            · exact length_expect (by decide) h
            · split at h
              · exact length_expect (by decide) h
              · cases h

theorem shortens_readItems (hvalue : Shortens (readValue fuel))
    (hitems : Shortens (readItems fuel)) : Shortens (readItems (fuel + 1)) := by
  intro depth cs items rest h
  simp only [readItems] at h
  obtain ⟨⟨item, more⟩, hitem, h⟩ := Option.bind_eq_some_iff.mp h
  have hlength : more.length < cs.length := hvalue _ _ _ _ hitem
  have hskip := length_skipSpace more
  simp only at h
  split at h
  · next again hagain =>
    obtain ⟨⟨rests, tail⟩, hrests, h⟩ := Option.bind_eq_some_iff.mp h
    have htail : tail.length < again.length := hitems _ _ _ _ hrests
    obtain rfl : tail = rest := (Prod.mk.inj (Option.some.inj h)).2
    rw [hagain, List.length_cons] at hskip
    omega
  · next tail htail =>
    cases h
    rw [htail, List.length_cons] at hskip
    omega
  · cases h

theorem shortens_readFields (hvalue : Shortens (readValue fuel))
    (hfields : Shortens (readFields fuel)) : Shortens (readFields (fuel + 1)) := by
  intro depth cs fields rest h
  have hstart := length_skipSpace cs
  simp only [readFields] at h
  split at h
  · next start hquote =>
    rw [hquote, List.length_cons] at hstart
    obtain ⟨⟨key, behind⟩, hkey, h⟩ := Option.bind_eq_some_iff.mp h
    have hbehind : behind.length < start.length := length_readString _ hkey
    have hcolon := length_skipSpace behind
    simp only at h
    split at h
    · next more hmore =>
      rw [hmore, List.length_cons] at hcolon
      obtain ⟨⟨value, tail⟩, hread, h⟩ := Option.bind_eq_some_iff.mp h
      have htail : tail.length < more.length := hvalue _ _ _ _ hread
      have hmark := length_skipSpace tail
      simp only at h
      split at h
      · next again hagain =>
        rw [hagain, List.length_cons] at hmark
        obtain ⟨⟨entries, last⟩, hentries, h⟩ := Option.bind_eq_some_iff.mp h
        have hlast : last.length < again.length := hfields _ _ _ _ hentries
        obtain rfl : last = rest := (Prod.mk.inj (Option.some.inj h)).2
        omega
      · next c last hlast =>
        rw [hlast, List.length_cons] at hmark
        split at h
        · cases h
          omega
        · cases h
      · cases h
    · cases h
  · cases h

end

theorem shortens_read (fuel : Nat) :
    Shortens (readValue fuel) ∧ Shortens (readItems fuel) ∧ Shortens (readFields fuel) := by
  induction fuel with
  | zero =>
    unfold Shortens
    simp only [readValue, readItems, readFields]
    exact ⟨nofun, nofun, nofun⟩
  | succ fuel ih =>
    obtain ⟨hvalue, hitems, hfields⟩ := ih
    exact ⟨shortens_readValue hitems hfields, shortens_readItems hvalue hitems,
      shortens_readFields hvalue hfields⟩

/-- Every form takes a character of the text. -/
theorem Forms.length_next {f g : Forms} {v : Json} (h : f.next = (.value v, g)) :
    g.rest.length < f.rest.length := by
  have hskip := length_skipSpace f.rest
  unfold Forms.next at h
  split at h
  · cases h
  · split at h
    · cases h
    · next c cs hstart =>
      rw [hstart] at hskip
      split at h
      · cases h
      · next w rest hread =>
        have hlength : rest.length < (c :: cs).length :=
          (shortens_read _).1 _ _ _ _ hread
        split at h
        · cases h
          exact Nat.lt_of_lt_of_le hlength hskip
        · cases h

end Folio.Json
