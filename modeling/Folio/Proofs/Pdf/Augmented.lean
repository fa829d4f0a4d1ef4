import Folio.Proofs.Pdf.Stamped

/-!
# Documents that are added to

A document is added to when it gets new objects that lead nowhere, more streams behind the contents
of a page, and fonts under their resource names in the dictionaries where fonts are kept. What is
read of the page tree and of the sizes of pages stays, and so does every font that is there under
its own name.
-/
namespace Folio.Pdf

open Document Flow

variable {α : Type} {doc next last : Document α} {fonts : List String}

/-! ## Fonts under their resource names -/

/-- Each resource name stands for one font, and none of them is the key under which resources keep
their fonts. -/
structure ToldApart (fonts : List String) : Prop where
  injective : ∀ f ∈ fonts, ∀ g ∈ fonts, fontResourceName f = fontResourceName g → f = g
  key : ∀ f ∈ fonts, fontResourceName f ≠ "Font"

/-- Keys whose values stay when a document is added to. -/
def keptKeys : List String :=
  ["Type", "Subtype", "BaseFont", "Encoding", "Linearized", "Pages", "Kids", "MediaBox", "Parent"]

/-- The dictionary of a font, perhaps with entries under other keys. -/
def IsFont (baseFont : String) (d : Dict α) : Prop :=
  ∃ entries, fontObject baseFont = .dictionary entries ∧ AgreeOn keptKeys entries d

/-- A reference to a font with that base name. -/
def LeadsToFont (doc : Document α) (o : Obj α) (baseFont : String) : Prop :=
  ∃ number generation d, o = .reference number generation ∧
    doc.find? number = some (.dictionary d) ∧ IsFont baseFont d

/-- The dictionary holds the font under its resource name. -/
def Defines (doc : Document α) (d : Dict α) (baseFont : String) : Prop :=
  ∃ o, valueUnder (fontResourceName baseFont) d = some o ∧ LeadsToFont doc o baseFont

@[simp] theorem valueUnder_set_self (key : String) (value : Obj α) (d : Dict α) :
    valueUnder key (Dict.set (bytesOf key) value d) = some value := Dict.get?_set_self ..

theorem valueUnder_set_of_ne {key other : String} (h : other ≠ key) (value : Obj α) (d : Dict α) :
    valueUnder other (Dict.set (bytesOf key) value d) = valueUnder other d :=
  Dict.get?_set_of_ne (fun heq => h (bytesOf_inj.mp heq)) value d

theorem fontResourceName_ne_key {key : String} (hkey : key.toList.head? ≠ some 'F')
    (baseFont : String) : fontResourceName baseFont ≠ key := fun heq =>
  fontResourceName_ne_of_initial hkey baseFont (congrArg bytesOf heq.symm)

theorem AgreeOn.trans {keys : List String} {d e f : Dict α} (h : AgreeOn keys d e)
    (k : AgreeOn keys e f) : AgreeOn keys d f := fun key hkey => (k key hkey).trans (h key hkey)

theorem Extends.refl {keys : List String} (doc : Document α) : Extends keys doc doc :=
  ⟨rfl, id, fun _ d h => ⟨d, h, fun _ _ => rfl⟩, fun _ _ _ => id⟩

theorem Extends.trans {keys : List String} (h : Extends keys doc next)
    (k : Extends keys next last) : Extends keys doc last where
  root := k.root.trans h.root
  below := k.below ∘ h.below
  dictionary number d hfind := by
    obtain ⟨e, he, hde⟩ := h.dictionary number d hfind
    obtain ⟨f, hf, hef⟩ := k.dictionary number e he
    exact ⟨f, hf, hde.trans hef⟩
  stream number entries content hfind :=
    k.stream number entries content (h.stream number entries content hfind)

theorem LeadsToFont.extends {o : Obj α} {baseFont : String} (h : LeadsToFont doc o baseFont)
    (hnext : Extends keptKeys doc next) : LeadsToFont next o baseFont := by
  obtain ⟨number, generation, d, rfl, hfind, entries, hentries, hagree⟩ := h
  obtain ⟨e, he, hkept⟩ := hnext.dictionary number d hfind
  exact ⟨number, generation, e, rfl, he, entries, hentries, hagree.trans hkept⟩

theorem Defines.extends {d : Dict α} {baseFont : String} (h : Defines doc d baseFont)
    (hnext : Extends keptKeys doc next) : Defines next d baseFont := by
  obtain ⟨o, ho, hlead⟩ := h
  exact ⟨o, ho, hlead.extends hnext⟩

theorem LeadsToFont.unique {o : Obj α} {f g : String} (hf : LeadsToFont doc o f)
    (hg : LeadsToFont doc o g) : f = g := by
  have hbase {baseFont : String} {d : Dict α} (h : IsFont baseFont d) :
      valueUnder "BaseFont" d = some (Obj.nameOf baseFont) := by
    obtain ⟨entries, hentries, hagree⟩ := h
    obtain rfl := Obj.dictionary.inj hentries
    rw [hagree "BaseFont" (by simp [keptKeys]), valueUnder_ofList]
    rfl
  obtain ⟨number, generation, d, rfl, hfind, hfont⟩ := hf
  obtain ⟨_, _, e, heq, hfind', hfont'⟩ := hg
  obtain ⟨rfl, -⟩ := Obj.reference.inj heq
  obtain rfl : d = e := by simpa [hfind] using hfind'
  have hnames : bytesOf f = bytesOf g := by
    simpa [Obj.nameOf] using (hbase hfont).symm.trans (hbase hfont')
  exact bytesOf_inj.mp hnames

/-- Under one name there is one font. -/
theorem Defines.unique {d : Dict α} {f g : String} (hf : Defines doc d f) (hg : Defines doc d g)
    (hname : fontResourceName f = fontResourceName g) : f = g := by
  obtain ⟨o, ho, hlead⟩ := hf
  obtain ⟨p, hp, hlead'⟩ := hg
  obtain rfl : o = p := by simpa [← hname, ho] using hp
  exact hlead.unique hlead'

theorem not_defines_nil {baseFont : String} : ¬ Defines doc [] baseFont := by
  rintro ⟨o, ho, -⟩
  simp [valueUnder, Dict.get?] at ho

/-! ## Dictionaries with more in them -/

/-- The number that resources give in place of their fonts. -/
def fontReference (resources : Dict α) : Option Nat :=
  (valueUnder "Font" resources).bind Obj.asReference?

/-- The fonts that stand in the resources themselves. -/
def inlineFonts (resources : Dict α) : Dict α :=
  ((valueUnder "Font" resources).bind Obj.asDict?).getD []

theorem dictOf_font (doc : Document α) (resources : Dict α) :
    doc.dictOf (valueUnder "Font" resources) =
      match fontReference resources with
      | some number => (doc.getDict? number).getD []
      | none => inlineFonts resources := by
  unfold fontReference inlineFonts
  cases valueUnder "Font" resources with
  | none => rfl
  | some o => cases o <;> rfl

/-- `e` has what counts in `d`: the entries by which pages and sizes are found, and the fonts under
their names, if `d` is a dictionary of fonts as well as if it keeps one. -/
structure Carries (fonts : List String) (doc next : Document α) (d e : Dict α) : Prop where
  kept : AgreeOn keptKeys d e
  reference : fontReference e = fontReference d
  inline : ∀ f ∈ fonts, Defines doc (inlineFonts d) f → Defines next (inlineFonts e) f
  entries : ∀ f ∈ fonts, Defines doc d f → Defines next e f

theorem Carries.refl (hnext : Extends keptKeys doc next) (d : Dict α) :
    Carries fonts doc next d d where
  kept _ _ := rfl
  reference := rfl
  inline _ _ h := h.extends hnext
  entries _ _ h := h.extends hnext

theorem Carries.trans {d e f : Dict α} (h : Carries fonts doc next d e)
    (k : Carries fonts next last e f) : Carries fonts doc last d f where
  kept := h.kept.trans k.kept
  reference := k.reference.trans h.reference
  inline g hg hdefines := k.inline g hg (h.inline g hg hdefines)
  entries g hg hdefines := k.entries g hg (h.entries g hg hdefines)

theorem Carries.extends {d e : Dict α} (h : Carries fonts doc doc d e)
    (hnext : Extends keptKeys doc next) : Carries fonts doc next d e :=
  h.trans (.refl hnext e)

/-- An entry under a key that neither fonts nor page trees use. -/
theorem carries_set {key : String} (hkept : key ∉ keptKeys) (hfont : key ≠ "Font")
    (hinitial : key.toList.head? ≠ some 'F') (value : Obj α) (d : Dict α) :
    Carries fonts doc doc d (Dict.set (bytesOf key) value d) := by
  refine ⟨fun other hkey => valueUnder_set_of_ne ?_ value d, ?_, fun f _ h => ?_, fun f _ h => ?_⟩
  · rintro rfl
    exact hkept hkey
  · unfold fontReference
    rw [valueUnder_set_of_ne (Ne.symm hfont)]
  · unfold inlineFonts
    rwa [valueUnder_set_of_ne (Ne.symm hfont)]
  · unfold Defines
    rwa [valueUnder_set_of_ne (fontResourceName_ne_key hinitial f)]

/-! ## Documents with more in them -/

/-- A new object: a stream, or a font that refers to nothing. -/
inductive Leaf : Obj α → Prop
  | stream (entries : Dict α) (content : Bytes) : Leaf (.stream entries content)
  | font {d : Dict α} (baseFont : String) (h : IsFont baseFont d) (hnone : fontReference d = none) :
      Leaf (.dictionary d)

/-- No object stands under a number that is still to be given out. -/
def Fresh (doc : Document α) : Prop :=
  ∀ number o, doc.find? number = some o → number ≤ doc.maxId

/-- `next` has all that `doc` has: objects that are no dictionaries stay as they are, dictionaries
carry what was in them, and new objects lead nowhere. -/
structure Augments (fonts : List String) (doc next : Document α) : Prop where
  root : next.root = doc.root
  maxId : doc.maxId ≤ next.maxId
  length : doc.objects.length ≤ next.objects.length
  fresh : Fresh doc → Fresh next
  dictionary : ∀ number d, doc.find? number = some (.dictionary d) →
    ∃ e, next.find? number = some (.dictionary e) ∧ Carries fonts doc next d e
  other : ∀ number o, doc.find? number = some o → o.asDict? = none → next.find? number = some o
  added : ∀ number o, doc.find? number = none → next.find? number = some o → Leaf o

theorem Leaf.carried {d e : Dict α} (h : Leaf (.dictionary d)) (k : Carries fonts doc next d e) :
    Leaf (.dictionary e) := by
  cases h with
  | font baseFont hfont hnone =>
    obtain ⟨entries, hentries, hagree⟩ := hfont
    exact .font baseFont ⟨entries, hentries, hagree.trans k.kept⟩ (k.reference.trans hnone)

theorem Augments.extends (h : Augments fonts doc next) : Extends keptKeys doc next where
  root := h.root
  below := h.fresh
  dictionary number d hfind := by
    obtain ⟨e, he, hcarries⟩ := h.dictionary number d hfind
    exact ⟨e, he, hcarries.kept⟩
  stream number entries content hfind := h.other number _ hfind rfl

namespace Augments

theorem refl (doc : Document α) : Augments fonts doc doc := by
  exact ⟨rfl, Nat.le_refl _, Nat.le_refl _, id, fun _ d h => ⟨d, h, .refl (.refl doc) d⟩,
    fun _ _ h _ => h, fun _ _ hnone hsome => by simp [hnone] at hsome⟩

theorem trans (h : Augments fonts doc next) (k : Augments fonts next last) :
    Augments fonts doc last where
  root := k.root.trans h.root
  maxId := Nat.le_trans h.maxId k.maxId
  length := Nat.le_trans h.length k.length
  fresh := k.fresh ∘ h.fresh
  dictionary number d hfind := by
    obtain ⟨e, he, hde⟩ := h.dictionary number d hfind
    obtain ⟨f, hf, hef⟩ := k.dictionary number e he
    exact ⟨f, hf, hde.trans hef⟩
  other number o hfind hnone := k.other number o (h.other number o hfind hnone) hnone
  added number o hnone hsome := by
    cases hmiddle : next.find? number with
    | none => exact k.added number o hmiddle hsome
    | some p =>
      have hleaf := h.added number p hnone hmiddle
      cases p with
      | dictionary d =>
        obtain ⟨e, he, hcarries⟩ := k.dictionary number d hmiddle
        obtain rfl : .dictionary e = o := by simpa [he] using hsome
        exact hleaf.carried hcarries
      | _ =>
        have hsame := k.other number _ hmiddle rfl
        rw [hsome] at hsame
        obtain rfl := Option.some.inj hsame
        exact hleaf

end Augments

theorem length_put_le (number : Nat) (o : Obj α) (objects : List (Nat × Obj α)) :
    objects.length ≤ (put number o objects).length := by
  induction objects with
  | nil => exact Nat.zero_le _
  | cons entry rest ih =>
    obtain ⟨n, p⟩ := entry
    unfold put
    split
    · exact Nat.le_refl _
    · simpa using ih

theorem augments_set {number : Nat} {d e : Dict α} (hfind : doc.find? number = some (.dictionary d))
    (h : Carries fonts doc doc d e) : Augments fonts doc (doc.set number (.dictionary e)) := by
  have hextends := extends_set hfind h.kept
  have hsame {other : Nat} {p : Obj α} (hother : doc.find? other = some p) (hne : other ≠ number) :
      (doc.set number (.dictionary e)).find? other = some p :=
    (find?_set_of_ne hne doc _).trans hother
  refine ⟨rfl, Nat.le_refl _, length_put_le .., hextends.below, fun other c hother => ?_,
    fun other p hother hnone => ?_, fun other p hnone hsome => ?_⟩
  · by_cases hne : other = number
    · subst hne
      obtain rfl : d = c := by simpa [hfind] using hother
      exact ⟨e, find?_set_self .., h.extends hextends⟩
    · exact ⟨c, hsame hother hne, .refl hextends c⟩
  · refine hsame hother ?_
    rintro rfl
    obtain rfl : .dictionary d = p := by simpa [hfind] using hother
    cases hnone
  · have hne : other ≠ number := by
      rintro rfl
      simp [hfind] at hnone
    rw [find?_set_of_ne hne, hnone] at hsome
    cases hsome

theorem Fresh.find?_add (h : Fresh doc) {number : Nat} {p : Obj α}
    (hfind : doc.find? number = some p) (o : Obj α) :
    (doc.add o).2.find? number = some p :=
  (find?_add_of_le doc (h _ _ hfind) o).trans hfind

theorem augments_add (hfresh : Fresh doc) {o : Obj α} (h : Leaf o) :
    Augments fonts doc (doc.add o).2 := by
  have hextends : Extends keptKeys doc (doc.add o).2 := extends_add hfresh o
  refine ⟨rfl, Nat.le_succ _, length_put_le .., hextends.below,
    fun number d hfind => ⟨d, hfresh.find?_add hfind o, .refl hextends d⟩,
    fun number p hfind _ => hfresh.find?_add hfind o, fun number p hnone hsome => ?_⟩
  by_cases hnumber : number = doc.maxId + 1
  · subst hnumber
    obtain rfl : o = p := Option.some.inj ((find?_set_self doc _ o).symm.trans hsome)
    exact h
  · have hold : (doc.add o).2.find? number = doc.find? number := find?_set_of_ne hnumber doc o
    rw [hold, hnone] at hsome
    cases hsome

/-! ## What a reader finds there -/

/-- What a chain of references ends in, before and after. -/
inductive Followed (fonts : List String) (doc next : Document α) :
    Option (Nat × Obj α) → Option (Nat × Obj α) → Prop
  | dictionary {number : Nat} {d e : Dict α} (h : Carries fonts doc next d e) :
      Followed fonts doc next (some (number, .dictionary d)) (some (number, .dictionary e))
  | other {number : Nat} {o : Obj α} (h : o.asDict? = none) :
      Followed fonts doc next (some (number, o)) (some (number, o))
  | missing : Followed fonts doc next none none
  | added {number : Nat} {o : Obj α} (hnew : doc.find? number = none) (h : Leaf o) :
      Followed fonts doc next none (some (number, o))

theorem follow_of_find? {number : Nat} {o : Obj α} (h : doc.find? number = some o)
    (hreference : o.asReference? = none) (fuel : Nat) :
    doc.follow (fuel + 1) number = some (number, o) := by
  unfold follow
  rw [h]
  cases o with
  | reference n g => cases hreference
  | _ => rfl

theorem follow_of_reference {number target generation : Nat}
    (h : doc.find? number = some (.reference target generation)) (fuel : Nat) :
    doc.follow (fuel + 1) number = doc.follow fuel target := by
  rw [follow, h]

theorem follow_of_missing {number : Nat} (h : doc.find? number = none) (fuel : Nat) :
    doc.follow fuel number = none := by
  cases fuel with
  | zero => rfl
  | succ fuel => rw [follow, h]

theorem Leaf.asReference? {o : Obj α} (h : Leaf o) : o.asReference? = none := by
  cases h <;> rfl

theorem Augments.follow (h : Augments fonts doc next) (fuel number : Nat) :
    Followed fonts doc next (doc.follow fuel number) (next.follow fuel number) := by
  induction fuel generalizing number with
  | zero => exact .missing
  | succ fuel ih =>
    cases hfind : doc.find? number with
    | none =>
      rw [follow_of_missing hfind]
      cases hnext : next.find? number with
      | none =>
        rw [follow_of_missing hnext]
        exact .missing
      | some o =>
        -- a reference that led nowhere may lead to what was added, but not any further
        have hleaf := h.added number o hfind hnext
        rw [follow_of_find? hnext hleaf.asReference?]
        exact .added hfind hleaf
    | some o =>
      cases o with
      | dictionary d =>
        obtain ⟨e, he, hcarries⟩ := h.dictionary number d hfind
        rw [follow_of_find? hfind rfl, follow_of_find? he rfl]
        exact .dictionary hcarries
      | reference target generation =>
        rw [follow_of_reference hfind, follow_of_reference (h.other number _ hfind rfl)]
        exact ih target
      | _ =>
        rw [follow_of_find? hfind rfl, follow_of_find? (h.other number _ hfind rfl) rfl]
        exact .other rfl

theorem getDict?_eq (doc : Document α) (number : Nat) :
    doc.getDict? number = (doc.locate? number).bind (·.2.asDict?) := by
  unfold Document.getDict? Document.getDict
  rcases doc.locate? number with _ | ⟨found, o⟩
  · rfl
  · cases o <;> rfl

/-- What is read in place of a dictionary: the same with more in it, nothing, or a new font. -/
theorem Augments.getDict? (h : Augments fonts doc next) (number : Nat) :
    (∃ d e, doc.getDict? number = some d ∧ next.getDict? number = some e ∧
      Carries fonts doc next d e) ∨
    (doc.getDict? number = none ∧ next.getDict? number = none) ∨
    (doc.getDict? number = none ∧ ∃ e, next.getDict? number = some e ∧ Leaf (.dictionary e)) := by
  have hfollowed : Followed fonts doc next (doc.locate? number) (next.locate? number) :=
    h.follow _ number
  rw [getDict?_eq, getDict?_eq]
  generalize doc.locate? number = before, next.locate? number = after at hfollowed
  cases hfollowed with
  | dictionary hcarries => exact .inl ⟨_, _, rfl, rfl, hcarries⟩
  | other hnone => exact .inr (.inl ⟨hnone, hnone⟩)
  | missing => exact .inr (.inl ⟨rfl, rfl⟩)
  | @added _ o _ hleaf =>
    cases o with
    | dictionary e => exact .inr (.inr ⟨rfl, e, rfl, hleaf⟩)
    | _ => exact .inr (.inl ⟨rfl, rfl⟩)

/-! ### The page tree -/

/-- Keys under which no new object has anything. -/
def linkKeys : List String := ["Linearized", "Pages", "Kids", "MediaBox", "Parent"]

theorem mem_keptKeys_of_link {key : String} (h : key ∈ linkKeys) : key ∈ keptKeys := by
  revert key
  decide

theorem IsFont.link {baseFont : String} {d : Dict α} (h : IsFont baseFont d) {key : String}
    (hkey : key ∈ linkKeys) : valueUnder key d = none := by
  obtain ⟨entries, hentries, hagree⟩ := h
  obtain rfl := Obj.dictionary.inj hentries
  rw [hagree key (mem_keptKeys_of_link hkey)]
  rcases (by simpa [linkKeys] using hkey : key = "Linearized" ∨ key = "Pages" ∨ key = "Kids" ∨
    key = "MediaBox" ∨ key = "Parent") with rfl | rfl | rfl | rfl | rfl <;>
    simp [valueUnder_ofList]

theorem IsFont.type {baseFont : String} {d : Dict α} (h : IsFont baseFont d) :
    valueUnder "Type" d = some (Obj.nameOf "Font") := by
  obtain ⟨entries, hentries, hagree⟩ := h
  obtain rfl := Obj.dictionary.inj hentries
  rw [hagree "Type" (by simp [keptKeys]), valueUnder_ofList]
  rfl

namespace Augments

theorem value (h : Augments fonts doc next) (number : Nat) {key : String} (hkey : key ∈ linkKeys) :
    valueUnder key ((next.getDict? number).getD []) =
      valueUnder key ((doc.getDict? number).getD []) := by
  rcases h.getDict? number with ⟨d, e, hd, he, hcarries⟩ | ⟨hd, he⟩ | ⟨hd, e, he, hleaf⟩
  · rw [hd, he]
    exact hcarries.kept key (mem_keptKeys_of_link hkey)
  · rw [hd, he]
  · rw [hd, he]
    cases hleaf with
    | font baseFont hfont _ => exact hfont.link hkey

/-- An array is found where one was found before. -/
theorem items (h : Augments fonts doc next) (o : Obj α) :
    (next.target? o).bind Obj.asArray? = (doc.target? o).bind Obj.asArray? := by
  cases o with
  | reference number generation =>
    have hfollowed := h.follow maxReferences number
    change ((next.follow maxReferences number).map (·.2)).bind Obj.asArray? =
      ((doc.follow maxReferences number).map (·.2)).bind Obj.asArray?
    generalize doc.follow maxReferences number = before,
      next.follow maxReferences number = after at hfollowed
    cases hfollowed with
    | added _ hleaf => cases hleaf <;> rfl
    | _ => rfl
  | _ => rfl

theorem kidsOf (h : Augments fonts doc next) {d e : Dict α}
    (hkids : valueUnder "Kids" e = valueUnder "Kids" d) : next.kidsOf e = doc.kidsOf d := by
  unfold Document.kidsOf
  change (((valueUnder "Kids" e).bind next.target?).bind Obj.asArray?).getD [] = _
  rw [hkids]
  change _ = (((valueUnder "Kids" d).bind doc.target?).bind Obj.asArray?).getD []
  cases valueUnder "Kids" d with
  | none => rfl
  | some o =>
    rw [Option.bind_some, Option.bind_some, h.items o]

end Augments

theorem kind?_congr {d e : Dict α} (h : AgreeOn keptKeys d e) :
    Document.kind? e = Document.kind? d := by
  have htype : Dict.get? (bytesOf "Type") e = Dict.get? (bytesOf "Type") d :=
    h "Type" (by simp [keptKeys])
  have hhas (c : Dict α) : Dict.has (bytesOf "Linearized") c =
      (valueUnder "Linearized" c).isSome := by
    rw [Bool.eq_iff_iff]
    simp [Dict.has, valueUnder, Dict.get?]
  unfold Document.kind?
  rw [htype, hhas, hhas, h "Linearized" (by simp [keptKeys])]

namespace Augments

theorem classify (h : Augments fonts doc next) (kid : Obj α) :
    next.classify kid = doc.classify kid := by
  cases kid with
  | reference number generation =>
    simp only [Document.classify]
    rcases h.getDict? number with ⟨d, e, hd, he, hcarries⟩ | ⟨hd, he⟩ | ⟨hd, e, he, hleaf⟩
    · simp only [hd, he, kind?_congr hcarries.kept,
        h.kidsOf (hcarries.kept "Kids" (by simp [keptKeys]))]
    · rw [hd, he]
    · cases hleaf with
      | font baseFont hfont _ =>
        have hpage : bytesOf "Font" ≠ bytesOf "Page" := fun heq => by
          simpa using bytesOf_inj.mp heq
        have htree : bytesOf "Font" ≠ bytesOf "Pages" := fun heq => by
          simpa using bytesOf_inj.mp heq
        simp [hd, he, kind?_of_type hfont.type, hpage, htree]
  | _ => rfl

theorem pagesBelow (h : Augments fonts doc next) (limit : Nat) (pending : List (List (Obj α))) :
    next.pagesBelow limit pending = doc.pagesBelow limit pending := by
  fun_induction doc.pagesBelow limit pending with
  | case1 limit => rw [Document.pagesBelow]
  | case2 limit stack ih => rw [Document.pagesBelow, ih]
  | case3 kid rest stack => rw [Document.pagesBelow]
  | case4 limit kid rest stack number hkid ih =>
    rw [Document.pagesBelow, h.classify, hkid]
    simp only [ih]
  | case5 limit kid rest stack kids hkid hdepth ih =>
    rw [Document.pagesBelow, h.classify, hkid]
    simp only [hdepth, ↓reduceIte]
    exact ih
  | case6 limit kid rest stack kids hkid hdepth ih =>
    rw [Document.pagesBelow, h.classify, hkid]
    simp only [hdepth, ↓reduceIte, ih]
  | case7 limit kid rest stack hkid ih =>
    rw [Document.pagesBelow, h.classify, hkid]
    simp only [ih]

theorem pagesUpTo (h : Augments fonts doc next) (limit : Nat) :
    Pdf.pagesUpTo next limit = Pdf.pagesUpTo doc limit := by
  unfold Pdf.pagesUpTo
  rw [h.root, h.value doc.root (by simp [linkKeys])]
  split
  · next tree generation _ =>
    rw [h.kidsOf (h.value tree (by simp [linkKeys])), h.pagesBelow]
  · rfl

end Augments

/-! ### The sizes of pages -/

section Sizes

variable [Scalar α]

theorem boxSize_congr {d e : Dict α} (h : valueUnder "MediaBox" e = valueUnder "MediaBox" d) :
    boxSize e = boxSize d := by
  unfold boxSize
  change ((valueUnder "MediaBox" e).bind Obj.asArray?).bind _ = _
  rw [h]
  rfl

/-- The page or its parent may be missing. -/
theorem mediaBox_eq (doc : Document α) (page : Nat) :
    mediaBox doc page =
      (let d := (doc.getDict? page).getD []
       let parent := (valueUnder "Parent" d).bind Obj.asReference?
       ((boxSize d).or (parent.bind fun number =>
        boxSize ((doc.getDict? number).getD []))).getD fallbackBox) := by
  have hparent (d : Dict α) : (((Dict.get? (bytesOf "Parent") d).bind Obj.asReference?).bind
      fun number => (doc.getDict? number).bind boxSize) =
      ((valueUnder "Parent" d).bind Obj.asReference?).bind fun number =>
        boxSize ((doc.getDict? number).getD []) := by
    unfold valueUnder
    cases (Dict.get? (bytesOf "Parent") d).bind Obj.asReference? with
    | none => rfl
    | some number =>
      rw [Option.bind_some, Option.bind_some]
      cases doc.getDict? number <;> rfl
  unfold mediaBox
  cases hd : doc.getDict? page with
  | none => rfl
  | some d =>
    simp only [hparent]
    rfl

theorem Augments.mediaBox (h : Augments fonts doc next) (page : Nat) :
    Pdf.mediaBox next page = Pdf.mediaBox doc page := by
  have hparent := h.value page (show "Parent" ∈ linkKeys by simp [linkKeys])
  have hsize (number : Nat) : boxSize ((next.getDict? number).getD []) =
      boxSize ((doc.getDict? number).getD []) :=
    boxSize_congr (h.value number (by simp [linkKeys]))
  rw [mediaBox_eq, mediaBox_eq]
  simp only [hparent, hsize]

end Sizes

/-! ### Fonts -/

namespace Augments

/-- The fonts of resources that carry what was in them. -/
theorem defines_font (h : Augments fonts doc next) {d e : Dict α}
    (hcarries : Carries fonts doc next d e) {f : String} (hf : f ∈ fonts)
    (hdefines : Defines doc (doc.dictOf (valueUnder "Font" d)) f) :
    Defines next (next.dictOf (valueUnder "Font" e)) f := by
  rw [dictOf_font] at hdefines ⊢
  rw [hcarries.reference]
  cases hreference : fontReference d with
  | none =>
    rw [hreference] at hdefines
    exact hcarries.inline f hf hdefines
  | some number =>
    rw [hreference] at hdefines
    rcases h.getDict? number with ⟨c, c', hc, hc', hinner⟩ | ⟨hnone, -⟩ | ⟨hnone, -⟩
    · simp only [hc, hc', Option.getD_some] at hdefines ⊢
      exact hinner.entries f hf hdefines
    · simp only [hnone, Option.getD_none] at hdefines
      exact absurd hdefines not_defines_nil
    · simp only [hnone, Option.getD_none] at hdefines
      exact absurd hdefines not_defines_nil

/-- A font that is there under its name is there afterwards, if the page refers to the same
resources. -/
theorem defines (h : Augments fonts doc next) {page page' : Dict α}
    (hresources : valueUnder "Resources" page' = valueUnder "Resources" page) {f : String}
    (hf : f ∈ fonts) (hdefines : Defines doc (doc.pageResources "Font" page) f) :
    Defines next (next.pageResources "Font" page') f := by
  unfold Document.pageResources at hdefines ⊢
  rw [hresources]
  cases hvalue : valueUnder "Resources" page with
  | none =>
    rw [hvalue] at hdefines
    exact absurd hdefines not_defines_nil
  | some o =>
    rw [hvalue] at hdefines
    cases o with
    | dictionary d => exact h.defines_font (.refl h.extends d) hf hdefines
    | reference number generation =>
      simp only [Document.dictOf] at hdefines ⊢
      rcases h.getDict? number with ⟨d, e, hd, he, hcarries⟩ | ⟨hnone, -⟩ | ⟨hnone, -⟩
      · simp only [hd, he, Option.getD_some] at hdefines ⊢
        exact h.defines_font hcarries hf hdefines
      · rw [hnone] at hdefines
        exact absurd hdefines not_defines_nil
      · rw [hnone] at hdefines
        exact absurd hdefines not_defines_nil
    | _ => exact absurd hdefines not_defines_nil

end Augments

/-! ### Places -/

/-- The number under which the object stands that a reference leads to. -/
def located (doc : Document α) (number : Nat) : Option Nat := (doc.locate? number).map (·.1)

/-- The reference that leads to the place, unless the place is in the page. -/
def FontPlace.number? : FontPlace → Option Nat
  | .object number | .resources number => some number
  | .page => none

/-- Where the fonts of a page are kept, by its entries. -/
theorem fontPlace_eq {page : Nat} {d : Dict α} (h : doc.getDict page = .ok d) :
    fontPlace doc page = match valueUnder "Resources" d with
      | some (.reference number _) => (doc.getDict number).map fun resources =>
          (fontReference resources).elim (.resources number) .object
      | some (.dictionary resources) => .ok ((fontReference resources).elim .page .object)
      | _ => .ok .page := by
  unfold fontPlace fontReference valueUnder
  simp only [h, bind, Except.bind, pure, Except.pure]
  cases Dict.get? (bytesOf "Resources") d with
  | none => rfl
  | some o =>
    cases o with
    | reference number generation =>
      cases hdict : doc.getDict number with
      | error fault => simp only [hdict, Except.map]
      | ok resources =>
        simp only [hdict, Except.map]
        cases Dict.get? (bytesOf "Font") resources with
        | none => rfl
        | some fonts => cases fonts <;> rfl
    | dictionary resources =>
      simp only
      cases Dict.get? (bytesOf "Font") resources with
      | none => rfl
      | some fonts => cases fonts <;> rfl
    | _ => rfl

theorem getDict?_eq_some {number : Nat} {d : Dict α} :
    doc.getDict? number = some d ↔ doc.getDict number = .ok d := by
  unfold Document.getDict?
  cases doc.getDict number <;> simp [Except.toOption]

/-- Fonts are kept where they were, or where nothing was, as long as the page stays. -/
theorem Augments.fontPlace (h : Augments fonts doc next) {page number : Nat} {d : Dict α}
    {place : FontPlace} (hdoc : doc.getDict page = .ok d) (hnext : next.getDict page = .ok d)
    (hplace : Pdf.fontPlace next page = .ok place) (hnumber : place.number? = some number) :
    Pdf.fontPlace doc page = .ok place ∨ doc.getDict? number = none := by
  rw [fontPlace_eq hnext] at hplace
  rw [fontPlace_eq hdoc]
  split at hplace
  · next target generation _ =>
    rcases h.getDict? target with ⟨c, e, hc, he, hcarries⟩ | ⟨-, he⟩ | ⟨hc, e, he, hleaf⟩
    · rw [getDict?_eq_some.mp he] at hplace
      rw [getDict?_eq_some.mp hc]
      left
      simpa [Except.map, hcarries.reference] using hplace
    · cases hresources : next.getDict target with
      | ok resources => simp [getDict?_eq_some.mpr hresources] at he
      | error fault =>
        rw [hresources] at hplace
        cases hplace
    · right
      rw [getDict?_eq_some.mp he] at hplace
      cases hleaf with
      | font baseFont _ hnone =>
        obtain rfl : .resources target = place := by simpa [Except.map, hnone] using hplace
        obtain rfl := Option.some.inj hnumber
        exact hc
  · exact .inl hplace
  · exact .inl hplace

/-- An object that was there is reached by the references that reached it. -/
theorem Augments.located_iff (h : Augments fonts doc next) {number found : Nat} {o : Obj α}
    (hfind : doc.find? found = some o) :
    located next number = some found ↔ located doc number = some found := by
  have hfollowed : Followed fonts doc next (doc.locate? number) (next.locate? number) :=
    h.follow _ number
  unfold located
  generalize doc.locate? number = before, next.locate? number = after at hfollowed
  cases hfollowed with
  | @added n _ hnew _ =>
    have hne : n ≠ found := by
      rintro rfl
      simp [hfind] at hnew
    simp [hne]
  | _ => exact Iff.rfl

/-- The object in which the fonts of a page are kept, unless they stand in the page. -/
def fontHome (doc : Document α) (page : Nat) : Option Nat :=
  ((fontPlace doc page).toOption.bind FontPlace.number?).bind (located doc)

theorem fontHome_of_place {page number : Nat} {place : FontPlace}
    (hplace : fontPlace doc page = .ok place) (hnumber : place.number? = some number) :
    fontHome doc page = located doc number := by
  simp [fontHome, hplace, Except.toOption, hnumber]

theorem locate?_of_located {number found : Nat} {o : Obj α} (h : located doc number = some found)
    (hfind : doc.find? found = some o) : doc.locate? number = some (found, o) := by
  obtain ⟨⟨_, p⟩, hlocate, rfl⟩ := Option.map_eq_some_iff.mp h
  obtain rfl : p = o := by simpa [find?_of_locate? hlocate] using hfind
  exact hlocate

theorem getDict?_of_located {number found : Nat} {d : Dict α} (h : located doc number = some found)
    (hfind : doc.find? found = some (.dictionary d)) : doc.getDict? number = some d := by
  rw [getDict?_eq, locate?_of_located h hfind]
  rfl

theorem exists_located {number : Nat} {d : Dict α} (h : doc.getDict? number = some d) :
    ∃ found, located doc number = some found ∧ doc.find? found = some (.dictionary d) := by
  rw [getDict?_eq] at h
  obtain ⟨⟨found, o⟩, hlocate, ho⟩ := Option.bind_eq_some_iff.mp h
  cases o with
  | dictionary c =>
    obtain rfl := Option.some.inj ho
    exact ⟨found, by simp [located, hlocate], find?_of_locate? hlocate⟩
  | _ => cases ho

/-- An object that was there becomes no home of the fonts of a page that stays. -/
theorem Augments.fontHome_ne (h : Augments fonts doc next) {page other : Nat} {d c : Dict α}
    (hdoc : doc.getDict? page = some d) (hnext : next.getDict? page = some d)
    (hfind : doc.find? other = some (.dictionary c)) (hne : fontHome doc page ≠ some other) :
    fontHome next page ≠ some other := by
  intro hhome
  obtain ⟨number, hplaced, hlocated⟩ := Option.bind_eq_some_iff.mp hhome
  obtain ⟨place, hplace, hnumber⟩ := Option.bind_eq_some_iff.mp hplaced
  have hplaceNext : Pdf.fontPlace next page = .ok place := by
    cases hfound : Pdf.fontPlace next page <;> simp_all [Except.toOption]
  have hold : located doc number = some other := (h.located_iff hfind).mp hlocated
  rcases h.fontPlace (getDict?_eq_some.mp hdoc) (getDict?_eq_some.mp hnext) hplaceNext hnumber with
    hsame | hnone
  · exact hne ((fontHome_of_place hsame hnumber).trans hold)
  · rw [getDict?_of_located hold hfind] at hnone
    cases hnone

end Folio.Pdf
