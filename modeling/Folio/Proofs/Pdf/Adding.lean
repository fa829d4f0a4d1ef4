import Folio.Proofs.Pdf.Augmented

/-!
# What is drawn on one page

The fonts of a drawing become objects of the document, each when it is used for the first time, and
come into the dictionary in which the page keeps its fonts, wherever that is. The drawing itself
becomes a stream behind those of the page. Nothing else changes but what stands in that dictionary.
-/
namespace Folio.Pdf

open Document Flow

variable {α : Type} {doc next last : Document α} {fonts names : List String}

/-! ## The fonts of a drawing -/

/-- Every font of the table is an object of the document. -/
def Known (doc : Document α) (table : FontTable) : Prop :=
  ∀ entry ∈ table, LeadsToFont doc (.reference entry.2) entry.1

theorem Known.extends {table : FontTable} (h : Known doc table)
    (hnext : Extends keptKeys doc next) : Known next table :=
  fun entry hentry => (h entry hentry).extends hnext

theorem Known.augments {table : FontTable} (h : Known doc table)
    (hnext : Augments fonts doc next) : Known next table := h.extends hnext.extends

/-- Entries for all the named fonts, and for no others. -/
structure EntriesFor (doc : Document α) (names : List String) (entries : Dict α) : Prop where
  named : ∀ entry ∈ entries, ∃ f ∈ names, entry.1 = bytesOf (fontResourceName f) ∧
    LeadsToFont doc entry.2 f
  all : ∀ f ∈ names, ∃ entry ∈ entries, entry.1 = bytesOf (fontResourceName f)

theorem EntriesFor.augments {entries : Dict α} (h : EntriesFor doc names entries)
    (hnext : Augments fonts doc next) : EntriesFor next names entries where
  named entry hentry := by
    obtain ⟨f, hf, hname, hlead⟩ := h.named entry hentry
    exact ⟨f, hf, hname, hlead.extends hnext.extends⟩
  all := h.all

/-- No object that was there changes. -/
structure Adds (fonts : List String) (doc next : Document α) : Prop where
  augments : Augments fonts doc next
  same : ∀ number o, doc.find? number = some o → next.find? number = some o

theorem Adds.refl (doc : Document α) : Adds fonts doc doc := ⟨.refl doc, fun _ _ => id⟩

theorem Adds.trans (h : Adds fonts doc next) (k : Adds fonts next last) : Adds fonts doc last :=
  ⟨h.augments.trans k.augments, fun number o hfind => k.same number o (h.same number o hfind)⟩

theorem adds_add (hfresh : Fresh doc) {o : Obj α} (h : Leaf o) : Adds fonts doc (doc.add o).2 :=
  ⟨augments_add hfresh h, fun _ _ hfind => hfresh.find?_add hfind o⟩

theorem isFont_fontObject (baseFont : String) : ∃ entries : Dict α,
    fontObject baseFont = .dictionary entries ∧ IsFont baseFont entries ∧
      fontReference entries = none := by
  refine ⟨_, rfl, ⟨_, rfl, fun _ _ => rfl⟩, ?_⟩
  simp [fontReference, valueUnder_ofList]

variable (fonts) in
theorem run_fontNumber {table table' : FontTable} {baseFont : String} {number : Nat}
    (hfresh : Fresh doc) (h : Known doc table)
    (hrun : (fontNumber table baseFont).run doc = (.ok (number, table'), next)) :
    Adds fonts doc next ∧ Known next table' ∧ LeadsToFont next (.reference number) baseFont := by
  unfold fontNumber at hrun
  split at hrun
  · next name found hfind =>
    obtain ⟨hok, rfl⟩ := Prod.mk.inj hrun
    obtain ⟨rfl, rfl⟩ : found = number ∧ table = table' := by simpa using hok
    have hname : name = baseFont := by simpa using List.find?_some hfind
    subst hname
    exact ⟨.refl doc, h, h _ (List.mem_of_find?_eq_some hfind)⟩
  · obtain ⟨entries, hentries, hfont, hnone⟩ := isFont_fontObject (α := α) baseFont
    obtain ⟨hok, rfl⟩ := Prod.mk.inj hrun
    obtain ⟨rfl, rfl⟩ : doc.maxId + 1 = number ∧ table ++ [(baseFont, doc.maxId + 1)] = table' := by
      simpa using hok
    have hadds : Adds fonts doc (doc.add (fontObject baseFont)).2 :=
      adds_add hfresh (hentries ▸ Leaf.font baseFont hfont hnone)
    have hlead : LeadsToFont (doc.add (fontObject baseFont)).2 (.reference (doc.maxId + 1))
        baseFont :=
      ⟨_, _, entries, rfl, hentries ▸ find?_set_self .., hfont⟩
    refine ⟨hadds, fun entry hentry => ?_, hlead⟩
    rcases List.mem_append.mp hentry with hold | hnew
    · exact h.augments hadds.augments entry hold
    · obtain rfl := List.mem_singleton.mp hnew
      exact hlead

variable (fonts) in
theorem run_registrations {table table' : FontTable} {entries : Dict α}
    (hfresh : Fresh doc) (h : Known doc table)
    (hrun : (registrations table names).run doc = (.ok (entries, table'), next)) :
    Adds fonts doc next ∧ Known next table' ∧ EntriesFor next names entries := by
  induction names generalizing table doc entries with
  | nil =>
    cases hrun
    exact ⟨.refl _, h, nofun, nofun⟩
  | cons baseFont names ih =>
    obtain ⟨⟨number, table₁⟩, doc₁, hnumber, hrun⟩ := exists_of_run_bind hrun
    obtain ⟨⟨rest, table₂⟩, doc₂, hrest, hrun⟩ := exists_of_run_bind hrun
    cases hrun
    obtain ⟨hadds₁, hknown₁, hlead⟩ := run_fontNumber fonts hfresh h hnumber
    obtain ⟨hadds₂, hknown₂, hentries⟩ := ih (hadds₁.augments.fresh hfresh) hknown₁ hrest
    refine ⟨hadds₁.trans hadds₂, hknown₂, fun entry hentry => ?_, fun f hf => ?_⟩
    · rcases List.mem_cons.mp hentry with rfl | hentry
      · exact ⟨baseFont, List.mem_cons_self, rfl, hlead.extends hadds₂.augments.extends⟩
      · obtain ⟨f, hf, hname⟩ := hentries.named entry hentry
        exact ⟨f, List.mem_cons_of_mem _ hf, hname⟩
    · rcases List.mem_cons.mp hf with rfl | hf
      · exact ⟨_, List.mem_cons_self, rfl⟩
      · obtain ⟨entry, hentry, hname⟩ := hentries.all f hf
        exact ⟨entry, List.mem_cons_of_mem _ hentry, hname⟩

/-! ## Fonts come into a dictionary -/

/-- What stands under a key after entries have come in: the last of them, or what stood there. -/
theorem get?_addEntries (key : Bytes) (entries d : Dict α) :
    (∃ entry ∈ entries, entry.1 = key ∧ Dict.get? key (addEntries entries d) = some entry.2) ∨
      (∀ entry ∈ entries, entry.1 ≠ key) ∧
        Dict.get? key (addEntries entries d) = Dict.get? key d := by
  unfold addEntries
  induction entries generalizing d with
  | nil => exact .inr ⟨nofun, rfl⟩
  | cons entry entries ih =>
    rw [List.foldl_cons]
    rcases ih (Dict.set entry.1 entry.2 d) with ⟨other, hother, hfound⟩ | ⟨hnone, hsame⟩
    · exact .inl ⟨other, List.mem_cons_of_mem _ hother, hfound⟩
    · by_cases hkey : entry.1 = key
      · subst hkey
        exact .inl ⟨entry, List.mem_cons_self, rfl, by rw [hsame, Dict.get?_set_self]⟩
      · refine .inr ⟨List.forall_mem_cons.mpr ⟨hkey, hnone⟩, ?_⟩
        rw [hsame, Dict.get?_set_of_ne (Ne.symm hkey)]

theorem EntriesFor.defines {entries : Dict α} (h : EntriesFor doc names entries)
    (hfonts : ToldApart fonts) (hnames : names ⊆ fonts) (d : Dict α) {f : String} (hf : f ∈ names) :
    Defines doc (addEntries entries d) f := by
  rcases get?_addEntries (bytesOf (fontResourceName f)) entries d with
    ⟨entry, hentry, hkey, hget⟩ | ⟨hnone, -⟩
  · obtain ⟨g, hg, hname, hlead⟩ := h.named entry hentry
    obtain rfl : f = g := hfonts.injective f (hnames hf) g (hnames hg)
      (bytesOf_inj.mp (hkey.symm.trans hname))
    exact ⟨entry.2, hget, hlead⟩
  · obtain ⟨entry, hentry, hname⟩ := h.all f hf
    exact absurd hname (hnone entry hentry)

/-- No other key is written. -/
theorem EntriesFor.valueUnder_eq {entries : Dict α} (h : EntriesFor doc names entries)
    {key : String} (hkey : ∀ f ∈ names, fontResourceName f ≠ key) (d : Dict α) :
    valueUnder key (addEntries entries d) = valueUnder key d := by
  rcases get?_addEntries (bytesOf key) entries d with ⟨entry, hentry, heq, -⟩ | ⟨-, hsame⟩
  · obtain ⟨f, hf, hname, -⟩ := h.named entry hentry
    exact absurd (bytesOf_inj.mp (hname.symm.trans heq)) (hkey f hf)
  · exact hsame

theorem EntriesFor.carries {entries : Dict α} (h : EntriesFor doc names entries)
    (hfonts : ToldApart fonts) (hnames : names ⊆ fonts) (d : Dict α) :
    Carries fonts doc doc d (addEntries entries d) := by
  have hfont : valueUnder "Font" (addEntries entries d) = valueUnder "Font" d :=
    h.valueUnder_eq (fun f hf => hfonts.key f (hnames hf)) d
  refine ⟨fun key hkey => h.valueUnder_eq (fun f _ => fontResourceName_ne_key ?_ f) d, ?_,
    fun f _ hdefines => ?_, fun f hf hdefines => ?_⟩
  · revert key
    decide
  · unfold fontReference
    rw [hfont]
  · unfold inlineFonts
    rwa [hfont]
  · by_cases hname : f ∈ names
    · exact h.defines hfonts hnames d hname
    · unfold Defines
      rwa [h.valueUnder_eq (fun g hg heq => ?_) d]
      exact hname (hfonts.injective g (hnames hg) f hf heq ▸ hg)

theorem getD_of_withFonts {entries d e : Dict α} (h : withFonts entries d = .ok e) :
    (valueUnder "Font" d).getD (.dictionary []) = .dictionary (inlineFonts d) := by
  unfold inlineFonts valueUnder
  unfold withFonts at h
  simp only at h
  cases hfont : Dict.get? (bytesOf "Font") d with
  | none => rfl
  | some o =>
    cases o with
    | dictionary inner => rfl
    | _ =>
      simp only [hfont, Option.getD_some] at h
      cases h

theorem eq_of_withFonts {entries d e : Dict α} (h : withFonts entries d = .ok e) :
    fontReference d = none ∧
      e = Dict.set (bytesOf "Font") (.dictionary (addEntries entries (inlineFonts d))) d := by
  have hfonts := getD_of_withFonts h
  refine ⟨?_, ?_⟩
  · unfold fontReference
    cases hvalue : valueUnder "Font" d with
    | none => rfl
    | some o =>
      obtain rfl : o = .dictionary (inlineFonts d) := by simpa [hvalue] using hfonts
      rfl
  · unfold valueUnder at hfonts
    unfold withFonts at h
    simp only [hfonts] at h
    exact (Except.ok.inj h).symm

/-- Where fonts have come into the resources themselves, a reader finds them. -/
theorem dictOf_withFonts {entries d e : Dict α} (h : withFonts entries d = .ok e)
    (next : Document α) :
    next.dictOf (valueUnder "Font" e) = addEntries entries (inlineFonts d) := by
  obtain ⟨-, rfl⟩ := eq_of_withFonts h
  rw [valueUnder_set_self]
  rfl

theorem EntriesFor.carries_withFonts {entries d e : Dict α} (h : EntriesFor doc names entries)
    (hfonts : ToldApart fonts) (hnames : names ⊆ fonts) (he : withFonts entries d = .ok e) :
    Carries fonts doc doc d e := by
  obtain ⟨hnone, rfl⟩ := eq_of_withFonts he
  have hinner := h.carries hfonts hnames (inlineFonts d)
  refine ⟨fun key hkey => valueUnder_set_of_ne ?_ _ d, ?_, fun f hf hdefines => ?_,
    fun f hf hdefines => ?_⟩
  · rintro rfl
    simp [keptKeys] at hkey
  · rw [hnone, fontReference, valueUnder_set_self]
    rfl
  · rw [inlineFonts, valueUnder_set_self]
    exact hinner.entries f hf hdefines
  · unfold Defines
    rwa [valueUnder_set_of_ne (hfonts.key f hf)]

theorem exists_of_withPageFonts {entries d e : Dict α} (h : withPageFonts entries d = .ok e) :
    ∃ resources filled, (valueUnder "Resources" d).getD (.dictionary []) = .dictionary resources ∧
      withFonts entries resources = .ok filled ∧
      e = Dict.set (bytesOf "Resources") (.dictionary filled) d := by
  unfold withPageFonts at h
  simp only at h
  split at h
  · next resources hresources =>
    cases hfilled : withFonts entries resources with
    | error fault =>
      rw [hfilled] at h
      cases h
    | ok filled =>
      rw [hfilled] at h
      exact ⟨resources, filled, hresources, hfilled, (Except.ok.inj h).symm⟩
  · cases h

theorem carries_withPageFonts {entries d e : Dict α} (h : withPageFonts entries d = .ok e) :
    Carries fonts doc doc d e := by
  obtain ⟨resources, filled, -, -, rfl⟩ := exists_of_withPageFonts h
  exact carries_set (by simp [keptKeys]) (by simp) (by simp) _ d

/-! ## The place of the fonts -/

theorem exists_of_run_changeDict {number : Nat} {f : Dict α → Dict α}
    (hrun : (changeDict number f).run doc = (.ok (), next)) :
    ∃ found d, doc.locate? number = some (found, .dictionary d) ∧
      next = doc.set found (.dictionary (f d)) := by
  unfold changeDict at hrun
  rw [run_bind, run_get] at hrun
  simp only at hrun
  split at hrun
  · next found d hlocate => exact ⟨found, d, hlocate, (congrArg Prod.snd hrun).symm⟩
  · cases hrun
  · cases hrun

theorem exists_of_run_tryChangeDict {number : Nat} {f : Dict α → Except StructureError (Dict α)}
    (hrun : (tryChangeDict number f).run doc = (.ok (), next)) :
    ∃ found d e, doc.locate? number = some (found, .dictionary d) ∧ f d = .ok e ∧
      next = doc.set found (.dictionary e) := by
  unfold tryChangeDict at hrun
  rw [run_bind, run_get] at hrun
  simp only at hrun
  split at hrun
  · next found d hlocate =>
    cases he : f d with
    | error fault =>
      rw [he] at hrun
      cases hrun
    | ok e =>
      rw [he] at hrun
      exact ⟨found, d, e, hlocate, he, (congrArg Prod.snd hrun).symm⟩
  · cases hrun
  · cases hrun

theorem exists_of_run_registerFonts {page : Nat} {entries : Dict α}
    (hrun : (registerFonts page entries).run doc = (.ok (), next)) :
    ∃ place, fontPlace doc page = .ok place ∧ (match place with
      | .object n => changeDict n (addEntries entries)
      | .resources n => tryChangeDict n (withFonts entries)
      | .page => tryChangeDict page (withPageFonts entries)).run doc = (.ok (), next) := by
  unfold registerFonts at hrun
  obtain ⟨_, _, hget, hrun⟩ := exists_of_run_bind hrun
  cases hget
  obtain ⟨place, doc₁, hplace, hrun⟩ := exists_of_run_bind hrun
  cases hfound : fontPlace doc page with
  | error fault =>
    rw [hfound] at hplace
    cases hplace
  | ok found =>
    rw [hfound] at hplace
    cases hplace
    exact ⟨place, rfl, hrun⟩

/-- Where the fonts of a page are kept, and what in its entries says so. -/
theorem fontPlace_cases {page : Nat} {d : Dict α} {place : FontPlace}
    (hd : doc.getDict? page = some d) (hplace : fontPlace doc page = .ok place) :
    (∃ number, place = .object number ∧
      fontReference (doc.dictOf (valueUnder "Resources" d)) = some number) ∨
    (∃ number generation, place = .resources number ∧
      valueUnder "Resources" d = some (.reference number generation)) ∨
    place = .page := by
  rw [fontPlace_eq (getDict?_eq_some.mp hd)] at hplace
  split at hplace
  · next target generation hvalue =>
    cases hresources : doc.getDict target with
    | error fault =>
      rw [hresources] at hplace
      cases hplace
    | ok resources =>
      rw [hresources] at hplace
      have hdict : doc.dictOf (some (.reference target generation)) = resources :=
        congrArg (·.getD []) (getDict?_eq_some.mpr hresources)
      obtain rfl : (fontReference resources).elim (.resources target) .object = place :=
        Except.ok.inj hplace
      cases hreference : fontReference resources with
      | none => exact .inr (.inl ⟨target, generation, rfl, hvalue⟩)
      | some number => exact .inl ⟨number, rfl, by rw [hvalue, hdict, hreference]⟩
  · next resources hvalue =>
    obtain rfl : (fontReference resources).elim .page .object = place := Except.ok.inj hplace
    cases hreference : fontReference resources with
    | none => exact .inr (.inr rfl)
    | some number => exact .inl ⟨number, rfl, by rw [hvalue, ← hreference]; rfl⟩
  · exact .inr (.inr (Except.ok.inj hplace).symm)

theorem Augments.fontReference_dictOf (h : Augments fonts doc next) {o : Option (Obj α)}
    {number : Nat} (hreference : fontReference (doc.dictOf o) = some number) :
    fontReference (next.dictOf o) = some number := by
  have hnil : fontReference ([] : Dict α) = none := rfl
  cases o with
  | none => exact hreference
  | some o =>
    cases o with
    | reference target generation =>
      simp only [Document.dictOf] at hreference ⊢
      rcases h.getDict? target with ⟨d, e, hd, he, hcarries⟩ | ⟨hd, -⟩ | ⟨hd, -⟩
      · rw [hd] at hreference
        rw [he]
        exact hcarries.reference.trans hreference
      · simp [hd, hnil] at hreference
      · simp [hd, hnil] at hreference
    | _ => exact hreference

/-- The reference by which a dictionary was changed leads to what it has become. -/
theorem getDict?_set {number place : Nat} {d e : Dict α}
    (hlocate : doc.locate? number = some (place, .dictionary d))
    (h : Carries fonts doc doc d e) :
    (doc.set place (.dictionary e)).getDict? number = some e := by
  have hd := find?_of_locate? hlocate
  have hlocated : located doc number = some place := by simp [located, hlocate]
  exact getDict?_of_located (((augments_set hd h).located_iff hd).mpr hlocated) (find?_set_self ..)

/-- A registration changes one dictionary, the page's own or the one in which its fonts are kept. It
leaves the contents of the page alone, and the page finds the fonts. -/
structure Registers (fonts names : List String) (doc next : Document α) (page found : Nat)
    (before : Dict α) : Prop where
  augments : Augments fonts doc next
  others : ∀ other o, fontHome doc page ≠ some other → other ≠ found →
    doc.find? other = some o → next.find? other = some o
  page : ∃ after, next.find? found = some (.dictionary after) ∧
    valueUnder "Contents" after = valueUnder "Contents" before ∧
    ∀ f ∈ names, Defines next (next.pageResources "Font" after) f

section Registration

variable {page found : Nat} {before entries : Dict α}

/-- What a change leaves under a key that it does not touch. -/
theorem valueUnder_set_eq {key : String} {place : Nat} {d e after : Dict α}
    (hd : doc.find? place = some (.dictionary d)) (hkey : valueUnder key e = valueUnder key d)
    (hbefore : doc.find? found = some (.dictionary before))
    (hafter : (doc.set place (.dictionary e)).find? found = some (.dictionary after)) :
    valueUnder key after = valueUnder key before := by
  by_cases hplace : found = place
  · subst hplace
    obtain rfl : d = before := by simpa [hd] using hbefore
    obtain rfl : e = after := by simpa using hafter
    exact hkey
  · rw [find?_set_of_ne hplace, hbefore] at hafter
    obtain rfl : before = after := by simpa using hafter
    rfl

/-- One dictionary is changed: the page's own, or the one that its fonts are kept in. -/
theorem registers_set {place : Nat} {d e : Dict α}
    (hbefore : doc.find? found = some (.dictionary before))
    (hd : doc.find? place = some (.dictionary d)) (hcarries : Carries fonts doc doc d e)
    (hcontents : valueUnder "Contents" e = valueUnder "Contents" d)
    (hplace : fontHome doc page = some place ∨ place = found)
    (hdefines : ∀ after,
      (doc.set place (.dictionary e)).find? found = some (.dictionary after) → ∀ f ∈ names,
        Defines (doc.set place (.dictionary e))
          ((doc.set place (.dictionary e)).pageResources "Font" after) f) :
    Registers fonts names doc (doc.set place (.dictionary e)) page found before := by
  have haugments := augments_set hd hcarries
  obtain ⟨after, hafter, -⟩ := haugments.dictionary found before hbefore
  refine ⟨haugments, fun other o hhome hne hfind => ?_, after, hafter,
    valueUnder_set_eq hd hcontents hbefore hafter, hdefines after hafter⟩
  have hother : other ≠ place := by
    rintro rfl
    exact hplace.elim hhome hne
  exact (find?_set_of_ne hother doc _).trans hfind

variable (h : EntriesFor doc names entries) (hfonts : ToldApart fonts) (hnames : names ⊆ fonts)
  (hbefore : doc.find? found = some (.dictionary before))

include h hfonts hnames hbefore

theorem registers_object {number : Nat} (hplace : fontPlace doc page = .ok (.object number))
    (hresources : fontReference (doc.dictOf (valueUnder "Resources" before)) = some number)
    (hrun : (changeDict number (addEntries entries)).run doc = (.ok (), next)) :
    Registers fonts names doc next page found before := by
  obtain ⟨place, d, hlocate, rfl⟩ := exists_of_run_changeDict hrun
  have hd := find?_of_locate? hlocate
  have hhome : fontHome doc page = some place := by
    simp [fontHome_of_place hplace rfl, located, hlocate]
  have hcarries := h.carries hfonts hnames d
  have haugments := augments_set hd hcarries
  have hunwritten {key : String} (hkey : key.toList.head? ≠ some 'F') :
      valueUnder key (addEntries entries d) = valueUnder key d :=
    h.valueUnder_eq (fun f _ => fontResourceName_ne_key hkey f) d
  refine registers_set hbefore hd hcarries (hunwritten (by simp)) (.inl hhome)
    fun after hafter f hf => ?_
  have hvalue : valueUnder "Resources" after = valueUnder "Resources" before :=
    valueUnder_set_eq hd (hunwritten (by simp)) hbefore hafter
  unfold Document.pageResources
  rw [hvalue, dictOf_font, haugments.fontReference_dictOf hresources]
  simp only [getDict?_set hlocate hcarries, Option.getD_some]
  exact (h.augments haugments).defines hfonts hnames d hf

theorem registers_resources {number generation : Nat}
    (hplace : fontPlace doc page = .ok (.resources number))
    (hresources : valueUnder "Resources" before = some (.reference number generation))
    (hrun : (tryChangeDict number (withFonts entries)).run doc = (.ok (), next)) :
    Registers fonts names doc next page found before := by
  obtain ⟨place, d, e, hlocate, he, rfl⟩ := exists_of_run_tryChangeDict hrun
  have hd := find?_of_locate? hlocate
  have hhome : fontHome doc page = some place := by
    simp [fontHome_of_place hplace rfl, located, hlocate]
  have hcarries := h.carries_withFonts hfonts hnames he
  have haugments := augments_set hd hcarries
  have hkept {key : String} (hkey : key ≠ "Font") : valueUnder key e = valueUnder key d := by
    obtain ⟨-, rfl⟩ := eq_of_withFonts he
    exact valueUnder_set_of_ne hkey _ d
  refine registers_set hbefore hd hcarries (hkept (by simp)) (.inl hhome)
    fun after hafter f hf => ?_
  have hvalue : valueUnder "Resources" after = valueUnder "Resources" before :=
    valueUnder_set_eq hd (hkept (by simp)) hbefore hafter
  have hdict : (doc.set place (.dictionary e)).dictOf (some (.reference number generation)) = e :=
    congrArg (·.getD []) (getDict?_set hlocate hcarries)
  unfold Document.pageResources
  rw [hvalue, hresources, hdict, dictOf_withFonts he]
  exact (h.augments haugments).defines hfonts hnames _ hf

theorem registers_page (hpage : located doc page = some found)
    (hrun : (tryChangeDict page (withPageFonts entries)).run doc = (.ok (), next)) :
    Registers fonts names doc next page found before := by
  obtain ⟨place, d, e, hlocate, he, rfl⟩ := exists_of_run_tryChangeDict hrun
  obtain rfl : place = found := by simpa [located, hlocate] using hpage
  have hd := find?_of_locate? hlocate
  have hcarries : Carries fonts doc doc d e := carries_withPageFonts he
  have haugments := augments_set hd hcarries
  obtain ⟨resources, filled, -, hfilled, rfl⟩ := exists_of_withPageFonts he
  refine registers_set hbefore hd hcarries (valueUnder_set_of_ne (by simp) _ d) (.inr rfl)
    fun after hafter f hf => ?_
  obtain rfl : _ = after := by simpa using hafter
  have hdict (next : Document α) : next.dictOf (some (.dictionary filled)) = filled := rfl
  unfold Document.pageResources
  rw [valueUnder_set_self, hdict, dictOf_withFonts hfilled]
  exact (h.augments haugments).defines hfonts hnames _ hf

theorem run_registerFonts (hpage : located doc page = some found)
    (hrun : (registerFonts page entries).run doc = (.ok (), next)) :
    Registers fonts names doc next page found before := by
  obtain ⟨place, hplace, hrun⟩ := exists_of_run_registerFonts hrun
  rcases fontPlace_cases (getDict?_of_located hpage hbefore) hplace with
    ⟨number, rfl, hresources⟩ | ⟨number, generation, rfl, hresources⟩ | rfl
  · exact registers_object h hfonts hnames hbefore hplace hresources hrun
  · exact registers_resources h hfonts hnames hbefore hplace hresources hrun
  · exact registers_page h hfonts hnames hbefore hpage hrun

end Registration

/-! ## One page -/

/-- The page has one more stream, with that content, behind those it had, and it finds those fonts
under their resource names. -/
def Drawn (content : Bytes) (names : List String) (doc next : Document α) (page : Nat) : Prop :=
  ∃ before after stream, doc.getDict? page = some before ∧ next.getDict? page = some after ∧
    oneOrMore (valueUnder "Contents" after) =
      oneOrMore (valueUnder "Contents" before) ++ [.reference stream] ∧
    doc.maxId < stream ∧ next.find? stream = some (.stream [] content) ∧
    ∀ f ∈ names, Defines next (next.pageResources "Font" after) f

/-- What is drawn stays when more is added, if the page stays. -/
theorem Drawn.widen {first : Document α} {content : Bytes} {page : Nat}
    (h : Drawn content names doc next page) (hnames : names ⊆ fonts)
    (hbefore : doc.getDict? page = first.getDict? page) (hmaxId : first.maxId ≤ doc.maxId)
    (hlast : Augments fonts next last) (hafter : last.getDict? page = next.getDict? page) :
    Drawn content names first last page := by
  obtain ⟨before, after, stream, hb, ha, hcontents, hstream, hfind, hdefines⟩ := h
  exact ⟨before, after, stream, hbefore.symm.trans hb, hafter.trans ha, hcontents,
    Nat.lt_of_le_of_lt hmaxId hstream, hlast.other stream _ hfind rfl,
    fun f hf => hlast.defines rfl (hnames hf) (hdefines f hf)⟩

theorem valueUnder_withStream {key : String} (hkey : key ≠ "Contents") (stream : Nat)
    (d : Dict α) : valueUnder key (withStream stream d) = valueUnder key d := by
  unfold withStream
  simp only
  split <;> exact valueUnder_set_of_ne hkey _ d

theorem carries_withStream (stream : Nat) (d : Dict α) :
    Carries fonts doc doc d (withStream stream d) := by
  have hset (value : Obj α) : Carries fonts doc doc d (Dict.set (bytesOf "Contents") value d) :=
    carries_set (by simp [keptKeys]) (by simp) (by simp) value d
  unfold withStream
  simp only
  split <;> exact hset _

/-- A page with one more stream, which is new. -/
structure Covers (fonts : List String) (content : Bytes) (doc next : Document α) (found : Nat)
    (before : Dict α) : Prop where
  augments : Augments fonts doc next
  others : ∀ other o, other ≠ found → doc.find? other = some o → next.find? other = some o
  page : next.find? found = some (.dictionary (withStream (doc.maxId + 1) before))
  stream : next.find? (doc.maxId + 1) = some (.stream [] content)

variable (fonts) in
theorem run_overlayContent_covers {page found : Nat} {before : Dict α} {content : Bytes}
    (hfresh : Fresh doc) (hpage : located doc page = some found)
    (hbefore : doc.find? found = some (.dictionary before))
    (hrun : (overlayContent page content).run doc = (.ok (), next)) :
    Covers fonts content doc next found before := by
  have hadds : Adds fonts doc (doc.add (.stream [] content)).2 :=
    adds_add hfresh (.stream [] content)
  obtain ⟨stream, doc₁, hrunAdd, hrun⟩ := exists_of_run_bind hrun
  cases hrunAdd
  obtain ⟨place, d, hlocate, rfl⟩ := exists_of_run_changeDict hrun
  have hkept := hadds.same found _ hbefore
  have hlocated := locate?_of_located ((hadds.augments.located_iff hbefore).mpr hpage) hkept
  obtain ⟨rfl, rfl⟩ : found = place ∧ before = d := by simpa using hlocated.symm.trans hlocate
  have hnew : doc.maxId + 1 ≠ found := by
    have hle := hfresh _ _ hbefore
    omega
  refine ⟨hadds.augments.trans (augments_set hkept (carries_withStream _ before)),
    fun other o hne hfind => ?_, find?_set_self .., ?_⟩
  · exact (find?_set_of_ne hne _ _).trans (hadds.same other o hfind)
  · exact (find?_set_of_ne hnew _ _).trans (find?_set_self ..)

/-- What one page does to the document: other pages stay unless the fonts are kept there, and the
page itself stays or is drawn on. -/
structure StampedPage (fonts : List String) (content : Bytes) (overlay : Overlay α)
    (doc next : Document α) (page found : Nat) : Prop where
  augments : Augments fonts doc next
  others : ∀ other d, fontHome doc page ≠ some other → other ≠ found →
    doc.find? other = some (.dictionary d) → next.find? other = some (.dictionary d)
  blank : overlay.isEmpty = true → next = doc
  drawn : overlay.isEmpty = false → Drawn content overlay.fonts doc next page

/-- Once the fonts are objects and the page finds them, the stream of the drawing is all that is
missing. -/
theorem run_overlayContent_stamped {overlay : Overlay α} {added registered : Document α}
    {content : Bytes} {page found : Nat} {before : Dict α} (hfresh : Fresh doc)
    (hpage : located doc page = some found) (hbefore : doc.find? found = some (.dictionary before))
    (hempty : overlay.isEmpty = false) (hnames : overlay.fonts ⊆ fonts)
    (hadds : Adds fonts doc added)
    (hregisters : Registers fonts overlay.fonts added registered page found before)
    (hrun : (overlayContent page content).run registered = (.ok (), next)) :
    StampedPage fonts content overlay doc next page found ∧ Augments fonts added next := by
  obtain ⟨middle, hmiddle, hcontents, hdefines⟩ := hregisters.page
  have hlater := hadds.augments.trans hregisters.augments
  have hpage₁ := (hadds.augments.located_iff hbefore).mpr hpage
  have hpage₂ := (hlater.located_iff hbefore).mpr hpage
  have hcovers := run_overlayContent_covers fonts (hlater.fresh hfresh) hpage₂ hmiddle hrun
  have hlast := (hcovers.augments.located_iff hmiddle).mpr hpage₂
  have hold := getDict?_of_located hpage hbefore
  refine ⟨⟨hlater.trans hcovers.augments, fun other c hhome hne hfind => ?_,
    fun h => by simp [hempty] at h, fun _ => ?_⟩, hregisters.augments.trans hcovers.augments⟩
  · have hhome₁ := hadds.augments.fontHome_ne hold
      (getDict?_of_located hpage₁ (hadds.same found _ hbefore)) hfind hhome
    exact hcovers.others other _ hne
      (hregisters.others other _ hhome₁ hne (hadds.same other _ hfind))
  · refine ⟨before, _, _, hold, getDict?_of_located hlast hcovers.page, ?_,
      Nat.lt_succ_of_le hlater.maxId, hcovers.stream, fun f hf => ?_⟩
    · rw [oneOrMore_withStream, hcontents]
    · exact hcovers.augments.defines (valueUnder_withStream (by simp) _ middle) (hnames hf)
        (hdefines f hf)

theorem run_stampPage_adds {encode : Overlay α → Bytes} {stamp : Stamp α}
    {table table' : FontTable} {box : PageBox α} {page found : Nat} {before : Dict α}
    (hfresh : Fresh doc) (hknown : Known doc table) (hfonts : ToldApart fonts)
    (hnames : (stamp box).fonts ⊆ fonts) (hpage : located doc page = some found)
    (hbefore : doc.find? found = some (.dictionary before))
    (hrun : (stampPage encode stamp table box page).run doc = (.ok table', next)) :
    StampedPage fonts (encode (stamp box)) (stamp box) doc next page found ∧
      Known next table' := by
  unfold stampPage at hrun
  cases hempty : (stamp box).isEmpty with
  | true =>
    simp only [hempty, ↓reduceIte, run_pure] at hrun
    obtain ⟨hok, rfl⟩ := Prod.mk.inj hrun
    obtain rfl := Except.ok.inj hok
    exact ⟨⟨.refl doc, fun _ _ _ _ => id, fun _ => rfl, fun h => by simp [hempty] at h⟩, hknown⟩
  | false =>
    simp only [hempty, Bool.false_eq_true, ↓reduceIte] at hrun
    obtain ⟨⟨entries, table₁⟩, added, hregistrations, hrun⟩ := exists_of_run_bind hrun
    obtain ⟨_, registered, hregister, hrun⟩ := exists_of_run_bind hrun
    obtain ⟨_, stamped, hcontent, hrun⟩ := exists_of_run_bind hrun
    obtain ⟨hok, rfl⟩ := Prod.mk.inj hrun
    obtain rfl := Except.ok.inj hok
    obtain ⟨hadds, hknown₁, hentries⟩ := run_registrations fonts hfresh hknown hregistrations
    -- where the page is found, and what it holds, is as it was before the fonts were added
    have hregisters := run_registerFonts hentries hfonts hnames (hadds.same found _ hbefore)
      ((hadds.augments.located_iff hbefore).mpr hpage) hregister
    obtain ⟨hstamped, hlater⟩ := run_overlayContent_stamped hfresh hpage hbefore hempty hnames
      hadds hregisters hcontent
    exact ⟨hstamped, hknown₁.augments hlater⟩

end Folio.Pdf
