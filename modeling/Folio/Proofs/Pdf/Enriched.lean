import Folio.Proofs.Pdf.Adding

/-!
# What comes into dictionaries

Stamping writes into few places: into the fonts of the pages that are drawn on, which stand in the
resources of a page or by themselves, and into these pages, which get their contents and, if they
have none, resources of their own. So what stands in a dictionary afterwards is known key by key,
whatever parts the dictionary plays in the document.
-/
namespace Folio.Pdf

open Document Flow

variable {α : Type} {doc next last : Document α} {used more : List String} {places : List Nat}

/-! ## Dictionaries that grow -/

/-- What stands under a key afterwards: what stood there, or a new entry. -/
def EntryGrown (entry : Obj α → Prop) (before after : Option (Obj α)) : Prop :=
  after = before ∨ ∃ o, after = some o ∧ entry o

/-- What stands in the place of a dictionary stays; or a dictionary grows there, perhaps from
nothing. -/
def ValueGrown (grown : Dict α → Dict α → Prop) (before after : Option (Obj α)) : Prop :=
  after = before ∨
    ∃ d e, before.getD (.dictionary []) = .dictionary d ∧ after = some (.dictionary e) ∧ grown d e

theorem EntryGrown.trans {entry : Obj α → Prop} {a b c : Option (Obj α)}
    (h : EntryGrown entry a b) (k : EntryGrown entry b c) : EntryGrown entry a c := by
  rcases k with rfl | hnew
  · exact h
  · exact .inr hnew

theorem EntryGrown.mono {entry other : Obj α → Prop} {a b : Option (Obj α)}
    (h : EntryGrown entry a b) (hentry : ∀ o, entry o → other o) : EntryGrown other a b :=
  h.imp_right fun ⟨o, ho, hnew⟩ => ⟨o, ho, hentry o hnew⟩

theorem EntryGrown.eq {entry : Obj α → Prop} {a b : Option (Obj α)} (h : EntryGrown entry a b)
    (hnone : ∀ o, ¬ entry o) : b = a :=
  h.resolve_right fun ⟨o, _, hnew⟩ => hnone o hnew

theorem ValueGrown.trans {grown : Dict α → Dict α → Prop}
    (htrans : ∀ {d e f}, grown d e → grown e f → grown d f) {a b c : Option (Obj α)}
    (h : ValueGrown grown a b) (k : ValueGrown grown b c) : ValueGrown grown a c := by
  rcases k with rfl | ⟨e, f, he, rfl, hef⟩
  · exact h
  · rcases h with rfl | ⟨d, e', hd, rfl, hde⟩
    · exact .inr ⟨e, f, he, rfl, hef⟩
    · obtain rfl : e' = e := by simpa using he
      exact .inr ⟨d, f, hd, rfl, htrans hde hef⟩

theorem ValueGrown.mono {grown other : Dict α → Dict α → Prop} {a b : Option (Obj α)}
    (h : ValueGrown grown a b) (hgrown : ∀ {d e}, grown d e → other d e) : ValueGrown other a b :=
  h.imp_right fun ⟨d, e, hd, he, hde⟩ => ⟨d, e, hd, he, hgrown hde⟩

/-- Nothing is taken away. -/
theorem ValueGrown.isSome {grown : Dict α → Dict α → Prop} {a b : Option (Obj α)}
    (h : ValueGrown grown a b) (hsome : a.isSome) : b.isSome := by
  rcases h with rfl | ⟨-, e, -, rfl, -⟩
  · exact hsome
  · rfl

section Growth

variable (entry : Bytes → Obj α → Prop)

/-- Fonts among which there are new entries. -/
def FontsGrown (d e : Dict α) : Prop :=
  ∀ key, EntryGrown (entry key) (Dict.get? key d) (Dict.get? key e)

/-- Resources whose fonts have grown. -/
structure ResourcesGrown (d e : Dict α) : Prop where
  font : ValueGrown (FontsGrown entry) (valueUnder "Font" d) (valueUnder "Font" e)
  other : ∀ key, key ≠ bytesOf "Font" →
    EntryGrown (entry key) (Dict.get? key d) (Dict.get? key e)

/-- A page with other contents, whose resources have grown. -/
structure PageGrown (d e : Dict α) : Prop where
  resources : ValueGrown (ResourcesGrown entry) (valueUnder "Resources" d)
    (valueUnder "Resources" e)
  font : ValueGrown (FontsGrown entry) (valueUnder "Font" d) (valueUnder "Font" e)
  other : ∀ key, key ∉ ["Contents", "Font", "Resources"].map bytesOf →
    EntryGrown (entry key) (Dict.get? key d) (Dict.get? key e)

end Growth

variable {entry other : Bytes → Obj α → Prop} {d e f : Dict α}

theorem FontsGrown.refl (d : Dict α) : FontsGrown entry d d := fun _ => .inl rfl

theorem FontsGrown.trans (h : FontsGrown entry d e) (k : FontsGrown entry e f) :
    FontsGrown entry d f := fun key => (h key).trans (k key)

theorem FontsGrown.mono (h : FontsGrown entry d e) (hentry : ∀ key o, entry key o → other key o) :
    FontsGrown other d e := fun key => (h key).mono (hentry key)

/-- No key of the resources of a page is the key of a new entry, so a dictionary of fonts that grows
has grown whatever else it is used for. -/
theorem FontsGrown.resources (h : FontsGrown entry d e) (hfont : ∀ o, ¬ entry (bytesOf "Font") o) :
    ResourcesGrown entry d e :=
  ⟨.inl ((h _).eq hfont), fun key _ => h key⟩

namespace ResourcesGrown

theorem refl (d : Dict α) : ResourcesGrown entry d d := ⟨.inl rfl, fun _ _ => .inl rfl⟩

theorem trans (h : ResourcesGrown entry d e) (k : ResourcesGrown entry e f) :
    ResourcesGrown entry d f :=
  ⟨h.font.trans FontsGrown.trans k.font,
    fun key hkey => (h.other key hkey).trans (k.other key hkey)⟩

theorem mono (h : ResourcesGrown entry d e) (hentry : ∀ key o, entry key o → other key o) :
    ResourcesGrown other d e :=
  ⟨h.font.mono fun hde => hde.mono hentry, fun key hkey => (h.other key hkey).mono (hentry key)⟩

theorem page (h : ResourcesGrown entry d e) (hresources : ∀ o, ¬ entry (bytesOf "Resources") o) :
    PageGrown entry d e where
  resources := .inl ((h.other _ fun heq => by simpa using bytesOf_inj.mp heq).eq hresources)
  font := h.font
  other key hkey := h.other key fun heq => hkey (by simp [heq])

end ResourcesGrown

namespace PageGrown

theorem trans (h : PageGrown entry d e) (k : PageGrown entry e f) : PageGrown entry d f :=
  ⟨h.resources.trans ResourcesGrown.trans k.resources, h.font.trans FontsGrown.trans k.font,
    fun key hkey => (h.other key hkey).trans (k.other key hkey)⟩

theorem mono (h : PageGrown entry d e) (hentry : ∀ key o, entry key o → other key o) :
    PageGrown other d e :=
  ⟨h.resources.mono fun hde => hde.mono hentry, h.font.mono fun hde => hde.mono hentry,
    fun key hkey => (h.other key hkey).mono (hentry key)⟩

end PageGrown

/-! ## The entries of drawings -/

/-- A font that is drawn in, under its resource name. -/
def IsEntry (doc : Document α) (used : List String) (key : Bytes) (o : Obj α) : Prop :=
  ∃ f ∈ used, key = bytesOf (fontResourceName f) ∧ LeadsToFont doc o f

theorem IsEntry.extends {key : Bytes} {o : Obj α} (h : IsEntry doc used key o)
    (hnext : Extends keptKeys doc next) (hmore : used ⊆ more) : IsEntry next more key o := by
  obtain ⟨f, hf, hkey, hlead⟩ := h
  exact ⟨f, hmore hf, hkey, hlead.extends hnext⟩

theorem not_isEntry {key : String} (hkey : key.toList.head? ≠ some 'F') (o : Obj α) :
    ¬ IsEntry doc used (bytesOf key) o := by
  rintro ⟨f, -, heq, -⟩
  exact fontResourceName_ne_of_initial hkey f heq

/-- No font that is drawn in bears the name under which resources keep their fonts. -/
def SparesFonts (used : List String) : Prop := ∀ f ∈ used, fontResourceName f ≠ "Font"

theorem SparesFonts.not_isEntry (h : SparesFonts used) (o : Obj α) :
    ¬ IsEntry doc used (bytesOf "Font") o := by
  rintro ⟨f, hf, heq, -⟩
  exact h f hf (bytesOf_inj.mp heq).symm

theorem PageGrown.agree (h : PageGrown (IsEntry doc used) d e) : AgreeOn keptKeys d e := by
  intro key hkey
  have hinitial : key.toList.head? ≠ some 'F' := by
    revert key
    decide
  refine (h.other (bytesOf key) fun hmem => ?_).eq (not_isEntry hinitial)
  obtain ⟨other, hother, heq⟩ := List.mem_map.mp hmem
  obtain rfl := bytesOf_inj.mp heq
  revert hkey
  simp only [List.mem_cons, List.not_mem_nil, or_false] at hother
  rcases hother with rfl | rfl | rfl <;> simp [keptKeys]

/-! ## Documents that grow -/

/-- All that has changed since: fonts and resources have grown, and at the places also the pages
that stand there. -/
structure Enriched (used : List String) (places : List Nat) (doc next : Document α) : Prop where
  kept : Extends keptKeys doc next
  dictionary : ∀ number d, doc.find? number = some (.dictionary d) →
    ∃ e, next.find? number = some (.dictionary e) ∧ PageGrown (IsEntry next used) d e ∧
      (number ∉ places → ResourcesGrown (IsEntry next used) d e)
  other : ∀ number o, doc.find? number = some o → o.asDict? = none → next.find? number = some o

namespace Enriched

theorem mono (h : Enriched used places doc next) {wide : List Nat} (hused : used ⊆ more)
    (hplaces : places ⊆ wide) : Enriched more wide doc next where
  kept := h.kept
  dictionary number d hfind := by
    obtain ⟨e, he, hpage, hresources⟩ := h.dictionary number d hfind
    have hentry (key : Bytes) (o : Obj α) (ho : IsEntry next used key o) :
        IsEntry next more key o := ho.extends (.refl next) hused
    exact ⟨e, he, hpage.mono hentry, fun hnot => (hresources fun hin => hnot (hplaces hin)).mono
      hentry⟩
  other := h.other

theorem trans (h : Enriched used places doc next) (k : Enriched used places next last) :
    Enriched used places doc last where
  kept := h.kept.trans k.kept
  dictionary number d hfind := by
    obtain ⟨e, he, hpage, hresources⟩ := h.dictionary number d hfind
    obtain ⟨f, hf, hpage', hresources'⟩ := k.dictionary number e he
    have hentry (key : Bytes) (o : Obj α) (ho : IsEntry next used key o) :
        IsEntry last used key o := ho.extends k.kept (List.Subset.refl _)
    exact ⟨f, hf, (hpage.mono hentry).trans hpage',
      fun hnot => ((hresources hnot).mono hentry).trans (hresources' hnot)⟩
  other number o hfind hnone := k.other number o (h.other number o hfind hnone) hnone

/-- One dictionary grows, and all other objects stay. -/
theorem of_change {place : Nat} (hbefore : doc.find? place = some (.dictionary d))
    (hafter : next.find? place = some (.dictionary e))
    (hothers : ∀ number o, number ≠ place → doc.find? number = some o →
      next.find? number = some o)
    (hextends : Extends keptKeys doc next) (hpage : PageGrown (IsEntry next used) d e)
    (hresources : place ∉ places → ResourcesGrown (IsEntry next used) d e) :
    Enriched used places doc next where
  kept := hextends
  dictionary number c hfind := by
    by_cases hnumber : number = place
    · subst hnumber
      obtain rfl : d = c := by simpa [hbefore] using hfind
      exact ⟨e, hafter, hpage, hresources⟩
    · have hrefl : ResourcesGrown (IsEntry next used) c c := .refl c
      exact ⟨c, hothers number _ hnumber hfind, hrefl.page (not_isEntry (by simp)), fun _ => hrefl⟩
  other number o hfind hnone := by
    refine hothers number o ?_ hfind
    rintro rfl
    obtain rfl : .dictionary d = o := by simpa [hbefore] using hfind
    cases hnone

theorem of_adds {fonts : List String} (h : Adds fonts doc next) :
    Enriched used places doc next where
  kept := h.augments.extends
  dictionary number d hfind := by
    have hrefl : ResourcesGrown (IsEntry next used) d d := .refl d
    exact ⟨d, h.same _ _ hfind, hrefl.page (not_isEntry (by simp)), fun _ => hrefl⟩
  other number o hfind _ := h.same number o hfind

theorem refl (doc : Document α) : Enriched used places doc doc :=
  have hadds : Adds [] doc doc := .refl doc
  of_adds hadds

theorem of_set {place : Nat} (hbefore : doc.find? place = some (.dictionary d))
    (hpage : PageGrown (IsEntry doc used) d e)
    (hresources : place ∉ places → ResourcesGrown (IsEntry doc used) d e) :
    Enriched used places doc (doc.set place (.dictionary e)) := by
  have hextends : Extends keptKeys doc (doc.set place (.dictionary e)) :=
    extends_set hbefore hpage.agree
  have hentry (key : Bytes) (o : Obj α) (ho : IsEntry doc used key o) :
      IsEntry (doc.set place (.dictionary e)) used key o :=
    ho.extends hextends (List.Subset.refl _)
  exact of_change hbefore (find?_set_self ..)
    (fun number o hne hfind => (find?_set_of_ne hne doc _).trans hfind) hextends
    (hpage.mono hentry) fun hnot => (hresources hnot).mono hentry

theorem of_set_resources {place : Nat} (hbefore : doc.find? place = some (.dictionary d))
    (h : ResourcesGrown (IsEntry doc used) d e) :
    Enriched used places doc (doc.set place (.dictionary e)) :=
  of_set hbefore (h.page (not_isEntry (by simp))) fun _ => h

/-- A chain of references that led somewhere leads there still. -/
theorem follow (h : Enriched used places doc next) {fuel number found : Nat} {o p : Obj α}
    (hfollow : doc.follow fuel number = some (found, o)) (hfind : next.find? found = some p)
    (hreference : p.asReference? = none) : next.follow fuel number = some (found, p) := by
  induction fuel generalizing number with
  | zero => cases hfollow
  | succ fuel ih =>
    unfold Document.follow at hfollow
    split at hfollow
    · next target generation hstep =>
      rw [follow_of_reference (h.other number _ hstep rfl)]
      exact ih hfollow
    · obtain ⟨rfl, -⟩ := Prod.mk.inj (Option.some.inj hfollow)
      exact follow_of_find? hfind hreference fuel
    · cases hfollow

theorem located (h : Enriched used places doc next) {number place : Nat}
    (hlocated : Pdf.located doc number = some place)
    (hd : doc.find? place = some (.dictionary d)) : Pdf.located next number = some place := by
  obtain ⟨e, he, -⟩ := h.dictionary place d hd
  have hfollow := h.follow (locate?_of_located hlocated hd) he rfl
  exact congrArg (Option.map (·.1)) hfollow

/-- A dictionary that is reached is the one that was reached, grown. -/
theorem getDict? (h : Enriched used places doc next) {number : Nat}
    (hd : doc.getDict? number = some d) : ∃ place e, Pdf.located doc number = some place ∧
      next.getDict? number = some e ∧ PageGrown (IsEntry next used) d e ∧
        (place ∉ places → ResourcesGrown (IsEntry next used) d e) := by
  obtain ⟨place, hplace, hfind⟩ := exists_located hd
  obtain ⟨e, he, hgrown⟩ := h.dictionary place d hfind
  exact ⟨place, e, hplace, getDict?_of_located (h.located hplace hfind) he, hgrown⟩

end Enriched

/-! ## One page -/

theorem EntriesFor.grown {entries : Dict α} (h : EntriesFor doc used entries) (d : Dict α) :
    FontsGrown (IsEntry doc used) d (addEntries entries d) := by
  intro key
  rcases get?_addEntries key entries d with ⟨entry, hentry, rfl, hget⟩ | ⟨-, hsame⟩
  · obtain ⟨f, hf, hname, hlead⟩ := h.named entry hentry
    exact .inr ⟨entry.2, hget, f, hf, hname, hlead⟩
  · exact .inl hsame

theorem EntriesFor.grown_withFonts {entries : Dict α} (h : EntriesFor doc used entries)
    (he : withFonts entries d = .ok e) : ResourcesGrown (IsEntry doc used) d e := by
  have hfonts := getD_of_withFonts he
  obtain ⟨-, rfl⟩ := eq_of_withFonts he
  refine ⟨.inr ⟨_, _, hfonts, valueUnder_set_self .., h.grown _⟩, fun key hkey => .inl ?_⟩
  exact Dict.get?_set_of_ne hkey _ d

theorem EntriesFor.grown_withPageFonts {entries : Dict α} (h : EntriesFor doc used entries)
    (he : withPageFonts entries d = .ok e) : PageGrown (IsEntry doc used) d e := by
  obtain ⟨resources, filled, hresources, hfilled, rfl⟩ := exists_of_withPageFonts he
  have hne {key : String} (hkey : key ≠ "Resources") : bytesOf key ≠ bytesOf "Resources" :=
    fun heq => hkey (bytesOf_inj.mp heq)
  refine ⟨.inr ⟨_, _, hresources, valueUnder_set_self .., h.grown_withFonts hfilled⟩,
    .inl (Dict.get?_set_of_ne (hne (by simp)) _ d), fun key hkey => .inl ?_⟩
  exact Dict.get?_set_of_ne (fun heq => hkey (by simp [heq])) _ d

theorem grown_withStream (entry : Bytes → Obj α → Prop) (stream : Nat) (d : Dict α) :
    PageGrown entry d (withStream stream d) := by
  have hkept (key : Bytes) (hkey : key ≠ bytesOf "Contents") :
      Dict.get? key (withStream stream d) = Dict.get? key d := by
    unfold withStream
    simp only
    split <;> exact Dict.get?_set_of_ne hkey _ d
  have hne {key : String} (hkey : key ≠ "Contents") : bytesOf key ≠ bytesOf "Contents" :=
    fun heq => hkey (bytesOf_inj.mp heq)
  exact ⟨.inl (hkept _ (hne (by simp))), .inl (hkept _ (hne (by simp))),
    fun key hkey => .inl (hkept key fun heq => hkey (by simp [heq]))⟩

/-- The page that stands there has resources of its own. -/
def OwnsResources (doc : Document α) (place : Nat) : Prop :=
  ∃ d, doc.find? place = some (.dictionary d) ∧ (valueUnder "Resources" d).isSome

theorem OwnsResources.enriched {place : Nat} (h : OwnsResources doc place)
    (hnext : Enriched used places doc next) : OwnsResources next place := by
  obtain ⟨d, hd, howns⟩ := h
  obtain ⟨e, he, hgrown, -⟩ := hnext.dictionary place d hd
  exact ⟨e, he, hgrown.resources.isSome howns⟩

/-- What a drawing does to a document: the fonts it uses come into the resources of the page that
stands there, and into no others but those that it shares. -/
structure Furnishes (used : List String) (place : Nat) (doc next : Document α) : Prop where
  enriched : Enriched used [place] doc next
  owned : OwnsResources next place

theorem run_registerFonts_furnishes {entries : Dict α} {page place : Nat}
    (h : EntriesFor doc used entries) (hspares : SparesFonts used)
    (hpage : located doc page = some place) (hd : doc.find? place = some (.dictionary d))
    (hrun : (registerFonts page entries).run doc = (.ok (), next)) :
    Furnishes used place doc next := by
  have hown (henriched : Enriched used [place] doc next)
      (hsome : (valueUnder "Resources" d).isSome) : Furnishes used place doc next :=
    ⟨henriched, OwnsResources.enriched ⟨d, hd, hsome⟩ henriched⟩
  obtain ⟨fontPlace, hplace, hrun⟩ := exists_of_run_registerFonts hrun
  rcases fontPlace_cases (getDict?_of_located hpage hd) hplace with
    ⟨number, rfl, hresources⟩ | ⟨number, generation, rfl, hresources⟩ | rfl
  · obtain ⟨found, c, hlocate, rfl⟩ := exists_of_run_changeDict hrun
    refine hown (.of_set_resources (find?_of_locate? hlocate)
      ((h.grown c).resources hspares.not_isEntry)) ?_
    cases hvalue : valueUnder "Resources" d with
    | none =>
      rw [hvalue] at hresources
      cases hresources
    | some o => rfl
  · obtain ⟨found, c, e, hlocate, he, rfl⟩ := exists_of_run_tryChangeDict hrun
    exact hown (.of_set_resources (find?_of_locate? hlocate) (h.grown_withFonts he))
      (by simp [hresources])
  · obtain ⟨found, c, e, hlocate, he, rfl⟩ := exists_of_run_tryChangeDict hrun
    obtain rfl : found = place := by simpa [Pdf.located, hlocate] using hpage
    have hfind := find?_of_locate? hlocate
    refine ⟨.of_set hfind (h.grown_withPageFonts he) fun hnot => absurd (by simp) hnot,
      e, find?_set_self .., ?_⟩
    obtain ⟨-, filled, -, -, rfl⟩ := exists_of_withPageFonts he
    simp

theorem Covers.enriched {content : Bytes} {place : Nat} (h : Covers [] content doc next place d)
    (hd : doc.find? place = some (.dictionary d)) : Enriched used [place] doc next :=
  .of_change hd h.page (fun number o hne => h.others number o hne) h.augments.extends
    (grown_withStream _ _ d) fun hnot => absurd (by simp) hnot

/-! ## All pages -/

/-- The pages on which something is drawn, out of pages with what the callback is told of them. -/
def drawnOn (stamp : Stamp α) (entries : List (Nat × PageBox α)) : List (Nat × PageBox α) :=
  entries.filter fun entry => !(stamp entry.2).isEmpty

/-- The fonts of all that is drawn. -/
def fontsOn (stamp : Stamp α) (entries : List (Nat × PageBox α)) : List String :=
  (drawnOn stamp entries).flatMap fun entry => (stamp entry.2).fonts

/-- Where the pages stand on which something is drawn. -/
def placesOn (stamp : Stamp α) (doc : Document α) (entries : List (Nat × PageBox α)) : List Nat :=
  (drawnOn stamp entries).filterMap fun entry => located doc entry.1

/-- What the drawings on some pages do to a document. -/
structure FurnishesAll (stamp : Stamp α) (entries : List (Nat × PageBox α))
    (doc next : Document α) : Prop where
  enriched : Enriched (fontsOn stamp entries) (placesOn stamp doc entries) doc next
  owned : ∀ place ∈ placesOn stamp doc entries, OwnsResources next place

section

variable {stamp : Stamp α} {entries rest : List (Nat × PageBox α)}

theorem placesOn_congr (h : ∀ entry ∈ entries, located next entry.1 = located doc entry.1) :
    placesOn stamp next entries = placesOn stamp doc entries :=
  List.filterMap_congr fun entry hentry => h entry (List.mem_of_mem_filter hentry)

theorem FurnishesAll.append (h : FurnishesAll stamp entries doc next)
    (k : FurnishesAll stamp rest next last)
    (hpages : ∀ entry ∈ rest, ∃ d, doc.getDict? entry.1 = some d) :
    FurnishesAll stamp (entries ++ rest) doc last := by
  have hplaces : placesOn stamp next rest = placesOn stamp doc rest := by
    refine placesOn_congr fun entry hentry => ?_
    obtain ⟨d, hd⟩ := hpages entry hentry
    obtain ⟨place, hplace, hfind⟩ := exists_located hd
    rw [hplace, h.enriched.located hplace hfind]
  have hfonts : fontsOn stamp (entries ++ rest) = fontsOn stamp entries ++ fontsOn stamp rest := by
    simp [fontsOn, drawnOn]
  have hboth : placesOn stamp doc (entries ++ rest) =
      placesOn stamp doc entries ++ placesOn stamp doc rest := by
    simp [placesOn, drawnOn]
  have hlater := k.enriched
  have howned := k.owned
  rw [hplaces] at hlater howned
  refine ⟨?_, fun place hplace => ?_⟩
  · rw [hfonts, hboth]
    exact (h.enriched.mono (List.subset_append_left ..) (List.subset_append_left ..)).trans
      (hlater.mono (List.subset_append_right ..) (List.subset_append_right ..))
  · rw [hboth] at hplace
    rcases List.mem_append.mp hplace with hplace | hplace
    · exact (h.owned place hplace).enriched hlater
    · exact howned place hplace

variable {encode : Overlay α → Bytes} {table table' : FontTable}

theorem run_stampPage_furnishes {box : PageBox α} {page : Nat} (hfresh : Fresh doc)
    (hknown : Known doc table) (hspares : SparesFonts (stamp box).fonts)
    (hpage : doc.getDict? page = some d)
    (hrun : (stampPage encode stamp table box page).run doc = (.ok table', next)) :
    Known next table' ∧ FurnishesAll stamp [(page, box)] doc next := by
  unfold stampPage at hrun
  cases hempty : (stamp box).isEmpty with
  | true =>
    simp only [hempty, ↓reduceIte, run_pure] at hrun
    obtain ⟨hok, rfl⟩ := Prod.mk.inj hrun
    obtain rfl := Except.ok.inj hok
    have hnone : placesOn stamp doc [(page, box)] = [] := by simp [placesOn, drawnOn, hempty]
    exact ⟨hknown, .refl doc, by simp [hnone]⟩
  | false =>
    simp only [hempty, Bool.false_eq_true, ↓reduceIte] at hrun
    obtain ⟨⟨entries, table₁⟩, added, hregistrations, hrun⟩ := exists_of_run_bind hrun
    obtain ⟨_, registered, hregister, hrun⟩ := exists_of_run_bind hrun
    obtain ⟨_, stamped, hcontent, hrun⟩ := exists_of_run_bind hrun
    obtain ⟨hok, rfl⟩ := Prod.mk.inj hrun
    obtain rfl := Except.ok.inj hok
    obtain ⟨place, hplace, hd⟩ := exists_located hpage
    have hfonts : fontsOn stamp [(page, box)] = (stamp box).fonts := by
      simp [fontsOn, drawnOn, hempty]
    have hplaces : placesOn stamp doc [(page, box)] = [place] := by
      simp [placesOn, drawnOn, hempty, hplace]
    obtain ⟨hadds, hknown₁, hentries⟩ := run_registrations [] hfresh hknown hregistrations
    have hadded : Enriched (stamp box).fonts [place] doc added := .of_adds hadds
    have hplace₁ := hadded.located hplace hd
    have hd₁ := hadds.same place _ hd
    have hfurnishes := run_registerFonts_furnishes hentries hspares hplace₁ hd₁ hregister
    obtain ⟨e, he, -⟩ := hfurnishes.enriched.dictionary place d hd₁
    -- the stream of the drawing is added last, when the fonts are there
    have hcovers := run_overlayContent_covers []
      (hfurnishes.enriched.kept.below (hadded.kept.below hfresh))
      (hfurnishes.enriched.located hplace₁ hd₁) he hcontent
    have hcovered : Enriched (stamp box).fonts [place] registered stamped := hcovers.enriched he
    have hlater := hfurnishes.enriched.trans hcovered
    refine ⟨hknown₁.extends hlater.kept, ?_, ?_⟩
    · rw [hfonts, hplaces]
      exact hadded.trans hlater
    · rw [hplaces, List.forall_mem_singleton]
      exact hfurnishes.owned.enriched hcovered

variable [Scalar α]

/-- The first page is drawn on, and then the rest. -/
theorem exists_of_run_stampFrom_cons {total page number : Nat} {pages : List Nat}
    {s t : Stamping α}
    (hrun : (stampFrom encode stamp total table number (page :: pages)).run s = (.ok (), t)) :
    ∃ box table' next, (stampPage encode stamp table box page).run s.doc = (.ok table', next) ∧
      (stampFrom encode stamp total table' (number + 1) pages).run
        ⟨next, s.visited ++ [box]⟩ = (.ok (), t) := by
  unfold stampFrom at hrun
  rcases hbox : mediaBox s.doc page with ⟨width, height⟩
  simp only [run_bind, run_get, run_modify, hbox] at hrun
  split at hrun
  · next table' u hpage =>
    rw [run_onDocument] at hpage
    obtain ⟨hok, rfl⟩ := Prod.mk.inj hpage
    exact ⟨⟨number, total, width, height⟩, table', _, Prod.ext hok rfl, hrun⟩
  · cases hrun

theorem run_stampFrom_furnishes (hspares : ∀ box, SparesFonts (stamp box).fonts) {total : Nat}
    (pages : List Nat) : ∀ {table : FontTable} {number : Nat} {s t : Stamping α}, Fresh s.doc →
      Known s.doc table → (∀ page ∈ pages, ∃ d, s.doc.getDict? page = some d) →
      (stampFrom encode stamp total table number pages).run s = (.ok (), t) →
      ∃ boxes, t.visited = s.visited ++ boxes ∧ boxes.length = pages.length ∧
        FurnishesAll stamp (pages.zip boxes) s.doc t.doc := by
  induction pages with
  | nil =>
    intro table number s t _ _ _ hrun
    obtain rfl : s = t := congrArg Prod.snd hrun
    exact ⟨[], by simp, rfl, .refl s.doc, nofun⟩
  | cons page pages ih =>
    intro table number s t hfresh hknown hpages hrun
    obtain ⟨⟨d, hd⟩, hpages⟩ := List.forall_mem_cons.mp hpages
    obtain ⟨box, table', next, hpage, hrun⟩ := exists_of_run_stampFrom_cons hrun
    obtain ⟨hknown', hfirst⟩ := run_stampPage_furnishes hfresh hknown (hspares box) hd hpage
    have hstill (other : Nat) (hother : other ∈ pages) : ∃ e, next.getDict? other = some e := by
      obtain ⟨c, hc⟩ := hpages other hother
      obtain ⟨-, e, -, he, -⟩ := hfirst.enriched.getDict? hc
      exact ⟨e, he⟩
    obtain ⟨boxes, hvisited, hlength, hrest⟩ := ih (s := ⟨next, s.visited ++ [box]⟩)
      (hfirst.enriched.kept.below hfresh) hknown' hstill hrun
    refine ⟨box :: boxes, by simp [hvisited], by simp [hlength], ?_⟩
    exact hfirst.append hrest fun entry hentry => hpages _ (List.of_mem_zip hentry).1

/-- The callback is told of every page, and the drawings are all that the document gets. -/
theorem run_stampPages_furnishes (hspares : ∀ box, SparesFonts (stamp box).fonts)
    (hfresh : Fresh doc) {t : Stamping α}
    (hrun : (stampPages encode stamp).run ⟨doc, []⟩ = (.ok (), t)) :
    t.visited.length = doc.pages.length ∧
      FurnishesAll stamp (doc.pages.zip t.visited) doc t.doc := by
  unfold stampPages at hrun
  simp only [run_bind, run_get] at hrun
  obtain ⟨boxes, hvisited, hlength, hfurnishes⟩ := run_stampFrom_furnishes hspares doc.pages
    (s := ⟨doc, []⟩) hfresh (by simp [Known]) (fun _ => exists_getDict?_of_mem_pages) hrun
  obtain rfl : t.visited = boxes := by simpa using hvisited
  exact ⟨hlength, hfurnishes⟩

end

end Folio.Pdf
