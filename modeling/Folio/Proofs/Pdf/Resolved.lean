import Folio.Proofs.Pdf.Enriched
import Folio.Proofs.Pdf.OnlyAdds

/-!
# The resources that pages had

A page takes its resources from its own dictionary, or from the node above it if it has none there.
Drawing on it adds to the resources it has, and gives it resources of its own if it has none, which
come before those from above. So the resources of a page are there afterwards, unless the page is
one that is drawn on and had them from above: then it has the fonts of the drawing instead.
-/
namespace Folio.Pdf

open Document Flow

variable {α : Type} {doc next : Document α} {used : List String} {places : List Nat}
  {d e : Dict α} {levels node : Nat} {kind : String} {name : Bytes}

/-! ## Resources of the nodes of a page tree -/

namespace Document

/-- The resources that a node names itself. -/
def ownResources (doc : Document α) (node : Nat) : Option (Obj α) :=
  (doc.getDict? node).bind (valueUnder "Resources")

/-- The node above. -/
def parentOf (doc : Document α) (node : Nat) : Option Nat :=
  ((doc.getDict? node).bind (valueUnder "Parent")).bind Obj.asReference?

/-- The resources of a node: its own, or those of the nodes above it, of which so many are asked,
the node itself included. -/
def resourcesOf (doc : Document α) : Nat → Nat → Option (Obj α)
  | 0, _ => none
  | levels + 1, node =>
    (doc.ownResources node).or ((doc.parentOf node).bind (doc.resourcesOf levels))

/-- The nodes that are asked and have none. -/
def askedInVain (doc : Document α) : Nat → Nat → List Nat
  | 0, _ => []
  | levels + 1, node =>
    if (doc.ownResources node).isSome then []
    else node :: ((doc.parentOf node).map (doc.askedInVain levels)).getD []

/-- The kinds of resources that contents name. -/
def resourceKinds : List String := ["Font", "XObject"]

/-- What gives the resources of one kind. -/
def resourcesOfKind (doc : Document α) (levels node : Nat) (kind : String) : Option (Obj α) :=
  valueUnder kind (doc.dictOf (doc.resourcesOf levels node))

/-- What a name in the contents of a page resolves to. -/
def resource? (doc : Document α) (levels node : Nat) (kind : String) (name : Bytes) :
    Option (Obj α) :=
  (Dict.get? name (doc.dictOf (doc.resourcesOfKind levels node kind))).bind doc.target?

end Document

/-! ## The same resource -/

/-- The same object, or a dictionary that is the same in what counts of fonts. -/
inductive SameResource : Obj α → Obj α → Prop
  | same (o : Obj α) : SameResource o o
  | dictionary {d e : Dict α} (h : AgreeOn keptKeys d e) :
      SameResource (.dictionary d) (.dictionary e)

/-- The base name of a font. -/
def baseFontOf (o : Obj α) : Option (Obj α) := o.asDict?.bind (valueUnder "BaseFont")

theorem SameResource.baseFontOf_eq {o p : Obj α} (h : SameResource o p) :
    baseFontOf p = baseFontOf o := by
  cases h with
  | same => rfl
  | dictionary hagree => exact hagree "BaseFont" (by simp [keptKeys])

theorem SameResource.asReference?_eq {o p : Obj α} (h : SameResource o p) :
    p.asReference? = o.asReference? := by
  cases h <;> rfl

/-- A font that is drawn in, under its resource name. -/
def IsDrawnFont (used : List String) (name : Bytes) (o : Obj α) : Prop :=
  ∃ f ∈ used, name = bytesOf (fontResourceName f) ∧ ∃ d, o = .dictionary d ∧ IsFont f d

theorem IsEntry.exists_target {o : Obj α} (h : IsEntry doc used name o) :
    ∃ p, doc.target? o = some p ∧ IsDrawnFont used name p := by
  obtain ⟨f, hf, hname, number, generation, d, rfl, hfind, hfont⟩ := h
  have hfollow : doc.follow maxReferences number = some (number, .dictionary d) :=
    follow_of_find? hfind rfl 127
  exact ⟨.dictionary d, by simp [Document.target?, hfollow], f, hf, hname, d, rfl, hfont⟩

theorem asReference?_of_follow {fuel number found : Nat} {o : Obj α}
    (h : doc.follow fuel number = some (found, o)) : o.asReference? = none := by
  induction fuel generalizing number with
  | zero => cases h
  | succ fuel ih =>
    unfold Document.follow at h
    split at h
    · exact ih h
    · next p hnone _ =>
      obtain ⟨-, rfl⟩ := Prod.mk.inj (Option.some.inj h)
      cases p with
      | reference target generation => exact absurd rfl (hnone target generation)
      | _ => rfl
    · cases h

namespace Enriched

theorem find? (h : Enriched used places doc next) {number : Nat} {o : Obj α}
    (hfind : doc.find? number = some o) :
    ∃ p, next.find? number = some p ∧ SameResource o p := by
  cases ho : o.asDict? with
  | none => exact ⟨o, h.other number o hfind ho, .same o⟩
  | some d =>
    cases o with
    | dictionary d =>
      obtain ⟨e, he, hgrown, -⟩ := h.dictionary number d hfind
      exact ⟨.dictionary e, he, .dictionary hgrown.agree⟩
    | _ => cases ho

theorem target? (h : Enriched used places doc next) {o p : Obj α} (ho : doc.target? o = some p) :
    ∃ p', next.target? o = some p' ∧ SameResource p p' := by
  cases o with
  | reference number generation =>
    obtain ⟨⟨found, p⟩, hfollow, rfl⟩ := Option.map_eq_some_iff.mp ho
    obtain ⟨p', hfind, hsame⟩ := h.find? (find?_of_follow hfollow)
    have hreference := hsame.asReference?_eq.trans (asReference?_of_follow hfollow)
    refine ⟨p', ?_, hsame⟩
    simp [Document.target?, h.follow hfollow hfind hreference]
  | _ =>
    obtain rfl := Option.some.inj ho
    exact ⟨_, rfl, .same _⟩

end Enriched

/-! ## Dictionaries of resources -/

/-- The number leads to none of the places. -/
def Elsewhere (places : List Nat) (doc : Document α) (number : Nat) : Prop :=
  ∀ place ∈ places, located doc number ≠ some place

/-- A reference leads to none of the places. -/
def Clear (places : List Nat) (doc : Document α) (o : Option (Obj α)) : Prop :=
  ∀ number generation, o = some (.reference number generation) → Elsewhere places doc number

theorem Enriched.dictOf {o o' : Option (Obj α)} (h : Enriched used places doc next)
    (hgrown : ValueGrown (ResourcesGrown (IsEntry next used)) o o')
    (hne : doc.dictOf o ≠ []) :
    PageGrown (IsEntry next used) (doc.dictOf o) (next.dictOf o') ∧
      (Clear places doc o →
        ResourcesGrown (IsEntry next used) (doc.dictOf o) (next.dictOf o')) := by
  have hboth {d e : Dict α} (hde : ResourcesGrown (IsEntry next used) d e) :
      PageGrown (IsEntry next used) d e ∧
        (Clear places doc o → ResourcesGrown (IsEntry next used) d e) :=
    ⟨hde.page (not_isEntry (by simp)), fun _ => hde⟩
  rcases hgrown with rfl | ⟨d, e, hd, rfl, hde⟩
  · cases o' with
    | none => exact absurd rfl hne
    | some p =>
      cases p with
      | dictionary d => exact hboth (.refl d)
      | reference number generation =>
        simp only [Document.dictOf] at hne ⊢
        cases hd : doc.getDict? number with
        | none => simp [hd] at hne
        | some d =>
          obtain ⟨place, e, hplace, he, hpage, hresources⟩ := h.getDict? hd
          rw [he]
          exact ⟨hpage, fun hclear => hresources fun hin =>
            hclear number generation rfl place hin hplace⟩
      | _ => exact absurd rfl hne
  · cases o with
    | none => exact absurd rfl hne
    | some p =>
      obtain rfl : p = .dictionary d := hd
      exact hboth hde

/-- The resources of a kind grow with the dictionary that keeps them. -/
theorem PageGrown.ofKind (h : PageGrown (IsEntry doc used) d e) (hspares : SparesFonts used)
    (hkind : kind ∈ resourceKinds) :
    ValueGrown (ResourcesGrown (IsEntry doc used)) (valueUnder kind d) (valueUnder kind e) := by
  simp only [resourceKinds, List.mem_cons, List.not_mem_nil, or_false] at hkind
  rcases hkind with rfl | rfl
  · exact h.font.mono fun hde => hde.resources hspares.not_isEntry
  · refine .inl ((h.other _ fun hmem => ?_).eq (not_isEntry (by simp)))
    simp [bytesOf_inj] at hmem

theorem EntryGrown.exists_same {entry : Obj α → Prop} {o : Obj α} {after : Option (Obj α)}
    (h : EntryGrown entry (some o) after) :
    ∃ p, after = some p ∧ (SameResource o p ∨ entry p) := by
  rcases h with rfl | ⟨p, rfl, hentry⟩
  · exact ⟨o, rfl, .inl (.same o)⟩
  · exact ⟨p, rfl, .inr hentry⟩

theorem ValueGrown.exists_same {grown : Dict α → Dict α → Prop} {o : Obj α}
    {after : Option (Obj α)} (h : ValueGrown grown (some o) after)
    (hagree : ∀ {d e}, grown d e → AgreeOn keptKeys d e) :
    ∃ p, after = some p ∧ SameResource o p := by
  rcases h with rfl | ⟨d, e, hd, rfl, hde⟩
  · exact ⟨o, rfl, .same o⟩
  · obtain rfl : o = .dictionary d := hd
    exact ⟨_, rfl, .dictionary (hagree hde)⟩

/-- What stood under a key is there, or a font that is drawn in, unless the key is that of the
contents of a page. -/
theorem PageGrown.exists_same (h : PageGrown (IsEntry doc used) d e) (hspares : SparesFonts used)
    (hcontents : name = bytesOf "Contents" → ResourcesGrown (IsEntry doc used) d e) {o : Obj α}
    (ho : Dict.get? name d = some o) :
    ∃ p, Dict.get? name e = some p ∧ (SameResource o p ∨ IsEntry doc used name p) := by
  have hagree {d e : Dict α} (hde : ResourcesGrown (IsEntry doc used) d e) :
      AgreeOn keptKeys d e :=
    (hde.page (not_isEntry (by simp))).agree
  by_cases hkey : name ∈ ["Contents", "Font", "Resources"].map bytesOf
  · simp only [List.map_cons, List.map_nil, List.mem_cons, List.not_mem_nil, or_false] at hkey
    rcases hkey with rfl | rfl | rfl
    · have hsame := (hcontents rfl).other (bytesOf "Contents") (by simp [bytesOf_inj])
      rw [ho] at hsame
      exact hsame.exists_same
    · have hfont := h.font
      unfold valueUnder at hfont
      rw [ho] at hfont
      obtain ⟨p, hp, hsame⟩ :=
        hfont.exists_same fun hde => hagree (hde.resources hspares.not_isEntry)
      exact ⟨p, hp, .inl hsame⟩
    · have hresources := h.resources
      unfold valueUnder at hresources
      rw [ho] at hresources
      obtain ⟨p, hp, hsame⟩ := hresources.exists_same hagree
      exact ⟨p, hp, .inl hsame⟩
  · have hother := h.other name hkey
    rw [ho] at hother
    exact hother.exists_same

/-! ## Resources from above -/

theorem exists_getDict?_of_parentOf {parent : Nat} (h : doc.parentOf node = some parent) :
    ∃ d, doc.getDict? node = some d := by
  unfold parentOf at h
  cases hd : doc.getDict? node with
  | none => simp [hd] at h
  | some d => exact ⟨d, rfl⟩

namespace Enriched

theorem parentOf_eq (h : Enriched used places doc next) (hd : doc.getDict? node = some d) :
    next.parentOf node = doc.parentOf node := by
  obtain ⟨-, e, -, he, hgrown, -⟩ := h.getDict? hd
  unfold Document.parentOf
  rw [hd, he, Option.bind_some, Option.bind_some, hgrown.agree "Parent" (by simp [keptKeys])]

theorem ownResources (h : Enriched used places doc next) (hd : doc.getDict? node = some d) :
    ValueGrown (ResourcesGrown (IsEntry next used)) (doc.ownResources node)
      (next.ownResources node) := by
  obtain ⟨-, e, -, he, hgrown, -⟩ := h.getDict? hd
  unfold Document.ownResources
  rw [hd, he, Option.bind_some, Option.bind_some]
  exact hgrown.resources

/-- No other node gets resources of its own. -/
theorem ownResources_eq_none (h : Enriched used places doc next)
    (hd : doc.getDict? node = some d) (hplace : Elsewhere places doc node)
    (hnone : doc.ownResources node = none) : next.ownResources node = none := by
  obtain ⟨place, e, hlocated, he, -, hresources⟩ := h.getDict? hd
  have hgrown := hresources fun hin => hplace place hin hlocated
  have hsame := (hgrown.other (bytesOf "Resources") (by simp [bytesOf_inj])).eq
    (not_isEntry (by simp))
  unfold Document.ownResources at hnone ⊢
  rw [hd, Option.bind_some] at hnone
  rw [he, Option.bind_some]
  exact hsame.trans hnone

theorem resourcesOf (h : Enriched used places doc next)
    (hasked : ∀ other ∈ doc.askedInVain levels node, Elsewhere places doc other)
    (hsome : (doc.resourcesOf levels node).isSome) :
    ValueGrown (ResourcesGrown (IsEntry next used)) (doc.resourcesOf levels node)
      (next.resourcesOf levels node) := by
  induction levels generalizing node with
  | zero => cases hsome
  | succ levels ih =>
    unfold Document.resourcesOf at hsome ⊢
    unfold askedInVain at hasked
    cases hown : doc.ownResources node with
    | some o =>
      obtain ⟨d, hd, -⟩ := Option.bind_eq_some_iff.mp hown
      have hgrown := h.ownResources hd
      have hstill := hgrown.isSome (by simp [hown])
      rw [hown] at hgrown
      rwa [Option.some_or, Option.or_of_isSome hstill]
    | none =>
      simp only [hown, Option.isSome_none, Bool.false_eq_true, ↓reduceIte,
        List.forall_mem_cons] at hasked
      rw [hown, Option.none_or] at hsome
      obtain ⟨o, ho⟩ := Option.isSome_iff_exists.mp hsome
      obtain ⟨parent, hparent, ho⟩ := Option.bind_eq_some_iff.mp ho
      obtain ⟨d, hd⟩ := exists_getDict?_of_parentOf hparent
      rw [h.ownResources_eq_none hd hasked.1 hown, h.parentOf_eq hd, hparent]
      simp only [Option.none_or, Option.bind_some]
      refine ih (fun other hother => hasked.2 other ?_) (by simp [ho])
      simpa [hparent] using hother

end Enriched

/-- A page at a place is the one that stands there. -/
theorem OwnsResources.ownResources {place : Nat} (h : OwnsResources doc place)
    (hplace : located doc node = some place) : (doc.ownResources node).isSome := by
  obtain ⟨d, hd, hsome⟩ := h
  unfold Document.ownResources
  rwa [getDict?_of_located hplace hd, Option.bind_some]

/-- The first page on the way up that gets resources of its own hides those above. -/
theorem Enriched.resourcesOf_of_owned (h : Enriched used places doc next)
    (hpages : ∀ place ∈ places, ∃ d, doc.find? place = some (.dictionary d))
    (howned : ∀ place ∈ places, OwnsResources next place) {other : Nat}
    (hasked : other ∈ doc.askedInVain levels node) (hother : ¬ Elsewhere places doc other) :
    ∃ e, next.resourcesOf levels node = some (.dictionary e) ∧
      ResourcesGrown (IsEntry next used) [] e := by
  induction levels generalizing node with
  | zero => cases hasked
  | succ levels ih =>
    unfold askedInVain at hasked
    unfold Document.resourcesOf
    split at hasked
    · cases hasked
    next hown =>
    have hnone : doc.ownResources node = none := by simpa using hown
    by_cases hnode : Elsewhere places doc node
    · rcases List.mem_cons.mp hasked with rfl | habove
      · exact absurd hnode hother
      cases hparent : doc.parentOf node with
      | none => simp [hparent] at habove
      | some parent =>
        obtain ⟨d, hd⟩ := exists_getDict?_of_parentOf hparent
        rw [h.ownResources_eq_none hd hnode hnone, h.parentOf_eq hd, hparent]
        simp only [Option.none_or, Option.bind_some]
        exact ih (by simpa [hparent] using habove)
    · obtain ⟨place, hplace, hlocated⟩ : ∃ place ∈ places, Pdf.located doc node = some place := by
        simpa [Elsewhere] using hnode
      obtain ⟨d, hfind⟩ := hpages place hplace
      have hsome := (howned place hplace).ownResources (h.located hlocated hfind)
      have hgrown := h.ownResources (getDict?_of_located hlocated hfind)
      rcases hgrown with hsame | ⟨c, e, hc, he, hce⟩
      · simp [hsame, hnone] at hsome
      · obtain rfl : c = [] := by simpa [hnone] using hc.symm
        exact ⟨e, by simp [he], hce⟩

/-! ## What names resolve to -/

/-- Nothing is drawn on the nodes that were asked for resources in vain, and a name that is the key
of the contents of pages does not stand in a page that is drawn on. -/
structure Spared (places : List Nat) (doc : Document α) (levels node : Nat) (kind : String)
    (name : Bytes) : Prop where
  asked : ∀ other ∈ doc.askedInVain levels node, Elsewhere places doc other
  contents : name = bytesOf "Contents" → Clear places doc (doc.resourcesOfKind levels node kind)

theorem SameResource.exists_target {o p v : Obj α} (h : SameResource o p)
    (hnext : Enriched used places doc next) (ho : doc.target? o = some v) :
    ∃ w, next.target? p = some w ∧ SameResource v w := by
  cases h with
  | same => exact hnext.target? ho
  | dictionary hagree =>
    obtain rfl := Option.some.inj ho
    exact ⟨_, rfl, .dictionary hagree⟩

namespace Enriched

theorem resource? (h : Enriched used places doc next) (hspares : SparesFonts used)
    (hkind : kind ∈ resourceKinds) (hspared : Spared places doc levels node kind name) {o : Obj α}
    (ho : doc.resource? levels node kind name = some o) :
    ∃ p, next.resource? levels node kind name = some p ∧
      (SameResource o p ∨ IsDrawnFont used name p) := by
  obtain ⟨v, hv, htarget⟩ := Option.bind_eq_some_iff.mp ho
  have hkindNe : doc.dictOf (doc.resourcesOfKind levels node kind) ≠ [] := fun hnil => by
    simp [hnil, Dict.get?] at hv
  have hne : doc.dictOf (doc.resourcesOf levels node) ≠ [] := fun hnil => by
    refine hkindNe ?_
    unfold resourcesOfKind
    rw [hnil]
    rfl
  have hsome : (doc.resourcesOf levels node).isSome := by
    cases hresources : doc.resourcesOf levels node with
    | none => exact absurd (congrArg doc.dictOf hresources) hne
    | some _ => rfl
  obtain ⟨hresources, -⟩ := h.dictOf (h.resourcesOf hspared.asked hsome) hne
  obtain ⟨hentries, hclear⟩ := h.dictOf (hresources.ofKind hspares hkind) hkindNe
  obtain ⟨w, hw, hsame | hentry⟩ :=
    hentries.exists_same hspares (fun hname => hclear (hspared.contents hname)) hv
  · obtain ⟨p, hp, hop⟩ := hsame.exists_target h htarget
    exact ⟨p, Option.bind_eq_some_iff.mpr ⟨w, hw, hp⟩, .inl hop⟩
  · obtain ⟨p, hp, hdrawn⟩ := hentry.exists_target
    exact ⟨p, Option.bind_eq_some_iff.mpr ⟨w, hw, hp⟩, .inr hdrawn⟩

end Enriched

/-- In resources that have grown from nothing there are only fonts that are drawn in. -/
theorem ResourcesGrown.isDrawnFont (h : ResourcesGrown (IsEntry doc used) [] e)
    (hresources : doc.resourcesOf levels node = some (.dictionary e)) (hkind : kind ∈ resourceKinds)
    {p : Obj α} (hp : doc.resource? levels node kind name = some p) :
    kind = "Font" ∧ IsDrawnFont used name p := by
  have hdict : doc.dictOf (some (.dictionary e)) = e := rfl
  obtain ⟨v, hv, htarget⟩ := Option.bind_eq_some_iff.mp hp
  unfold resourcesOfKind at hv
  rw [hresources, hdict] at hv
  -- what stands under the kind has come in
  have hnew (hnone : valueUnder kind e = none) : False := by
    rw [hnone] at hv
    cases hv
  simp only [resourceKinds, List.mem_cons, List.not_mem_nil, or_false] at hkind
  rcases hkind with rfl | rfl
  · rcases h.font with hsame | ⟨c, f, hc, hf, hgrown⟩
    · exact (hnew hsame).elim
    · obtain rfl : [] = c := Obj.dictionary.inj hc
      rw [hf] at hv
      rcases hgrown name with hsame | ⟨w, hw, hentry⟩
      · exact absurd (hv.symm.trans hsame) nofun
      · obtain rfl : v = w := Option.some.inj (hv.symm.trans hw)
        obtain ⟨q, hq, hdrawn⟩ := hentry.exists_target
        obtain rfl : p = q := Option.some.inj (htarget.symm.trans hq)
        exact ⟨rfl, hdrawn⟩
  · exact (hnew ((h.other _ (by simp [bytesOf_inj])).eq (not_isEntry (by simp)))).elim

/-! ## Stamping -/

theorem exists_find?_of_mem_placesOn {stamp : Stamp α} {entries : List (Nat × PageBox α)}
    (hpages : ∀ entry ∈ entries, ∃ d, doc.getDict? entry.1 = some d) {place : Nat}
    (hplace : place ∈ placesOn stamp doc entries) :
    ∃ d, doc.find? place = some (.dictionary d) := by
  obtain ⟨entry, hentry, hlocated⟩ := List.mem_filterMap.mp hplace
  obtain ⟨d, hd⟩ := hpages entry (List.mem_of_mem_filter hentry)
  obtain ⟨found, hfound, hfind⟩ := exists_located hd
  obtain rfl : place = found := Option.some.inj (hlocated.symm.trans hfound)
  exact ⟨d, hfind⟩

/-- What stamping makes of the resources of the nodes of a page tree: a name resolves to what it did
before, unless a font that is drawn in has taken it; but where a page that had resources only from
above is drawn on, it resolves to nothing else than such a font. -/
structure ResourcesAfter (stamp : Stamp α) (doc : Document α) (t : Stamping α) : Prop where
  visited : t.visited.length = doc.pages.length
  kept : ∀ levels node kind name o, kind ∈ resourceKinds →
    Spared (placesOn stamp doc (doc.pages.zip t.visited)) doc levels node kind name →
    doc.resource? levels node kind name = some o →
    ∃ p, t.doc.resource? levels node kind name = some p ∧
      (SameResource o p ∧ baseFontOf p = baseFontOf o ∨
        IsDrawnFont (fontsOn stamp (doc.pages.zip t.visited)) name p)
  hidden : ∀ levels node kind name p, kind ∈ resourceKinds →
    (∃ other ∈ doc.askedInVain levels node,
      ¬ Elsewhere (placesOn stamp doc (doc.pages.zip t.visited)) doc other) →
    t.doc.resource? levels node kind name = some p →
    kind = "Font" ∧ IsDrawnFont (fontsOn stamp (doc.pages.zip t.visited)) name p

theorem stampPages_resources [Scalar α] {encode : Overlay α → Bytes} {stamp : Stamp α}
    {t : Stamping α} (hfresh : Fresh doc) (hspares : ∀ box, SparesFonts (stamp box).fonts)
    (hrun : (stampPages encode stamp).run ⟨doc, []⟩ = (.ok (), t)) :
    ResourcesAfter stamp doc t := by
  obtain ⟨hvisited, henriched, howned⟩ := run_stampPages_furnishes hspares hfresh hrun
  have hused : SparesFonts (fontsOn stamp (doc.pages.zip t.visited)) := by
    intro f hf
    obtain ⟨entry, -, hf⟩ := List.mem_flatMap.mp hf
    exact hspares entry.2 f hf
  have hpages (entry : Nat × PageBox α) (hentry : entry ∈ doc.pages.zip t.visited) :
      ∃ d, doc.getDict? entry.1 = some d :=
    exists_getDict?_of_mem_pages (List.of_mem_zip hentry).1
  refine ⟨hvisited, fun levels node kind name o hkind hspared ho => ?_,
    fun levels node kind name p hkind ⟨other, hother, hplace⟩ hp => ?_⟩
  · obtain ⟨p, hp, hsame | hdrawn⟩ := henriched.resource? hused hkind hspared ho
    · exact ⟨p, hp, .inl ⟨hsame, hsame.baseFontOf_eq⟩⟩
    · exact ⟨p, hp, .inr hdrawn⟩
  · obtain ⟨e, he, hgrown⟩ := henriched.resourcesOf_of_owned
      (fun place => exists_find?_of_mem_placesOn hpages) howned hother hplace
    exact hgrown.isDrawnFont he hkind hp

/-- The entries of a font. -/
def fontEntries (baseFont : String) : Dict Single := (fontObject baseFont).asDict?.getD []

/-- A page with a font of its own, under the given name. -/
def ownFont (name : String) : Document Single :=
  smallDocument [3] [pageWith (.dictionary (Dict.ofList
    [("Font", .dictionary (Dict.ofList [(name, .reference 4)]))])), fontEntries "Courier"]

theorem pages_ownFont (name : String) : (ownFont name).pages = [3] :=
  (pages_eq _).trans (pagesUpTo_smallDocument (by simpa using ⟨_, rfl⟩)
    (by simp [ownFont, smallDocument]))

theorem fonts_inFontsOf (box : PageBox Single) :
    ∀ f ∈ (inFontsOf [["Helvetica"]] box).fonts, f = "Helvetica" := by
  unfold inFontsOf
  cases box.number - 1 with
  | zero => decide +kernel
  | succ n =>
    rw [List.getD_cons_succ, List.getD_nil]
    decide +kernel

theorem stampPages_resources_ownFont :
    Fresh (ownFont "F1") ∧ (∀ box, SparesFonts (inFontsOf [["Helvetica"]] box).fonts) ∧
      ∃ t, (stampPages Overlay.encode (inFontsOf [["Helvetica"]])).run ⟨ownFont "F1", []⟩ =
          (.ok (), t) ∧
        ∃ o p, (ownFont "F1").resource? 2 3 "Font" (bytesOf "F1") = some o ∧
          t.doc.resource? 2 3 "Font" (bytesOf "F1") = some p ∧ baseFontOf p = baseFontOf o := by
  have hfresh : Fresh (ownFont "F1") := fresh_of_numbered (by decide)
  have hspares (box : PageBox Single) : SparesFonts (inFontsOf [["Helvetica"]] box).fonts := by
    intro f hf
    rw [fonts_inFontsOf box f hf]
    decide
  have hok : (stampedOn (inFontsOf [["Helvetica"]]) (ownFont "F1") [3]).1.isOk := by
    decide +kernel
  have hrun := run_stampPages_of_pages (pages_ownFont "F1") hok
  obtain ⟨o, ho⟩ := Option.isSome_iff_exists.mp
    (show ((ownFont "F1").resource? 2 3 "Font" (bytesOf "F1")).isSome by decide +kernel)
  have hasked : (ownFont "F1").askedInVain 2 3 = [] := by decide +kernel
  obtain ⟨p, hp, ⟨-, hbase⟩ | ⟨f, hf, hname, -⟩⟩ := (stampPages_resources hfresh hspares hrun).kept
    2 3 "Font" (bytesOf "F1") o (by simp [resourceKinds])
    ⟨by simp [hasked], fun heq => absurd (bytesOf_inj.mp heq) (by decide)⟩ ho
  · exact ⟨hfresh, hspares, _, hrun, o, p, ho, hp, hbase⟩
  · -- no font that is drawn in is called like the one of the page
    obtain ⟨entry, -, hf⟩ := List.mem_flatMap.mp hf
    rw [fonts_inFontsOf entry.2 f hf] at hname
    exact absurd (bytesOf_inj.mp hname) (by decide)

/-! ## Where resources are lost -/

/-- A page that has a font from the node above. -/
def inheritedFont : Document Single :=
  { objects :=
      [(1, .dictionary (Dict.ofList [("Type", Obj.nameOf "Catalog"), ("Pages", .reference 2)])),
       (2, .dictionary (Dict.ofList [("Type", Obj.nameOf "Pages"), ("Kids", .array [.reference 3]),
         ("Resources", .dictionary (Dict.ofList
           [("Font", .dictionary (Dict.ofList [("F1", .reference 4)]))]))])),
       (3, .dictionary (Dict.ofList [("Type", Obj.nameOf "Page"), ("Parent", .reference 2)])),
       (4, .dictionary (fontEntries "Courier"))]
    maxId := 4
    root := 1
    info := none }

theorem pages_inheritedFont : inheritedFont.pages = [3] := by
  have hroot : inheritedFont.find? 1 = some (.dictionary (Dict.ofList
      [("Type", Obj.nameOf "Catalog"), ("Pages", .reference 2)])) := rfl
  have hpages : valueUnder "Pages" (Dict.ofList [("Type", Obj.nameOf "Catalog"),
      ("Pages", (.reference 2 : Obj Single))]) = some (.reference 2) := by
    simp [valueUnder_ofList]
  refine (pages_eq _).trans (pagesUpTo_of_kids hroot hpages rfl ?_ ?_ (by decide))
  · simp [valueUnder_ofList]
  · simpa using ⟨_, rfl, by simp [valueUnder_ofList]⟩

/-- A page that is drawn on loses the font that it had from above, and a font of its own whose name
is that of a font that is drawn in becomes that font. -/
theorem stampPages_hides :
    (∃ t, Stamps (inFontsOf [["Helvetica"]]) inheritedFont t ∧ 3 ∈ inheritedFont.pages ∧
      (inheritedFont.resource? 2 3 "Font" (bytesOf "F1")).isSome ∧
      t.doc.resource? 2 3 "Font" (bytesOf "F1") = none) ∧
    ∃ t, Stamps (inFontsOf [["Helvetica"]]) (ownFont "FHelvetica") t ∧
      ((ownFont "FHelvetica").getDict? 3).map (ownFont "FHelvetica").pageFonts =
        some [(bytesOf "FHelvetica", some (bytesOf "Courier"))] ∧
      (t.doc.getDict? 3).map t.doc.pageFonts =
        some [(bytesOf "FHelvetica", some (bytesOf "Helvetica"))] := by
  refine ⟨⟨_, run_stampPages_of_pages pages_inheritedFont (by decide +kernel), ?_,
    by decide +kernel, ?_⟩, ⟨_, run_stampPages_of_pages (pages_ownFont _) (by decide +kernel),
    by decide +kernel, by decide +kernel⟩⟩
  · simp [pages_inheritedFont]
  · exact Option.isNone_iff_eq_none.mp (by decide +kernel)

end Folio.Pdf
