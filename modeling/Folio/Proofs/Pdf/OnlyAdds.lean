import Folio.Proofs.Pdf.Adding

/-!
# Stamping only adds

Every page of a document is stamped in its turn. A document that is underway has all that it began
with, and the pages whose turn is still to come are as they were, because no page keeps its fonts in
the dictionary of another. So what is said of one page holds for all of them in the end.
-/
namespace Folio.Pdf

open Document Flow

variable {α : Type} {doc next : Document α} {fonts : List String}

/-! ## Page after page -/

/-- What stamping goes by in a document: the numbers that are given out are free, the page tree is
walked to its end, each page has a dictionary of its own, and in none of these are the fonts of
another page kept. -/
structure Stampable (doc : Document α) : Prop where
  numbered : ∀ entry ∈ doc.objects, entry.1 ≤ doc.maxId
  walked : ∀ limit, doc.objects.length ≤ limit → pagesUpTo doc limit = doc.pages
  distinct : (doc.pages.map (located doc)).Nodup
  apart : ∀ page ∈ doc.pages, ∀ other ∈ doc.pages, page ≠ other →
    fontHome doc page ≠ located doc other

theorem fresh_of_numbered (h : ∀ entry ∈ doc.objects, entry.1 ≤ doc.maxId) : Fresh doc := by
  intro number o hfind
  obtain ⟨entry, hentry, -⟩ := Option.map_eq_some_iff.mp hfind
  have hnumber : entry.1 = number := by simpa using List.find?_some hentry
  exact hnumber ▸ h entry (List.mem_of_find?_eq_some hentry)

theorem Stampable.fresh (h : Stampable doc) : Fresh doc := fresh_of_numbered h.numbered

theorem Stampable.pages {doc : Document α} (h : Stampable doc) (hnext : Augments fonts doc next) :
    next.pages = doc.pages := by
  rw [pages_eq next, hnext.pagesUpTo, h.walked _ hnext.length]

/-- A document on which some pages have been stamped; the rest are as they were. -/
structure Underway (fonts : List String) (doc next : Document α) (table : FontTable)
    (rest : List Nat) : Prop where
  augments : Augments fonts doc next
  known : Known next table
  left : ∀ page ∈ rest, next.getDict? page = doc.getDict? page

/-- The dictionary of a page that is still to come, where it was in the beginning. -/
theorem Underway.exists_found {table : FontTable} {current : Document α} {page : Nat}
    {rest : List Nat} (hway : Underway fonts doc current table rest) (hpage : page ∈ rest)
    (hmem : page ∈ doc.pages) : ∃ d found, doc.getDict? page = some d ∧
      located doc page = some found ∧ located current page = some found ∧
        current.find? found = some (.dictionary d) := by
  obtain ⟨d, hd⟩ := exists_getDict?_of_mem_pages hmem
  obtain ⟨found, hfound, hfind⟩ := exists_located hd
  have hlater := (hway.augments.located_iff hfind).mpr hfound
  obtain ⟨place, hplace, hplaceFind⟩ := exists_located ((hway.left page hpage).trans hd)
  obtain rfl : place = found := by simpa [hplace] using hlater
  exact ⟨d, place, hd, hfound, hlater, hplaceFind⟩

/-- No other page changes with the page whose turn it is. -/
theorem Underway.others {table : FontTable} {current : Document α} {page found : Nat}
    {rest : List Nat} {d : Dict α} {content : Bytes} {overlay : Overlay α} (h : Stampable doc)
    (hway : Underway fonts doc current table (page :: rest)) (hmem : page ∈ doc.pages)
    (hd : doc.getDict? page = some d) (hfound : located doc page = some found)
    (hstamped : StampedPage fonts content overlay current next page found) (other : Nat)
    (hother : other ∈ doc.pages) (hne : located doc other ≠ located doc page) :
    next.getDict? other = current.getDict? other := by
  obtain ⟨c, hc⟩ := exists_getDict?_of_mem_pages hother
  obtain ⟨place, hplace, hplaceFind⟩ := exists_located hc
  obtain ⟨e, he, -⟩ := hway.augments.dictionary place c hplaceFind
  have hplaceCurrent := (hway.augments.located_iff hplaceFind).mpr hplace
  have hplaceNe : place ≠ found := by
    rintro rfl
    exact hne (hplace.trans hfound.symm)
  have hpageNe : page ≠ other := by
    rintro rfl
    exact hne rfl
  have hhome : fontHome doc page ≠ some place := hplace ▸ h.apart page hmem other hother hpageNe
  have hcurrent : current.getDict? page = some d := (hway.left page List.mem_cons_self).trans hd
  have hkept := hstamped.others place e (hway.augments.fontHome_ne hd hcurrent hplaceFind hhome)
    hplaceNe he
  rw [getDict?_of_located hplaceCurrent he,
    getDict?_of_located ((hstamped.augments.located_iff he).mpr hplaceCurrent) hkept]

variable [Scalar α]

/-- What the callback is told of a page, given with its number. -/
def boxOf (doc : Document α) (entry : Nat × Nat) : PageBox α :=
  ⟨entry.2, doc.pages.length, (mediaBox doc entry.1).1, (mediaBox doc entry.1).2⟩

/-- A page on which nothing is drawn stays as it is, and every other one is drawn on. -/
structure PageOutcome (encode : Overlay α → Bytes) (stamp : Stamp α) (doc next : Document α)
    (entry : Nat × Nat) : Prop where
  blank : (stamp (boxOf doc entry)).isEmpty = true →
    next.getDict? entry.1 = doc.getDict? entry.1
  drawn : (stamp (boxOf doc entry)).isEmpty = false →
    Drawn (encode (stamp (boxOf doc entry))) (stamp (boxOf doc entry)).fonts doc next entry.1

/-- What stamping the rest of the pages does to a document that is underway. -/
structure StampedRest (fonts : List String) (encode : Overlay α → Bytes) (stamp : Stamp α)
    (doc : Document α) (number : Nat) (rest : List Nat) (s t : Stamping α) : Prop where
  visited : t.visited = s.visited ++ (rest.zipIdx number).map (boxOf doc)
  augments : Augments fonts s.doc t.doc
  others : ∀ page ∈ doc.pages, located doc page ∉ rest.map (located doc) →
    t.doc.getDict? page = s.doc.getDict? page
  pages : ∀ entry ∈ rest.zipIdx number, PageOutcome encode stamp doc t.doc entry

/-- One page more. -/
theorem Underway.step {encode : Overlay α → Bytes} {stamp : Stamp α} {table table' : FontTable}
    {current : Document α} {page number : Nat} {rest : List Nat} (h : Stampable doc)
    (hfonts : ToldApart fonts) (hsub : page :: rest ⊆ doc.pages)
    (hnodup : ((page :: rest).map (located doc)).Nodup)
    (hway : Underway fonts doc current table (page :: rest))
    (hnames : (stamp (boxOf doc (page, number))).fonts ⊆ fonts)
    (hrun : (stampPage encode stamp table (boxOf doc (page, number)) page).run current =
      (.ok table', next)) :
    Underway fonts doc next table' rest ∧ Augments fonts current next ∧
      (∀ other ∈ doc.pages, located doc other ≠ located doc page →
        next.getDict? other = current.getDict? other) ∧
      PageOutcome encode stamp doc next (page, number) := by
  have hmem : page ∈ doc.pages := hsub List.mem_cons_self
  have hleft := hway.left page List.mem_cons_self
  obtain ⟨d, found, hd, hfound, hcurrent, hfind⟩ := hway.exists_found List.mem_cons_self hmem
  obtain ⟨hstamped, hknown⟩ := run_stampPage_adds (hway.augments.fresh h.fresh) hway.known hfonts
    hnames hcurrent hfind hrun
  have hothers := hway.others h hmem hd hfound hstamped
  refine ⟨⟨hway.augments.trans hstamped.augments, hknown, fun other hother => ?_⟩,
    hstamped.augments, hothers, fun hempty => ?_, fun hempty => ?_⟩
  · have hne : located doc other ≠ located doc page := fun heq =>
      (List.nodup_cons.mp hnodup).1 (heq ▸ List.mem_map_of_mem hother)
    rw [hothers other (hsub (List.mem_cons_of_mem _ hother)) hne]
    exact hway.left other (List.mem_cons_of_mem _ hother)
  · rw [hstamped.blank hempty]
    exact hleft
  · exact (hstamped.drawn hempty).widen hnames hleft hway.augments.maxId (.refl next) rfl

/-- What one page does and what the rest of the pages do, taken together. -/
theorem StampedRest.cons {encode : Overlay α → Bytes} {stamp : Stamp α} {page number : Nat}
    {rest : List Nat} {s u t : Stamping α}
    (hrest : StampedRest fonts encode stamp doc (number + 1) rest u t) (hmem : page ∈ doc.pages)
    (hnew : located doc page ∉ rest.map (located doc))
    (hnames : (stamp (boxOf doc (page, number))).fonts ⊆ fonts)
    (hvisited : u.visited = s.visited ++ [boxOf doc (page, number)])
    (haugments : Augments fonts s.doc u.doc)
    (hothers : ∀ other ∈ doc.pages, located doc other ≠ located doc page →
      u.doc.getDict? other = s.doc.getDict? other)
    (houtcome : PageOutcome encode stamp doc u.doc (page, number)) :
    StampedRest fonts encode stamp doc number (page :: rest) s t := by
  have hlast := hrest.others page hmem hnew
  refine ⟨?_, haugments.trans hrest.augments, fun other hother hnot => ?_, ?_⟩
  · rw [hrest.visited, hvisited]
    simp [List.zipIdx_cons]
  · rw [List.map_cons, List.mem_cons, not_or] at hnot
    rw [hrest.others other hother hnot.2]
    exact hothers other hother hnot.1
  · rw [List.zipIdx_cons, List.forall_mem_cons]
    refine ⟨⟨fun hempty => ?_, fun hempty => ?_⟩, hrest.pages⟩
    · exact hlast.trans (houtcome.blank hempty)
    · exact (houtcome.drawn hempty).widen hnames rfl (Nat.le_refl _) hrest.augments hlast

theorem run_stampFrom_rest {encode : Overlay α → Bytes} {stamp : Stamp α} (h : Stampable doc)
    (hfonts : ToldApart fonts) (rest : List Nat) : ∀ {table : FontTable} {number : Nat}
      {s t : Stamping α}, rest ⊆ doc.pages → (rest.map (located doc)).Nodup →
      Underway fonts doc s.doc table rest →
      (∀ entry ∈ rest.zipIdx number, (stamp (boxOf doc entry)).fonts ⊆ fonts) →
      (stampFrom encode stamp doc.pages.length table number rest).run s = (.ok (), t) →
      StampedRest fonts encode stamp doc number rest s t := by
  -- `Underway` carries it: the pages that are left are as they were in the beginning
  induction rest with
  | nil =>
    intro table number s t _ _ _ _ hrun
    obtain rfl : s = t := congrArg Prod.snd hrun
    exact ⟨by simp, .refl s.doc, fun _ _ _ => rfl, nofun⟩
  | cons page rest ih =>
    intro table number s t hsub hnodup hway hnames hrun
    obtain ⟨hnew, hnodup'⟩ := List.nodup_cons.mp hnodup
    rw [List.zipIdx_cons, List.forall_mem_cons] at hnames
    unfold stampFrom at hrun
    -- the callback is told of the page as it was in the beginning
    rcases hbox : mediaBox s.doc page with ⟨width, height⟩
    have hboxOf : (⟨number, doc.pages.length, width, height⟩ : PageBox α) =
        boxOf doc (page, number) := by
      simp [boxOf, ← hway.augments.mediaBox page, hbox]
    simp only [run_bind, run_get, run_modify, hbox, hboxOf] at hrun
    split at hrun
    · next table' u hpage =>
      rw [run_onDocument] at hpage
      obtain ⟨hok, rfl⟩ := Prod.mk.inj hpage
      have hdoc : (stampPage encode stamp table (boxOf doc (page, number)) page).run s.doc =
          (.ok table', _) := Prod.ext hok rfl
      obtain ⟨hway', haugments, hothers, houtcome⟩ :=
        hway.step h hfonts hsub hnodup hnames.1 hdoc
      have hrest := ih (fun other hother => hsub (List.mem_cons_of_mem _ hother)) hnodup' hway'
        hnames.2 hrun
      exact hrest.cons (hsub List.mem_cons_self) hnew hnames.1 rfl haugments hothers houtcome
    · cases hrun

/-- The fonts of all that is drawn on the pages of a document. -/
def usedFonts (stamp : Stamp α) (doc : Document α) : List String :=
  (doc.pages.zipIdx 1).flatMap fun entry => (stamp (boxOf doc entry)).fonts

theorem run_stampPages_rest {encode : Overlay α → Bytes} {stamp : Stamp α} {s t : Stamping α}
    (h : Stampable s.doc) (hfonts : ToldApart (usedFonts stamp s.doc))
    (hrun : (stampPages encode stamp).run s = (.ok (), t)) :
    StampedRest (usedFonts stamp s.doc) encode stamp s.doc 1 s.doc.pages s t := by
  unfold stampPages at hrun
  simp only [run_bind, run_get] at hrun
  refine run_stampFrom_rest h hfonts s.doc.pages (List.Subset.refl _) h.distinct
    ⟨.refl s.doc, by simp [Known], fun _ _ => rfl⟩ (fun entry hentry f hf => ?_) hrun
  exact List.mem_flatMap.mpr ⟨entry, hentry, hf⟩

/-- What stamping promises for a document: the callback is told of every page once and in order, the
pages stay the same, so do all objects that are no dictionaries, a page on which nothing is drawn
stays as it is, and every other one has its drawing in one more stream, behind those it had and
between saving and restoring the graphics state, with the fonts that the drawing uses. -/
structure OnlyAdds (stamp : Stamp Single) (doc : Document Single) (t : Stamping Single) : Prop where
  visited : t.visited = (doc.pages.zipIdx 1).map (boxOf doc)
  pages : t.doc.pages = doc.pages
  kept : ∀ number o, doc.find? number = some o → o.asDict? = none → t.doc.find? number = some o
  blank : ∀ entry ∈ doc.pages.zipIdx 1, (stamp (boxOf doc entry)).isEmpty = true →
    t.doc.getDict? entry.1 = doc.getDict? entry.1
  drawn : ∀ entry ∈ doc.pages.zipIdx 1, (stamp (boxOf doc entry)).isEmpty = false →
    Drawn (encodeOperations (saveState :: (stamp (boxOf doc entry)).operations ++ [restoreState]))
      (stamp (boxOf doc entry)).fonts doc t.doc entry.1

/-- Stamping only adds to a document, in fonts that their resource names tell apart. -/
theorem stampPages_onlyAdds {stamp : Stamp Single} {doc : Document Single} {t : Stamping Single}
    (h : Stampable doc) (hfonts : ToldApart (usedFonts stamp doc))
    (hrun : (stampPages Overlay.encode stamp).run ⟨doc, []⟩ = (.ok (), t)) :
    OnlyAdds stamp doc t := by
  have hrest : StampedRest (usedFonts stamp doc) Overlay.encode stamp doc 1 doc.pages ⟨doc, []⟩ t :=
    run_stampPages_rest (s := ⟨doc, []⟩) h hfonts hrun
  exact ⟨hrest.visited, h.pages hrest.augments, hrest.augments.other,
    fun entry hentry => (hrest.pages entry hentry).blank,
    fun entry hentry => (hrest.pages entry hentry).drawn⟩

/-! ## Small documents -/

/-- A document whose page tree has one level; what follows the tree is given. -/
def smallDocument (kids : List Nat) (objects : List (Dict Single)) : Document Single :=
  { objects :=
      (1, .dictionary (Dict.ofList [("Type", Obj.nameOf "Catalog"), ("Pages", .reference 2)])) ::
      (2, .dictionary (Dict.ofList [("Type", Obj.nameOf "Pages"),
        ("Kids", .array (kids.map fun kid => .reference kid))])) ::
      (objects.zipIdx 3).map fun entry => (entry.2, .dictionary entry.1)
    maxId := objects.length + 2
    root := 1
    info := none }

/-- A page with resources of its own. -/
def pageWith (resources : Obj Single) : Dict Single :=
  Dict.ofList [("Type", Obj.nameOf "Page"), ("Resources", resources)]

/-- A word in each of the fonts. -/
def inFonts (fonts : List String) : Overlay Single :=
  fonts.foldl (fun overlay font => overlay.text "x" font 12 20 20 []) .empty

/-- Fonts for the first page, for the second page and so on; then nothing is drawn. -/
def inFontsOf (fonts : List (List String)) : Stamp Single := fun box =>
  inFonts (fonts.getD (box.number - 1) [])

theorem pagesUpTo_smallDocument {kids : List Nat} {objects : List (Dict Single)} {limit : Nat}
    (hpage : ∀ kid ∈ kids, ∃ resources,
      (smallDocument kids objects).find? kid = some (.dictionary (pageWith resources)))
    (hlimit : kids.length ≤ limit) : pagesUpTo (smallDocument kids objects) limit = kids := by
  have hroot : (smallDocument kids objects).find? 1 = some (.dictionary (Dict.ofList
      [("Type", Obj.nameOf "Catalog"), ("Pages", .reference 2)])) := rfl
  have htree : (smallDocument kids objects).find? 2 = some (.dictionary (Dict.ofList
      [("Type", Obj.nameOf "Pages"), ("Kids", .array (kids.map fun kid => .reference kid))])) := rfl
  have hpages : valueUnder "Pages" (Dict.ofList [("Type", Obj.nameOf "Catalog"),
      ("Pages", (.reference 2 : Obj Single))]) = some (.reference 2) := by
    simp [valueUnder_ofList]
  refine pagesUpTo_of_kids hroot hpages htree ?_ (fun kid hkid => ?_) hlimit
  · simp [valueUnder_ofList]
  · obtain ⟨resources, hfind⟩ := hpage kid hkid
    exact ⟨_, hfind, by simp [pageWith, valueUnder_ofList]⟩

/-- What stamping the given pages makes of a document. -/
def stampedOn (stamp : Stamp Single) (doc : Document Single) (pages : List Nat) :
    Except StructureError Unit × Stamping Single :=
  (stampFrom Overlay.encode stamp pages.length [] 1 pages).run ⟨doc, []⟩

theorem run_stampPages_of_pages {stamp : Stamp Single} {doc : Document Single} {numbers : List Nat}
    (hpages : doc.pages = numbers) (hok : (stampedOn stamp doc numbers).1.isOk) :
    (stampPages Overlay.encode stamp).run ⟨doc, []⟩ =
      (.ok (), (stampedOn stamp doc numbers).2) := by
  have hrun : (stampPages Overlay.encode stamp).run ⟨doc, []⟩ = stampedOn stamp doc numbers := by
    unfold stampPages stampedOn
    simp only [run_bind, run_get, hpages]
  rw [hrun]
  generalize stampedOn stamp doc numbers = outcome at hok ⊢
  obtain ⟨result, s⟩ := outcome
  cases result with
  | ok _ => rfl
  | error _ => cases hok

/-- Two pages with the same resources. -/
def sharedResources : Document Single :=
  smallDocument [3, 4] [pageWith (.reference 5), pageWith (.reference 5), []]

theorem pagesUpTo_sharedResources {limit : Nat} (h : 2 ≤ limit) :
    pagesUpTo sharedResources limit = [3, 4] :=
  pagesUpTo_smallDocument (by simpa using ⟨⟨_, rfl⟩, ⟨_, rfl⟩⟩) h

theorem stampPages_onlyAdds_sharedResources :
    Stampable sharedResources ∧
      ToldApart (usedFonts (inFontsOf [["Helvetica", "Times-Roman"]]) sharedResources) ∧
      ∃ t, (stampPages Overlay.encode (inFontsOf [["Helvetica", "Times-Roman"]])).run
          ⟨sharedResources, []⟩ = (.ok (), t) ∧
        OnlyAdds (inFontsOf [["Helvetica", "Times-Roman"]]) sharedResources t := by
  have hpages : sharedResources.pages = [3, 4] :=
    (pages_eq _).trans (pagesUpTo_sharedResources (by decide))
  have hstampable : Stampable sharedResources := by
    refine ⟨by decide, fun limit hlimit => ?_, ?_, ?_⟩
    · rw [hpages]
      exact pagesUpTo_sharedResources (Nat.le_trans (by decide) hlimit)
    · rw [hpages]
      decide +kernel
    · rw [hpages]
      decide +kernel
  have hused : usedFonts (inFontsOf [["Helvetica", "Times-Roman"]]) sharedResources =
      ["Helvetica", "Times-Roman"] := by
    unfold usedFonts
    rw [hpages]
    decide +kernel
  have hfonts :
      ToldApart (usedFonts (inFontsOf [["Helvetica", "Times-Roman"]]) sharedResources) := by
    rw [hused]
    exact ⟨by decide +kernel, by decide +kernel⟩
  have hok : (stampedOn (inFontsOf [["Helvetica", "Times-Roman"]])
      sharedResources [3, 4]).1.isOk := by
    decide +kernel
  have hrun := run_stampPages_of_pages hpages hok
  exact ⟨hstampable, hfonts, _, hrun, stampPages_onlyAdds hstampable hfonts hrun⟩

/-! ## Where stamping does more -/

/-- Stamping succeeds and makes that of the document. -/
def Stamps (stamp : Stamp Single) (doc : Document Single) (t : Stamping Single) : Prop :=
  (stampPages Overlay.encode stamp).run ⟨doc, []⟩ = (.ok (), t)

def onePage : Document Single := smallDocument [3] [pageWith (.dictionary [])]

/-- Of two fonts with one resource name the page has only one. -/
theorem stamps_lookalikes :
    ∃ t page, Stamps (inFontsOf [["Helvetica-Bold", "HelveticaBold"]]) onePage t ∧
      t.doc.getDict? 3 = some page ∧ ¬ ∀ f ∈ ["Helvetica-Bold", "HelveticaBold"],
        Defines t.doc (t.doc.pageResources "Font" page) f := by
  have hpages : onePage.pages = [3] :=
    (pages_eq _).trans (pagesUpTo_smallDocument (by simpa using ⟨_, rfl⟩) (by decide))
  let t := (stampedOn (inFontsOf [["Helvetica-Bold", "HelveticaBold"]]) onePage [3]).2
  obtain ⟨page, hpage⟩ := Option.isSome_iff_exists.mp
    (show (t.doc.getDict? 3).isSome by decide +kernel)
  refine ⟨t, page, run_stampPages_of_pages hpages (by decide +kernel), hpage, fun h => ?_⟩
  have hbold := h "Helvetica-Bold" (by simp)
  have hlookalike := h "HelveticaBold" (by simp)
  exact absurd (hbold.unique hlookalike (by decide)) (by decide)

/-- The second page lends its dictionary to the first one as resources. -/
def lentPage : Document Single :=
  smallDocument [3, 4] [pageWith (.reference 4), pageWith (.dictionary [])]

/-- Nothing is drawn on the second page, but the fonts of the first one come into its dictionary. -/
theorem stamps_lentPage :
    ∃ t, Stamps (inFontsOf [["Helvetica"]]) lentPage t ∧
      t.doc.getDict? 4 ≠ lentPage.getDict? 4 := by
  have hpages : lentPage.pages = [3, 4] :=
    (pages_eq _).trans (pagesUpTo_smallDocument (by simpa using ⟨⟨_, rfl⟩, ⟨_, rfl⟩⟩) (by decide))
  refine ⟨_, run_stampPages_of_pages hpages (by decide +kernel), fun h => ?_⟩
  exact absurd (congrArg (Option.map List.length) h) (by decide +kernel)

/-- One dictionary holds the resources of the first page and the fonts of the second one. -/
def crossedRoles : Document Single :=
  smallDocument [3, 4] [pageWith (.reference 5),
    pageWith (.dictionary (Dict.ofList [("Font", .reference 5)])), []]

/-- A font with the resource name `Font` takes the place of the fonts of the first page. -/
theorem stamps_crossedRoles :
    ∃ t page, Stamps (inFontsOf [["Helvetica"], ["ont"]]) crossedRoles t ∧
      t.doc.getDict? 3 = some page ∧
        ¬ Defines t.doc (t.doc.pageResources "Font" page) "Helvetica" := by
  have hpages : crossedRoles.pages = [3, 4] :=
    (pages_eq _).trans (pagesUpTo_smallDocument (by simpa using ⟨⟨_, rfl⟩, ⟨_, rfl⟩⟩) (by decide))
  let t := (stampedOn (inFontsOf [["Helvetica"], ["ont"]]) crossedRoles [3, 4]).2
  obtain ⟨page, hpage⟩ := Option.isSome_iff_exists.mp
    (show (t.doc.getDict? 3).isSome by decide +kernel)
  refine ⟨t, page, run_stampPages_of_pages hpages (by decide +kernel), hpage, ?_⟩
  rintro ⟨o, ho, -⟩
  have hlost : ((t.doc.getDict? 3).bind fun page => valueUnder (fontResourceName "Helvetica")
      (t.doc.pageResources "Font" page)).isNone := by
    decide +kernel
  rw [hpage, Option.bind_some, ho] at hlost
  cases hlost

def listedTwice : Document Single := smallDocument [3, 3] [pageWith (.dictionary [])]

/-- How many streams a page has. -/
def streamCount (doc : Document Single) (page : Nat) : Option Nat :=
  (doc.getDict? page).map fun d => (oneOrMore (valueUnder "Contents" d)).length

/-- A page that stands in the page tree twice gets two streams. -/
theorem stamps_listedTwice :
    ∃ t, Stamps (inFontsOf [["Helvetica"], ["Helvetica"]]) listedTwice t ∧
      streamCount listedTwice 3 = some 0 ∧ streamCount t.doc 3 = some 2 := by
  have hpages : listedTwice.pages = [3, 3] :=
    (pages_eq _).trans (pagesUpTo_smallDocument (by simpa using ⟨_, rfl⟩) (by decide))
  exact ⟨_, run_stampPages_of_pages hpages (by decide +kernel), by decide +kernel,
    by decide +kernel⟩

/-- What stamping does beyond adding: it leaves out a font that is not told apart from another,
changes a page on which nothing is drawn, loses fonts to a font named as their key, and puts two
streams behind the contents of a page that is listed twice. -/
theorem stampPages_oversteps :
    (∃ t page, Stamps (inFontsOf [["Helvetica-Bold", "HelveticaBold"]]) onePage t ∧
      t.doc.getDict? 3 = some page ∧ ¬ ∀ f ∈ ["Helvetica-Bold", "HelveticaBold"],
        Defines t.doc (t.doc.pageResources "Font" page) f) ∧
    (∃ t, Stamps (inFontsOf [["Helvetica"]]) lentPage t ∧
      t.doc.getDict? 4 ≠ lentPage.getDict? 4) ∧
    (∃ t page, Stamps (inFontsOf [["Helvetica"], ["ont"]]) crossedRoles t ∧
      t.doc.getDict? 3 = some page ∧
        ¬ Defines t.doc (t.doc.pageResources "Font" page) "Helvetica") ∧
    (∃ t, Stamps (inFontsOf [["Helvetica"], ["Helvetica"]]) listedTwice t ∧
      streamCount listedTwice 3 = some 0 ∧ streamCount t.doc 3 = some 2) :=
  ⟨stamps_lookalikes, stamps_lentPage, stamps_crossedRoles, stamps_listedTwice⟩

end Folio.Pdf
