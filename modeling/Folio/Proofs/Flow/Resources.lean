import Folio.Proofs.Exact
import Folio.Proofs.Flow.Painting
import Folio.Proofs.Flow.Written

/-!
# What finished pages refer to

A page of a written document is consistent, and a reader who looks up what its operations name among
the resources of the page finds it: the images that the page was given, and for each font the last
one of the document that bears its resource name. Standard fonts bear different ones, so each is
found as itself, unless a page event draws in a font of another name that differs in hyphens only.
-/
namespace Folio.Flow

open Style Pdf Document

variable {α : Type}

/-! ## Standard fonts -/

def standardNames : List String :=
  ["Courier", "Courier-Bold", "Courier-Oblique", "Courier-BoldOblique", "Helvetica",
    "Helvetica-Bold", "Helvetica-Oblique", "Helvetica-BoldOblique", "Times-Roman", "Times-Bold",
    "Times-Italic", "Times-BoldItalic", "Symbol", "ZapfDingbats"]

theorem baseName_mem (font : Font α) : font.baseName ∈ standardNames := by
  unfold Font.baseName
  split <;> simp [standardNames]

theorem fontResourceName_standardNames : (standardNames.map fontResourceName).Nodup := by
  decide +kernel

/-- A standard font is found as itself if none but standard ones bear its resource name. -/
theorem lastNamed_standard {font : String} {fonts : List String} (hfont : font ∈ fonts)
    (hstandard : font ∈ standardNames) (hothers : ∀ other ∈ fonts,
      fontResourceName other = fontResourceName font → other ∈ standardNames) :
    lastNamed (fontResourceName font) fonts = some font := by
  cases hlast : lastNamed (fontResourceName font) fonts with
  | none =>
    have hnone : ∀ other ∈ fonts, fontResourceName other ≠ fontResourceName font := by
      simpa [lastNamed] using hlast
    exact absurd rfl (hnone font hfont)
  | some base =>
    obtain ⟨hbase, heq⟩ := mem_of_lastNamed hlast
    exact congrArg some (List.inj_on_of_nodup_map fontResourceName_standardNames
      (hothers base hbase heq) hstandard heq)

theorem mem_fontNames {font : String} {pages : List (Canvas α)} :
    font ∈ fontNames pages ↔ ∃ c ∈ pages, font ∈ c.fonts := by
  have hfold (names : List String) : ∀ start : List String,
      font ∈ names.foldl (fun names name => insertName name names) start ↔
        font ∈ names ∨ font ∈ start := by
    induction names with
    | nil => simp
    | cons name names ih =>
      intro start
      rw [List.foldl_cons, ih, mem_insertName, List.mem_cons]
      tauto
  simp [fontNames, hfold]

/-! ## What a reader finds -/

theorem lookup_map {β : Type} (f : Obj α → β) (entries : Dict α) (name : String) :
    (entries.map fun entry => (entry.1, f entry.2)).lookup (bytesOf name) =
      (valueUnder name entries).map f := by
  induction entries with
  | nil => rfl
  | cons entry entries ih =>
    obtain ⟨key, value⟩ := entry
    by_cases hkey : key = bytesOf name
    · simp [valueUnder, Dict.get?, hkey]
    · simpa [valueUnder, Dict.get?, List.lookup_cons, hkey, beq_eq_false_iff_ne.mpr (Ne.symm hkey)]
        using ih

/-- Entries of another kind are passed over. -/
theorem lookup_filterMap {β : Type} {f : Obj α → Option β} {entries : Dict α} {name : String}
    {o : Obj α} {b : β} (hname : valueUnder name entries = some o) (hf : f o = some b) :
    (entries.filterMap fun entry => (f entry.2).map (entry.1, ·)).lookup (bytesOf name) =
      some b := by
  induction entries with
  | nil => simp [valueUnder, Dict.get?] at hname
  | cons entry entries ih =>
    obtain ⟨key, value⟩ := entry
    by_cases hkey : key = bytesOf name
    · obtain rfl : value = o := by simpa [valueUnder, Dict.get?, hkey] using hname
      simp [hkey, hf]
    · have hrest := ih (by simpa [valueUnder, Dict.get?, hkey] using hname)
      cases hvalue : f value with
      | none => simpa [hvalue] using hrest
      | some c => simpa [hvalue, List.lookup_cons, beq_eq_false_iff_ne.mpr (Ne.symm hkey)] using hrest

theorem dictOf_reference {doc : Document α} {number : Nat} {d : Dict α}
    (h : doc.find? number = some (.dictionary d)) : doc.dictOf (some (.reference number)) = d := by
  simp [Document.dictOf, getDict?_of_find? h]

/-- The base name that a font goes by, there or behind a reference. -/
def baseFontOf (doc : Document α) (o : Obj α) : Option Bytes :=
  match valueUnder "BaseFont" (doc.dictOf (some o)) with
  | some (.name base) => some base
  | _ => none

theorem lookup_pageFonts (doc : Document α) (d : Dict α) (name : String) :
    (doc.pageFonts d).lookup (bytesOf name) =
      (valueUnder name (doc.pageResources "Font" d)).map (baseFontOf doc) :=
  lookup_map (baseFontOf doc) _ name

variable [Scalar α]

/-- The page with the entry `d` presents `c`, and what `c` names is found among its resources. -/
structure Presents (encode : List (Operation α) → Bytes) (doc : Document α) (names : List String)
    (d : Dict α) (c : Canvas α) : Prop where
  contents : doc.pageContents d = [encode c.operations]
  fonts : ∀ font ∈ c.fonts, (doc.pageFonts d).lookup (bytesOf (fontResourceName font)) =
    some ((lastNamed (fontResourceName font) names).map bytesOf)
  /-- The `k`-th image under the `k`-th name, counted from one. -/
  images : ∀ i (h : i < c.images.length), ∃ stream,
    imageObject c.images[i] = (.stream stream.1 stream.2 : Obj α) ∧
      (doc.pageImages d).lookup (bytesOf (Canvas.imageName (i + 1))) = some stream

theorem Furnished.presents {setting : PageSetting α} {pages : List (Canvas α)} {doc : Document α}
    (h : Furnished setting pages doc) {p : Nat × Canvas α} (hp : p ∈ setting.pages.zip pages) :
    ∃ d, doc.getDict? p.1 = some d ∧ Presents setting.encode doc (fontNames pages) d p.2 := by
  obtain ⟨content, images, marks, hfind, -, -, hcontent, hillustrates⟩ := h.equipped p hp
  obtain ⟨entries, hentries, hprovides⟩ := h.fonts
  have hresources : doc.dictOf (valueUnder "Resources" (pageDict setting content images marks)) =
      Flow.pageResources setting.fonts images := by
    simp [pageDict, valueUnder_ofList, Document.dictOf]
  have hfonts : doc.pageResources "Font" (pageDict setting content images marks) = entries := by
    rw [Document.pageResources, hresources]
    simp [Flow.pageResources, valueUnder_ofList, dictOf_reference hentries]
  have himages : doc.pageResources "XObject" (pageDict setting content images marks) = images := by
    rw [Document.pageResources, hresources]
    cases images <;> simp [Flow.pageResources, valueUnder_ofList, Document.dictOf]
  refine ⟨_, getDict?_of_find? hfind, (isPage_pageDict hcontent).pageContents, fun font hfont => ?_,
    fun i hi => ?_⟩
  · have hmem : font ∈ fontNames pages := mem_fontNames.mpr ⟨p.2, (List.of_mem_zip hp).2, hfont⟩
    obtain ⟨base, number, hbase, hvalue, hobject⟩ := hprovides font hmem
    rw [lookup_pageFonts, hfonts, hvalue, hbase, Option.map_some, baseFontOf,
      dictOf_reference hobject]
    simp [valueUnder_ofList, Obj.nameOf]
  · obtain ⟨number, -, hvalue, hobject⟩ := hillustrates i hi
    obtain ⟨stream, hstream⟩ : ∃ stream : Dict α × Bytes,
        imageObject p.2.images[i] = (.stream stream.1 stream.2 : Obj α) := ⟨(_, _), rfl⟩
    rw [hstream] at hobject
    have hread : doc.streamOf (.reference number) = some stream := by
      simp [Document.streamOf, Document.get, locate?_of_find? hobject (by simp)]
    refine ⟨stream, hstream, lookup_filterMap ?_ hread⟩
    rw [himages, hvalue]

theorem document_presents (encode : List (Operation α) → Bytes) (s : Layout α) :
    (s.document encode).pages.length = s.finished.length ∧
      ∀ p ∈ (s.document encode).pages.zip s.finished, ∃ d,
        (s.document encode).getDict? p.1 = some d ∧
          Presents encode (s.document encode) (fontNames s.finished) d p.2 := by
  obtain ⟨setting, hsetting, hfurnished⟩ := document_furnished encode s
  have hpages : (s.document encode).pages = setting.pages := by
    rw [hfurnished.written.displays.pages, PageSetting.map_shown hfurnished.written.length]
  rw [hpages, ← hsetting.encode]
  exact ⟨hfurnished.written.length, fun p hp => hsetting.encode ▸ hfurnished.presents hp⟩

/-- Whatever is called, if page events draw only through overlays, every finished page has an entry
in the document and is consistent apart from what drawings bring. What it names is found among the
resources of its entry, a standard font as itself unless the document draws in a font that is not
standard but bears the same resource name. -/
theorem replay_contents (encode : List (Operation α) → Bytes) (calls : List (Call α))
    (hevents : ∀ event, .addEvent event ∈ calls → DrawsThrough event) :
    let pages := (replay calls).conclude.finished
    let doc := (replay calls).conclude.document encode
    doc.pages.length = pages.length ∧ ∀ p ∈ doc.pages.zip pages, Consistent (DrawnBy calls) p.2 ∧
      ∃ d, doc.getDict? p.1 = some d ∧ Presents encode doc (fontNames pages) d p.2 ∧
        ∀ font ∈ p.2.fonts, font ∈ standardNames →
          (∀ other ∈ fontNames pages, fontResourceName other = fontResourceName font →
            other ∈ standardNames) →
          (doc.pageFonts d).lookup (bytesOf (fontResourceName font)) = some (some (bytesOf font)) := by
  intro pages doc
  obtain ⟨hlength, hpresents⟩ := document_presents encode (replay calls).conclude
  refine ⟨hlength, fun p hp => ?_⟩
  have hpage : p.2 ∈ pages := (List.of_mem_zip hp).2
  obtain ⟨d, hd, hshown⟩ := hpresents p hp
  refine ⟨(replay_tidy calls hevents).conclude.finished p.2 hpage, d, hd, hshown,
    fun font hfont hstandard hothers => ?_⟩
  rw [hshown.fonts font hfont, lastNamed_standard (mem_fontNames.mpr ⟨p.2, hpage, hfont⟩) hstandard
    hothers]
  rfl

/-- A page in bold Courier, and one on which an event draws in a font named `second`. -/
def stampedCalls (second : String) : List (Call α) :=
  [.addEvent fun info o => if info.number = 2 then o.text "Draft" second 10 40 40 [0, 0, 0] else o,
    .openDocument,
    .add (.text ⟨"Sum", { Font.standard with family := .courier, style := .bold }, none⟩),
    .newPage, .add (.text ⟨"Next", .standard, none⟩)]

theorem stampedCalls_drawsThrough (second : String) : ∀ event,
    .addEvent event ∈ (stampedCalls second : List (Call α)) → DrawsThrough event := by
  intro event hevent info o
  obtain rfl : event = fun info o =>
      if info.number = 2 then o.text "Draft" second 10 40 40 [0, 0, 0] else o := by
    simpa [stampedCalls] using hevent
  simp only
  split
  · exact (Overlaid.refl o).text ..
  · exact .refl o

theorem replay_contents_stamped :
    (∀ event, .addEvent event ∈ (stampedCalls "Times-Bold" : List (Call Single)) →
      DrawsThrough event) ∧
    (replay (stampedCalls (α := Single) "Times-Bold")).conclude.finished.map Canvas.fonts =
      [["Courier-Bold"], ["Helvetica", "Times-Bold"]] ∧
    ∀ p ∈ ((replay (stampedCalls "Times-Bold")).conclude.document encodeOperations).pages.zip
      (replay (stampedCalls (α := Single) "Times-Bold")).conclude.finished,
        Consistent (DrawnBy (stampedCalls "Times-Bold")) p.2 := by
  have hevents := stampedCalls_drawsThrough (α := Single) "Times-Bold"
  have hcontents := replay_contents encodeOperations _ hevents
  exact ⟨hevents, by decide +kernel, fun p hp => (hcontents.2 p hp).1⟩

/-- A font that is not standard takes the place of a standard one. -/
theorem replay_contents_lookalike :
    ¬ ∀ (calls : List (Call ℚ)) (encode : List (Operation ℚ) → Bytes),
      (∀ event, .addEvent event ∈ calls → DrawsThrough event) →
      ∀ p ∈ ((replay calls).conclude.document encode).pages.zip (replay calls).conclude.finished,
        ∀ d, ((replay calls).conclude.document encode).getDict? p.1 = some d →
          ∀ font ∈ p.2.fonts, font ∈ standardNames →
            (((replay calls).conclude.document encode).pageFonts d).lookup
              (bytesOf (fontResourceName font)) = some (some (bytesOf font)) := by
  intro h
  let s := (replay (stampedCalls (α := ℚ) "CourierBold")).conclude
  have hfonts : s.finished.map Canvas.fonts = [["Courier-Bold"], ["CourierBold", "Helvetica"]] := by
    decide +kernel
  have hlast : lastNamed (fontResourceName "Courier-Bold") (fontNames s.finished) =
      some "CourierBold" := by decide +kernel
  obtain ⟨hlength, hpresents⟩ := document_presents (fun _ => []) s
  obtain ⟨c, hc, hcourier⟩ : ∃ c ∈ s.finished, c.fonts = ["Courier-Bold"] :=
    List.mem_map.mp (hfonts ▸ List.mem_cons_self)
  rw [← List.map_snd_zip (Nat.le_of_eq hlength.symm)] at hc
  obtain ⟨p, hp, rfl⟩ := List.mem_map.mp hc
  have hfont : "Courier-Bold" ∈ p.2.fonts := hcourier ▸ List.mem_singleton_self _
  obtain ⟨d, hd, hshown⟩ := hpresents p hp
  have hclaimed := h _ _ (stampedCalls_drawsThrough "CourierBold") p hp d hd _ hfont
    (by simp [standardNames])
  rw [hshown.fonts _ hfont, hlast] at hclaimed
  have hnames : bytesOf "CourierBold" = bytesOf "Courier-Bold" := by simpa using hclaimed
  exact absurd (bytesOf_inj.mp hnames) (by decide)

end Folio.Flow
