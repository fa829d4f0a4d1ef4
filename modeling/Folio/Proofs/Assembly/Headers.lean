import Folio.Proofs.Assembly.Builds

/-!
# Headers

The header is set when the letterhead has been added. A page has it exactly if the page is started
afterwards, and then once; the page that is open at that moment has none. It belongs to the
letterhead, and without a letterhead it is the first page.
-/
namespace Folio.Assembly

open Style Compile Flow Pdf

/-! ## What is drawn stays where it is -/

theorem exists_operations_paints {c d : Canvas Single} (h : Paints c d) :
    ∃ ops, d.operations = c.operations ++ ops := by
  cases h with
  | link | note => exact ⟨[], (List.append_nil _).symm⟩
  | _ => exact ⟨_, rfl⟩

theorem exists_operations_drawsOn {s t : Layout Single} (h : DrawsOn s t) :
    t.finished = s.finished ∧ t.page.number = s.page.number ∧
      ∃ ops, t.page.operations = s.page.operations ++ ops := by
  induction h with
  | refl => exact ⟨rfl, rfl, [], (List.append_nil _).symm⟩
  | tail _ hdraw ih =>
    obtain ⟨hfinished, hnumber, ops, hops⟩ := ih
    cases hdraw with
    | paint hpaint =>
      obtain ⟨more, hmore⟩ := exists_operations_paints hpaint
      exact ⟨hfinished, hpaint.number.trans hnumber, ops ++ more, by simp [hmore, hops]⟩
    | record => exact ⟨hfinished, hnumber, ops, hops⟩

theorem exists_shows_of_step {s t u : Layout Single} {bytes : Bytes} (h : Shows s bytes t)
    (hstep : Step t u) : ∃ bytes, Shows s bytes u := by
  cases hstep with
  | move cursor inset => exact ⟨bytes, h.move cursor inset⟩
  | paint hpaint =>
    obtain ⟨ops, hops⟩ := exists_operations_paints hpaint
    exact ⟨_, h.tail (.draw ⟨rfl, rfl, rfl, rfl, rfl, rfl⟩ rfl hpaint.number hops)⟩
  | fill hdraws =>
    obtain ⟨hfinished, hnumber, ops, hops⟩ := exists_operations_drawsOn hdraws
    exact ⟨_, (h.tail (.draw (drawsOn_sameSetting hdraws) hfinished hnumber hops)).markContent⟩
  | turn => exact ⟨bytes, h.turn⟩

theorem exists_shows_of_steps {s t u : Layout Single} {bytes : Bytes} (h : Shows s bytes t)
    (hsteps : Steps t u) : ∃ bytes, Shows s bytes u := by
  induction hsteps with
  | refl => exact ⟨bytes, h⟩
  | tail _ hstep ih =>
    obtain ⟨bytes, hshows⟩ := ih
    exact exists_shows_of_step hshows hstep

/-- An open layout that goes on from `s`. -/
structure GoesOn (s t : Layout Single) : Prop where
  phase : t.phase = .opened
  shows : ∃ bytes, Shows s bytes t

theorem GoesOn.steps {s t u : Layout Single} (h : GoesOn s t) (hsteps : Steps t u) :
    GoesOn s u := by
  obtain ⟨bytes, hshows⟩ := h.shows
  exact ⟨(steps_sameSetting hsteps).phase.trans h.phase, exists_shows_of_steps hshows hsteps⟩

/-- Whatever is appended, the layout goes on. -/
theorem respects_goesOn (s : Layout Single) {setting : Setting (Layout Single)}
    (hengine : setting.engine = standardEngine) :
    Respects (fun t u => u = t ∧ GoesOn s t) setting where
  add n := by
    rintro _ t ⟨rfl, ht⟩
    rw [hengine]
    refine ⟨rfl, rfl, ?_⟩
    change GoesOn s ((add n).run t).2
    rw [run_add ht.phase]
    exact ht.steps (addBlock_walks n t)
  newPage := by
    rintro _ t ⟨rfl, ht⟩
    rw [hengine]
    refine ⟨rfl, rfl, ?_⟩
    change GoesOn s (newPage.run t).2
    rw [run_newPage ht.phase]
    split
    · next hused => exact ht.steps (t.breakPage_steps hused)
    · exact ht
  number := by
    rintro t _ ⟨rfl, -⟩
    rfl

theorem prefix_finishedPages {furniture : Nat → List (Operation Single)} {number : Nat}
    {base : List (Operation Single)} {parts : List (List (Operation Single))}
    {first : List (Operation Single)}
    (h : first ∈ (finishedPages furniture number base parts).head?) : base <+: first := by
  cases parts with
  | nil => cases h
  | cons part parts =>
    obtain rfl : base ++ part ++ furniture number = first := by
      simpa [finishedPages] using h
    rw [List.append_assoc]
    exact List.prefix_append _ _

/-- The pages of a document that is closed are the pages that were finished at some moment before,
and then the page that was open, which has kept its beginning, and later ones. -/
theorem GoesOn.exists_pages {s t : Layout Single} (h : GoesOn s t) (hheader : s.header = none) :
    ∃ pages, t.conclude.finished.map (·.operations) = s.finished.map (·.operations) ++ pages ∧
      ∀ first ∈ pages.head?, s.page.operations <+: first := by
  obtain ⟨bytes, hshows⟩ := h.shows
  obtain ⟨parts, last, hspread, -⟩ := spread_of_shows hshows hheader
  unfold Layout.conclude
  simp only
  split
  · have hcover : (t.page.cover t.furniture).operations =
        t.page.operations ++ furnitureOn t t.page.number := operations_cover ..
    refine ⟨finishedPages (furnitureOn s) s.page.number s.page.operations (parts ++ [last]), ?_,
      fun first hfirst => prefix_finishedPages hfirst⟩
    simp only [Layout.finishPage, List.map_append, List.map_cons, List.map_nil, hcover,
      hspread.finished, hspread.opened, hspread.number, hspread.setting.furnitureOn_eq,
      finishedPages_concat, List.append_assoc]
  · exact ⟨_, hspread.finished, fun first hfirst => prefix_finishedPages hfirst⟩

namespace Assembler

variable {a : Assembler (Layout Single)}

/-- Without a letterhead it is the first page that is open. -/
theorem letterheadPage_nil (hengine : a.engine = standardEngine) {config : DocumentConfig}
    (h : config.letterhead = []) : a.letterheadPage config = 1 := by
  have hletterhead : config.bare.letterhead = [] := h
  unfold letterheadPage letterhead
  rw [run_begun hengine (by simp [DocumentConfig.bare]), hletterhead]
  rfl

theorem open_letterhead (hengine : a.engine = standardEngine) (config : DocumentConfig) :
    Open config.geometry (a.letterhead config) := by
  have hnames : ∀ name ∈ config.bare.pageEvents, ∃ event, a.findEvent name = .ok event := by
    simp [DocumentConfig.bare]
  exact (begun_dressed hengine hnames .directWrite .memory).2.engine.2

/-- The pages of the bare document begin with what the letterhead has left. -/
theorem exists_bodies (hengine : a.engine = standardEngine) {config : DocumentConfig}
    {source : Source}
    (h : ((a.laidOut config.bare .directWrite source).run (a.begin .memory)).1 = .ok ()) :
    ∃ pages, a.bodies config source =
        (a.letterhead config).finished.map (·.operations) ++ pages ∧
      ∀ first ∈ pages.head?, (a.letterhead config).page.operations <+: first := by
  have hphase := (a.open_letterhead hengine config).phase
  unfold letterhead at hphase ⊢
  unfold bodies
  unfold laidOut at h ⊢
  rw [run_bind] at h ⊢
  rcases hbegun : (a.begun config.bare .directWrite).run (a.begin .memory) with ⟨r, p⟩
  rw [hbegun] at h hphase
  cases r with
  | error e => cases h
  | ok u =>
    let s := p.engine.setHeader none
    have hrespects : Respects (fun t u => u = t ∧ GoesOn s t) (a.setting config.bare) :=
      respects_goesOn s hengine
    have hset : Alongside (fun t u => u = t ∧ GoesOn s t) p.destination p.destination
        { p with engine := s } { p with engine := s } :=
      ⟨⟨rfl, hphase, [], .refl⟩, rfl, rfl, rfl⟩
    have hrest := related_appendSource hrespects source _ _ hset
    simp only [hengine]
    exact hrest.2.engine.2.exists_pages rfl

/-- The header of a page, if it was started after the letterhead. -/
def headerText? (a : Assembler (Layout Single)) (config : DocumentConfig) (number : Nat) :
    Option String := if number ≤ a.letterheadPage config then none else config.header

/-- What the engine draws over a page when it is finished, which does not depend on the header. -/
def furnitureOf (a : Assembler (Layout Single)) (config : DocumentConfig) (number : Nat) :
    Overlay Single :=
  (a.dressOf config (.resolve config a.pageStamps.length) none 0).overlayOn config.geometry number

/-- A finished page starts with its header, if it has one, and then comes what the document without
a header has there. -/
def Headed (a : Assembler (Layout Single)) (config : DocumentConfig) (number total : Nat)
    (body : List (Operation Single)) (contents : List Bytes) : Prop :=
  ∃ width height, contents =
    encodeOperations (headerOperations config.geometry (a.headerText? config number) ++ body ++
      coverOperations (a.furnitureOf config number)) ::
    overlayStreams Overlay.encode
      (a.stampOf config (.resolve config a.pageStamps.length) ⟨number, total, width, height⟩)

/-- The pages of a finished document have the header, once each, from the first page on that is
started after the letterhead. What the letterhead draws is on the pages up to the one that is open
when it ends, and they have no header; without a letterhead that is still the first page. -/
theorem run_headers (hengine : a.engine = standardEngine) {config : DocumentConfig}
    {source : Source} {destination : Destination} {summary : BuildSummary}
    {after : Progress (Layout Single)} (hread : ReadsBack config.geometry)
    (hrun : (a.run config source).run (a.begin destination) = (.ok summary, after)) :
    ∃ doc, after.destination.written = destination.written ++ [.document doc] ∧
      doc.pages.length = summary.pages ∧
      a.letterheadPage config = (a.letterhead config).finished.length + 1 ∧
      (config.letterhead = [] → a.letterheadPage config = 1) ∧
      (∃ pages, a.bodies config source =
          (a.letterhead config).finished.map (·.operations) ++ pages ∧
        ∀ first ∈ pages.head?, (a.letterhead config).page.operations <+: first) ∧
      ∀ i < summary.pages, ∃ number page body, doc.pages[i]? = some number ∧
        doc.getDict? number = some page ∧ (a.bodies config source)[i]? = some body ∧
        Headed a config (i + 1) summary.pages body (doc.pageContents page) := by
  obtain ⟨hbare, doc, hwritten, htotal, hholds⟩ := run_pages hengine hread hrun
  refine ⟨doc, hwritten, ?_, (a.open_letterhead hengine config).paged.number,
    letterheadPage_nil hengine, exists_bodies hengine hbare, fun i hi => ?_⟩
  · simp [hholds.length, htotal]
  · have hbody : i < (a.bodies config source).length := htotal ▸ hi
    obtain ⟨number, page, width, height, hnumber, hpage, hcontents⟩ :=
      hholds.contents i (by simpa using hbody)
    refine ⟨number, page, (a.bodies config source)[i], hnumber, hpage,
      List.getElem?_eq_getElem hbody, width, height, ?_⟩
    rw [hcontents, List.getElem_mapIdx]
    simp only [List.length_mapIdx, ← htotal]
    rfl

/-- A document of two pages with a letterhead on the first one. -/
def headedConfig : DocumentConfig :=
  { DocumentConfig.standard with
    header := some "Confidential"
    letterhead := [.string "Folio"]
    footer := none }

theorem run_headers_twoPages : ∃ summary after doc,
    (bundled.run headedConfig (.held [.array [.string "pagebreak"], .string "Hello"])).run
        (bundled.begin .memory) = (.ok summary, after) ∧
      after.destination.written = [.document doc] ∧ doc.pages.length = 2 ∧
      bundled.letterheadPage headedConfig = 1 ∧
      ∃ number page body, doc.pages[1]? = some number ∧ doc.getDict? number = some page ∧
        Headed bundled headedConfig 2 2 body (doc.pageContents page) := by
  have hread : ReadsBack headedConfig.geometry := (readsBack_iff _).mpr (by decide +kernel)
  obtain ⟨summary, after, hrun, htotal⟩ : ∃ summary after,
      (bundled.run headedConfig (.held [.array [.string "pagebreak"], .string "Hello"])).run
        (bundled.begin .memory) = (.ok summary, after) ∧ summary.pages = 2 :=
    exists_of_pages (by decide +kernel)
  obtain ⟨doc, hwritten, hlength, -, -, -, hheaded⟩ := run_headers rfl hread hrun
  rw [htotal] at hlength hheaded
  obtain ⟨number, page, body, hnumber, hpage, -, hbody⟩ := hheaded 1 (by decide)
  exact ⟨summary, after, doc, hrun, hwritten, hlength, by decide +kernel, number, page, body,
    hnumber, hpage, hbody⟩

/-- A header, and no letterhead in front of it. -/
def plainHeaded : DocumentConfig :=
  { DocumentConfig.standard with header := some "Confidential", footer := none }

/-- Without a letterhead the first page is started before the header is set, and goes without: all
that is written on it is the item. -/
theorem run_headers_firstPage : plainHeaded.header = some "Confidential" ∧
    plainHeaded.letterhead = [] ∧ ∃ summary after doc number page ops,
      (bundled.run plainHeaded (.held [.string "Hello"])).run (bundled.begin .memory) =
          (.ok summary, after) ∧
        after.destination.written = [.document doc] ∧ doc.pages = [number] ∧
        doc.getDict? number = some page ∧ doc.pageContents page = [encodeOperations ops] ∧
        shown ops = Text.encodeLatin1 "Hello" := by
  have hread : ReadsBack plainHeaded.geometry := (readsBack_iff _).mpr (by decide +kernel)
  have hshown : ((bundled.bodies plainHeaded (.held [.string "Hello"])).mapIdx
      (drawnPage (bundled.dressOf plainHeaded .directWrite plainHeaded.header
        (bundled.letterheadPage plainHeaded)) plainHeaded.geometry)).map shown =
      [Text.encodeLatin1 "Hello"] := by
    decide +kernel
  obtain ⟨ops, hops, htext⟩ := List.map_eq_singleton_iff.mp hshown
  obtain ⟨summary, after, hrun, -⟩ : ∃ summary after,
      (bundled.run plainHeaded (.held [.string "Hello"])).run (bundled.begin .memory) =
        (.ok summary, after) ∧ summary.pages = 1 := exists_of_pages (by decide +kernel)
  obtain ⟨-, doc, hwritten, -, hholds⟩ := run_pages rfl hread hrun
  have hdirect : OutputStrategy.resolve plainHeaded bundled.pageStamps.length = .directWrite := rfl
  rw [hdirect, hops] at hholds
  obtain ⟨number, page, width, height, hnumber, hpage, hcontents⟩ :=
    hholds.contents 0 Nat.one_pos
  obtain ⟨other, hother⟩ := List.length_eq_one_iff.mp hholds.length
  obtain rfl : other = number := by simpa [hother] using hnumber
  have hstamp : (bundled.stampOf plainHeaded .directWrite ⟨1, 1, width, height⟩).isEmpty = true :=
    isEmpty_stampOf rfl _
  refine ⟨rfl, rfl, summary, after, doc, other, page, ops, hrun, hwritten, hother, hpage,
    hcontents.trans ?_, htext⟩
  simp [overlayStreams, hstamp]

end Assembler

end Folio.Assembly
