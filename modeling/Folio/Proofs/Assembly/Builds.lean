import Folio.Proofs.Assembly.Layouts
import Folio.Proofs.Flow.ShownText
import Folio.Proofs.Pdf.ReadBack
import Folio.Proofs.Pdf.Stamped

/-!
# Finished documents

A build that succeeds hands one document to its destination. Each page of it has what the bare
document has on that page, with the header in front and the overlay of the engine behind, and then
the overlay of the second pass as a stream of its own.
-/
namespace Folio.Assembly

open Style Compile Flow Pdf

variable {β : Type}

/-! ## Closing a document -/

/-- The strokes with which an overlay covers a page. -/
def coverOperations (overlay : Overlay Single) : List (Operation Single) :=
  if overlay.isEmpty then [] else overlay.wrapped

theorem operations_finish (d : Dress Single) (g : Geometry Single) (c : Canvas Single) :
    (d.finish g c).operations = headerOperations g (d.headerOn c.number) ++ c.operations ++
      coverOperations (d.overlayOn g c.number) := by
  unfold Dress.finish coverOperations
  rw [operations_cover, Canvas.under_operations]

/-- The last page is dressed like the others. -/
theorem OpenDressed.finished_conclude {g : Geometry Single} {d : Dress Single}
    {s t : Layout Single} (h : OpenDressed g d s t) :
    t.conclude.finished = s.conclude.finished.map (d.finish g) := by
  obtain ⟨⟨hbare, rfl⟩, hopen⟩ := h
  rw [← hopen.geometry]
  have hempty : (s.dressed d).finished.isEmpty = s.finished.isEmpty := by
    simp [Layout.dressed]
  unfold Layout.conclude
  rw [hbare.dressed.hasContent, hempty]
  split
  · change s.finished.map (d.finish s.geometry) ++
        [(s.dressed d).page.cover (s.dressed d).furniture]
      = (s.finished ++ [s.page.cover s.furniture]).map (d.finish s.geometry)
    rw [Layout.furniture_dressed, hbare.furniture, List.map_append]
    rfl
  · rfl

/-- Pages of a closed document are numbered in order. -/
theorem Open.number_conclude {g : Geometry Single} {s : Layout Single} (h : Open g s) (i : Nat)
    (hi : i < s.conclude.finished.length) : s.conclude.finished[i].number = i + 1 := by
  by_cases hlast : (s.page.hasContent || s.finished.isEmpty) = true
  · have hfinished : s.conclude.finished = s.finishPage.finished := by
      unfold Layout.conclude
      rw [if_pos hlast]
    simp only [hfinished] at hi ⊢
    exact Layout.getElem_finishPage h.paged i hi
  · have hfinished : s.conclude.finished = s.finished := by
      unfold Layout.conclude
      rw [if_neg hlast]
    simp only [hfinished] at hi ⊢
    exact h.paged.numbered i hi

/-- A page of a document: its header, what is drawn on it, and what covers it. -/
def drawnPage (d : Dress Single) (g : Geometry Single) (i : Nat) (body : List (Operation Single)) :
    List (Operation Single) :=
  headerOperations g (d.headerOn (i + 1)) ++ body ++ coverOperations (d.overlayOn g (i + 1))

theorem Open.operations_finish {g : Geometry Single} {s : Layout Single} (h : Open g s)
    (d : Dress Single) : (s.conclude.finished.map (d.finish g)).map (·.operations) =
      (s.conclude.finished.map (·.operations)).mapIdx (drawnPage d g) := by
  refine List.ext_getElem (by simp) fun i hi _ => ?_
  have hnumber := h.number_conclude i (by simpa using hi)
  simp [Assembly.operations_finish, hnumber, drawnPage]

theorem geometry_conclude (s : Layout Single) : s.conclude.geometry = s.geometry := by
  unfold Layout.conclude
  simp only
  split <;> rfl

/-! ## Writing a document -/

/-- The pages of a document by their contents: one stream that the engine drew, and the overlay of
the second pass. -/
structure Holds (doc : Document Single) (drawn : List (List (Operation Single)))
    (stamp : Stamp Single) : Prop where
  length : doc.pages.length = drawn.length
  contents : ∀ i (h : i < drawn.length), ∃ number page width height,
    doc.pages[i]? = some number ∧ doc.getDict? number = some page ∧
      doc.pageContents page = encodeOperations drawn[i] ::
        overlayStreams Overlay.encode (stamp ⟨i + 1, drawn.length, width, height⟩)

theorem run_runDestination {σ : Type} (report : IoFault → PipelineError) (act : DestinationM Unit)
    (p : Progress σ) : (runDestination report act).run p =
      ((act.run p.destination).1.mapError report,
        { p with destination := (act.run p.destination).2 }) := rfl

namespace Assembler

variable {a : Assembler (Layout Single)}

theorem run_close_standard (hengine : a.engine = standardEngine) {q : Progress (Layout Single)}
    (h : q.engine.phase = .opened) : (runEngine a.engine.close).run q =
      (.ok (q.engine.conclude.finished.length,
        .document (q.engine.conclude.document encodeOperations)),
        { q with engine := q.engine.conclude }) := by
  rw [run_runEngine, hengine]
  change (((Flow.close encodeOperations).run q.engine).1.mapError PipelineError.engine,
    { q with engine := ((Flow.close encodeOperations).run q.engine).2 }) = _
  rw [run_close encodeOperations h]
  rfl

/-- A destination that takes what it is given keeps it behind the rest. -/
theorem run_destination_write {report : IoFault → PipelineError} {payload : Payload Single}
    {p after : Progress (Layout Single)}
    (h : (runDestination report (Destination.write payload)).run p = (.ok (), after)) :
    after.destination.written = p.destination.written ++ [payload] := by
  rw [run_runDestination, Destination.write, run_bind, run_get] at h
  simp only at h
  cases hwriting : p.destination.writing payload with
  | some refusal =>
    rw [hwriting] at h
    cases h
  | none =>
    rw [hwriting] at h
    obtain rfl := congrArg Prod.snd h
    rfl

end Assembler

theorem holds_of_displays {doc : Document Single} {pages : List (Nat × List Bytes)}
    {drawn : List (List (Operation Single))} {stamp : Stamp Single} (h : Displays doc pages)
    (hlength : pages.length = drawn.length)
    (hcontents : ∀ i (hi : i < pages.length) (hi' : i < drawn.length), ∃ width height,
      pages[i].2 = encodeOperations drawn[i] ::
        overlayStreams Overlay.encode (stamp ⟨i + 1, drawn.length, width, height⟩)) :
    Holds doc drawn stamp where
  length := by simp [h.pages, hlength]
  contents i hi := by
    have hi' : i < pages.length := hlength ▸ hi
    obtain ⟨width, height, hstreams⟩ := hcontents i hi' hi
    obtain ⟨page, hpage, hpageContents⟩ := h.contents (List.getElem_mem hi')
    refine ⟨pages[i].1, page, width, height, ?_, hpage, hpageContents.trans hstreams⟩
    simp [h.pages, hi']

theorem getElem_shown {setting : PageSetting Single} {pages : List (Canvas Single)}
    (i : Nat) (hi : i < (setting.shown pages).length) (hi' : i < pages.length) :
    (setting.shown pages)[i].2 = [setting.encode pages[i].operations] := by
  simp [PageSetting.shown]

/-- A closed document on which nothing more is drawn. -/
theorem holds_document {t : Layout Single} {stamp : Stamp Single}
    (hempty : ∀ box, (stamp box).isEmpty = true) :
    Holds (t.document encodeOperations) (t.finished.map (·.operations)) stamp := by
  obtain ⟨setting, hsetting, hwritten⟩ := document_writtenAs encodeOperations t
  refine holds_of_displays hwritten.displays ?_ fun i hi hi' => ⟨0, 0, ?_⟩
  · simp [PageSetting.shown, hwritten.length]
  · rw [getElem_shown i hi (by simpa using hi'), hsetting.encode]
    simp [overlayStreams, hempty]

/-- A closed document on which the second pass has drawn. -/
theorem holds_stamped {t : Layout Single} {stamp : Stamp Single} {total : Nat}
    {stamped : Document Single} (hread : ReadsBack t.geometry)
    (hstamped : stampDocument stamp (t.document encodeOperations).stored = .ok (total, stamped)) :
    total = t.finished.length ∧ Holds stamped (t.finished.map (·.operations)) stamp := by
  obtain ⟨setting, hsetting, hwritten⟩ := document_writtenAs encodeOperations t
  have hsize : ReadableSize setting.width setting.height := by
    rw [hsetting.width, hsetting.height]
    exact (readsBack_iff t.geometry).mp hread
  have hlength : (setting.shown t.finished).length = t.finished.length := by
    simp [PageSetting.shown, hwritten.length]
  obtain ⟨htotal, after, hafter, hfrom⟩ :=
    stampDocument_displays (hwritten.stored_displays hsize) hstamped
  rw [hlength] at htotal hfrom
  refine ⟨htotal, holds_of_displays hafter ?_ fun i hi hi' => ?_⟩
  · simp [hfrom.length, hlength]
  · have hshown : i < (setting.shown t.finished).length := hfrom.length ▸ hi
    obtain ⟨width, height, heq⟩ := hfrom.getElem i hi hshown
    refine ⟨width, height, ?_⟩
    rw [heq, getElem_shown i hshown (hlength ▸ hshown), hsetting.encode]
    simp [Nat.add_comm]

/-! ## A whole build -/

namespace Assembler

variable {a : Assembler (Layout Single)}

/-- All that the second pass draws on the pages of a document. -/
def stampOf (a : Assembler (Layout Single)) (config : DocumentConfig) (strategy : OutputStrategy) :
    Stamp Single := pageStamp textWidth (stampedFooter config strategy) a.pageStamps

/-- Without a second pass there is nothing to draw in it. -/
theorem isEmpty_stampOf {config : DocumentConfig}
    (h : OutputStrategy.resolve config a.pageStamps.length = .directWrite) (box : PageBox Single) :
    (a.stampOf config .directWrite box).isEmpty = true := by
  have hstamps : a.pageStamps = [] := by
    unfold OutputStrategy.resolve at h
    split at h
    · cases h
    · next hnone =>
      have hboth : (config.totals = true → config.footer = none) ∧ a.pageStamps = [] := by
        simpa using hnone
      exact hboth.2
  simp [stampOf, pageStamp, stampedFooter, hstamps]

theorem run_write (hengine : a.engine = standardEngine) {config : DocumentConfig}
    {strategy : OutputStrategy}
    (hstrategy : OutputStrategy.resolve config a.pageStamps.length = strategy)
    {q after : Progress (Layout Single)} (hphase : q.engine.phase = .opened)
    (hread : ReadsBack q.engine.geometry) {total : Nat} (hrun : (match strategy with
      | .directWrite => a.writeDirectly
      | .bufferThenStamp => a.writeStamped (stampedFooter config strategy)).run q =
        (.ok total, after)) :
    ∃ doc, after.destination.written = q.destination.written ++ [.document doc] ∧
      total = q.engine.conclude.finished.length ∧
      Holds doc (q.engine.conclude.finished.map (·.operations)) (a.stampOf config strategy) := by
  have hclose := run_close_standard hengine hphase
  cases strategy with
  | directWrite =>
    simp only [writeDirectly] at hrun
    rw [run_bind, hclose] at hrun
    obtain ⟨_, _, hwrite, hrun⟩ := exists_of_run_bind hrun
    cases hrun
    have hkept := run_destination_write hwrite
    exact ⟨_, hkept, rfl, holds_document (isEmpty_stampOf hstrategy)⟩
  | bufferThenStamp =>
    simp only [writeStamped] at hrun
    rw [run_bind, hclose] at hrun
    simp only [hengine] at hrun
    split at hrun
    · cases hrun
    · next pages stamped hstamped =>
      obtain ⟨_, _, hwrite, hrun⟩ := exists_of_run_bind hrun
      cases hrun
      rw [← geometry_conclude] at hread
      obtain ⟨hlength, hholds⟩ := holds_stamped hread hstamped
      have hkept := run_destination_write hwrite
      exact ⟨stamped, hkept, hlength, hholds⟩

/-- There is an answer to go on with. -/
theorem run_of_outcome {act : BuildM (Layout Single) β} {p q : Progress (Layout Single)}
    {r : Except PipelineError β} (h : (outcome act).run p = (.ok r, q)) : act.run p = (r, q) := by
  change outcome act p = _ at h
  unfold outcome at h
  rcases hact : act.run p with ⟨e | b, t⟩
  · simp only [hact] at h
    split at h
    · cases h
      rfl
    · cases h
  · simp only [hact] at h
    cases h
    rfl

theorem run_ofExcept {r : Except PipelineError β} {b : β} {p q : Progress (Layout Single)}
    (h : (ofExcept r : BuildM (Layout Single) β).run p = (.ok b, q)) : r = .ok b ∧ q = p := by
  cases r with
  | error e => cases h
  | ok b' =>
    obtain ⟨hb, rfl⟩ := Prod.mk.inj h
    exact ⟨hb, rfl⟩

theorem run_start {p q : Progress (Layout Single)}
    (h : (runDestination .io Destination.start).run p = (.ok (), q)) :
    q = { p with destination := { p.destination with opened := true } } := by
  rw [run_runDestination, Destination.start, run_bind, run_get] at h
  simp only at h
  cases hopening : p.destination.opening with
  | some fault =>
    rw [hopening] at h
    cases h
  | none =>
    rw [hopening] at h
    exact (congrArg Prod.snd h).symm

/-- Flushing writes nothing more. -/
theorem written_flush (p : Progress (Layout Single)) :
    ((runDestination .io Destination.flush).run p).2.destination.written =
      p.destination.written := by
  rw [run_runDestination, Destination.flush, run_bind, run_modify]
  simp only [run_bind, run_get]
  cases p.destination.flushing <;> rfl

/-- A build that succeeds has assembled a document and flushed it. -/
theorem run_assembled {config : DocumentConfig} {source : Source} {destination : Destination}
    {summary : BuildSummary} {after : Progress (Layout Single)}
    (hrun : (a.run config source).run (a.begin destination) = (.ok summary, after)) :
    ∃ q, (a.assemble config (OutputStrategy.resolve config a.pageStamps.length) source).run
        (a.begin { destination with opened := true }) = (.ok summary.pages, q) ∧
      after.destination.written = q.destination.written := by
  obtain ⟨_, _, hstart, hopened⟩ := exists_of_run_bind hrun
  obtain rfl := run_start hstart
  obtain ⟨result, q, hassemble, hassembled⟩ := exists_of_run_bind hopened
  obtain ⟨flushed, _, hflush, hend⟩ := exists_of_run_bind hassembled
  obtain ⟨pages, _, hpages, hleft⟩ := exists_of_run_bind hend
  obtain ⟨rfl, rfl⟩ := run_ofExcept hpages
  obtain ⟨_, _, hflushed, hsummary⟩ := exists_of_run_bind hleft
  obtain ⟨-, rfl⟩ := run_ofExcept hflushed
  cases hsummary
  have hkept := written_flush q
  rw [run_of_outcome hflush] at hkept
  exact ⟨q, run_of_outcome hassemble, hkept⟩

/-- The bundled engine, without files, renderers, events and stamps. -/
def bundled : Assembler (Layout Single) where
  engine := standardEngine
  renderers _ := none
  resources := Resource.Memory.empty.provider
  bitmaps := .empty
  pageEvents := []
  pageStamps := []

theorem exists_of_pages {config : DocumentConfig} {source : Source} {destination : Destination}
    {total : Nat} (h : ((a.run config source).run (a.begin destination)).1.toOption.map
      (·.pages) = some total) :
    ∃ summary after, (a.run config source).run (a.begin destination) = (.ok summary, after) ∧
      summary.pages = total := by
  rcases hrun : (a.run config source).run (a.begin destination) with ⟨error | summary, after⟩
  · rw [hrun] at h
    cases h
  · rw [hrun] at h
    exact ⟨summary, after, rfl, Option.some.inj h⟩

/-- What is drawn on the pages of the bare document. -/
def bodies (a : Assembler (Layout Single)) (config : DocumentConfig) (source : Source) :
    List (List (Operation Single)) :=
  ((a.laidOut config.bare .directWrite source).run (a.begin .memory)).2.engine.conclude.finished.map
    (·.operations)

/-- A document that was laid out found all its events. -/
theorem exists_of_run_laidOut {config : DocumentConfig} {strategy : OutputStrategy}
    {source : Source} {p q : Progress (Layout Single)}
    (h : (a.laidOut config strategy source).run p = (.ok (), q)) :
    ∀ name ∈ config.pageEvents, ∃ event, a.findEvent name = .ok event := by
  obtain ⟨_, _, hbegun, -⟩ := exists_of_run_bind h
  obtain ⟨_, _, hconfigure, -⟩ := exists_of_run_bind hbegun
  obtain ⟨_, _, -, hconfigure⟩ := exists_of_run_bind hconfigure
  obtain ⟨_, _, -, hconfigure⟩ := exists_of_run_bind hconfigure
  obtain ⟨_, _, -, hevents⟩ := exists_of_run_bind hconfigure
  exact exists_of_run_addEvents hevents

/-- A build that succeeds hands over one document, with the pages of the bare document in their
dress and the overlays of the second pass behind them. -/
theorem run_pages (hengine : a.engine = standardEngine) {config : DocumentConfig} {source : Source}
    {destination : Destination} {summary : BuildSummary} {after : Progress (Layout Single)}
    (hread : ReadsBack config.geometry)
    (hrun : (a.run config source).run (a.begin destination) = (.ok summary, after)) :
    ((a.laidOut config.bare .directWrite source).run (a.begin .memory)).1 = .ok () ∧
      ∃ doc, after.destination.written = destination.written ++ [.document doc] ∧
      summary.pages = (a.bodies config source).length ∧
      Holds doc ((a.bodies config source).mapIdx (drawnPage (a.dressOf config
          (OutputStrategy.resolve config a.pageStamps.length) config.header
          (a.letterheadPage config)) config.geometry))
        (a.stampOf config (OutputStrategy.resolve config a.pageStamps.length)) := by
  obtain ⟨q, hassemble, hkept⟩ := run_assembled hrun
  generalize hstrategy : OutputStrategy.resolve config a.pageStamps.length = strategy at hassemble ⊢
  rw [assemble_eq] at hassemble
  obtain ⟨_, laid, hlaid, hassemble⟩ := exists_of_run_bind hassemble
  have hnames := exists_of_run_laidOut hlaid
  obtain ⟨hresult, hdressed⟩ := laidOut_dressed hengine hnames strategy source
    { destination with opened := true }
  rw [hlaid] at hresult hdressed
  have hlaidOut := hdressed rfl
  have hopen := hlaidOut.engine.2
  have hphase : laid.engine.phase = .opened := hlaidOut.engine.1.phase.trans hopen.phase
  have hgeometry : laid.engine.geometry = config.geometry :=
    hlaidOut.engine.1.geometry.trans hopen.geometry
  obtain ⟨doc, hwritten, htotal, hholds⟩ :=
    run_write hengine hstrategy hphase (hgeometry.symm ▸ hread) hassemble
  have hfinished := hlaidOut.engine.finished_conclude
  refine ⟨hresult.symm, doc, ?_, ?_, ?_⟩
  · rw [hkept, hwritten, hlaidOut.second]
  · simp [htotal, hfinished, bodies]
  · rw [bodies, ← hlaidOut.engine.2.operations_finish, ← hfinished]
    exact hholds

end Assembler

end Folio.Assembly
