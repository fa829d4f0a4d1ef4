import Folio.Assembly.Assembler
import Folio.Proofs.Flow.Dressed

/-!
# A document before it is written

Up to the moment when it is written a build lays a document out. It does the same whatever header,
footer and events the document has: the layout that it ends with is the layout of the bare
document, dressed. The header is set when the letterhead has been added, so the page that is open
then, and every page before it, goes without.
-/
namespace Folio.Assembly

open Style Compile Flow Pdf

variable {σ β : Type}

/-! ## Builds side by side -/

/-- Two builds whose engines are related; neither has touched its destination. -/
structure Alongside (R : σ → σ → Prop) (first second : Destination) (p q : Progress σ) : Prop where
  engine : R p.engine q.engine
  compiler : q.compiler = p.compiler
  first : p.destination = first
  second : q.destination = second

theorem run_runEngine (act : EngineM σ β) (p : Progress σ) : (runEngine act).run p =
    ((act.run p.engine).1.mapError .engine, { p with engine := (act.run p.engine).2 }) := rfl

theorem run_runEngine_of_ok {act : EngineM σ β} {p : Progress σ} {b : β} {t : σ}
    (h : act.run p.engine = (.ok b, t)) :
    (runEngine act).run p = (.ok b, { p with engine := t }) := by
  rw [run_runEngine, h]
  rfl

theorem run_runCompiler (act : CompileM Single β) (p : Progress σ) : (runCompiler act).run p =
    ((act.run p.compiler).1.mapError .compile, { p with compiler := (act.run p.compiler).2 }) := rfl

theorem run_runCompiler_of_ok {act : CompileM Single β} {p : Progress σ} {b : β}
    {t : State Single} (h : act.run p.compiler = (.ok b, t)) :
    (runCompiler act).run p = (.ok b, { p with compiler := t }) := by
  rw [run_runCompiler, h]
  rfl

section

variable {R : σ → σ → Prop} {first second : Destination}

theorem related_runEngine {act : EngineM σ β} (h : Related R act) :
    Related (Alongside R first second) (runEngine act) := by
  intro p q hpq
  obtain ⟨hresult, hengine⟩ := h _ _ hpq.engine
  exact ⟨congrArg (Except.mapError PipelineError.engine) hresult,
    hengine, hpq.compiler, hpq.first, hpq.second⟩

theorem related_runCompiler (act : CompileM Single β) :
    Related (Alongside R first second) (runCompiler act : BuildM σ β) := by
  intro p q hpq
  rw [run_runCompiler, run_runCompiler, hpq.compiler]
  exact ⟨rfl, hpq.engine, rfl, hpq.first, hpq.second⟩

/-- An engine to which related states are the same. -/
structure Respects (R : σ → σ → Prop) (s : Setting σ) : Prop where
  add : ∀ n, Related R (s.engine.add n)
  newPage : Related R s.engine.newPage
  number : ∀ p q, R p q → s.engine.pageNumber q = s.engine.pageNumber p

variable {s : Setting σ}

theorem related_addItem (h : Respects R s) (item : Json) :
    Related (Alongside R first second) (addItem s item) :=
  related_bind (related_runCompiler _) fun n => related_runEngine (h.add n)

theorem related_newPage (h : Respects R s) :
    Related (Alongside R first second) (runEngine s.engine.newPage) := related_runEngine h.newPage

theorem related_clearDoublePage (h : Respects R s) :
    Related (Alongside R first second) (clearDoublePage s) := by
  refine related_bind (related_newPage h) fun _ => related_get_bind fun p q hpq => ?_
  rw [h.number _ _ hpq.engine]
  split
  · exact related_bind (related_addItem h _)
      (fun _ => related_bind (related_newPage h) fun _ => related_pure ()) p q hpq
  · exact related_pure () p q hpq

theorem related_appendSingle (h : Respects R s) (item : Json) :
    Related (Alongside R first second) (appendSingle s item) := by
  unfold appendSingle
  split
  · exact related_bind (related_newPage h) fun _ => related_pure ()
  · exact related_clearDoublePage h
  · exact related_addItem h _

theorem related_appendEach (h : Respects R s) (items : List Json) :
    Related (Alongside R first second) (appendEach s items) := by
  induction items with
  | nil => exact related_pure ()
  | cons item items ih => exact related_bind (related_appendSingle h item) fun _ => ih

theorem related_appendAll (h : Respects R s) (items : List Json) :
    Related (Alongside R first second) (appendAll s items) := by
  induction items with
  | nil => exact related_pure ()
  | cons item items ih => exact related_bind (related_appendEach h _) fun _ => ih

/-- All items of a source, up to its end or to a fault in it. -/
theorem related_appendSource (h : Respects R s) (source : Source) :
    Related (Alongside R first second) (do
      appendAll s source.drain.1
      if source.drain.2 then throw .malformed) :=
  related_bind (related_appendAll h _) fun _ => by
    split
    · exact related_throw _
    · exact related_pure ()

end

/-! ## Laying out -/

namespace Assembler

/-- A document up to its letterhead. -/
def begun (a : Assembler σ) (config : DocumentConfig) (strategy : OutputStrategy) :
    BuildM σ Unit := do
  a.configure config strategy
  runEngine a.engine.openDocument
  appendAll (a.setting config) config.letterhead

/-- A document with all its items. -/
def laidOut (a : Assembler σ) (config : DocumentConfig) (strategy : OutputStrategy)
    (source : Source) : BuildM σ Unit := do
  a.begun config strategy
  setEngine (a.engine.setHeader config.header)
  appendAll (a.setting config) source.drain.1
  if source.drain.2 then throw .malformed

/-- A document is laid out and then written. -/
theorem assemble_eq (a : Assembler σ) (config : DocumentConfig) (strategy : OutputStrategy)
    (source : Source) : a.assemble config strategy source =
      (a.laidOut config strategy source >>= fun _ => match strategy with
        | .directWrite => a.writeDirectly
        | .bufferThenStamp => a.writeStamped (stampedFooter config strategy)) := by
  unfold assemble laidOut begun
  simp only [bind_assoc]
  cases source.drain.2 with
  | true => rfl
  | false => rfl

/-- The events that a document asks for, as far as there are any of that name. -/
def eventsOf (a : Assembler σ) (names : List String) : List (PageEvent Single) :=
  names.filterMap fun name => (a.findEvent name).toOption

end Assembler

/-! ## The bundled engine -/

/-- The document with nothing around its pages. -/
def DocumentConfig.bare (config : DocumentConfig) : DocumentConfig :=
  { config with header := none, footer := none, pageEvents := [] }

/-- An open document whose pages are of a size and in sequence. -/
structure Open (g : Geometry Single) (s : Layout Single) : Prop where
  phase : s.phase = .opened
  geometry : s.geometry = g
  paged : Paged s

variable {g : Geometry Single}

theorem Open.steps {s t : Layout Single} (h : Open g s) (hsteps : Steps s t) : Open g t :=
  ⟨(steps_sameSetting hsteps).phase.trans h.phase,
    (steps_sameSetting hsteps).geometry.trans h.geometry, Layout.steps_paged hsteps h.paged⟩

theorem Open.add {s : Layout Single} (h : Open g s) (n : Node Single) :
    Open g ((add n).run s).2 := by
  rw [run_add h.phase]
  exact h.steps (addBlock_walks n s)

theorem Open.newPage {s : Layout Single} (h : Open g s) : Open g (newPage.run s).2 := by
  rw [run_newPage h.phase]
  split
  · next hused => exact h.steps (s.breakPage_steps hused)
  · exact h

/-- One layout is the other one, dressed, and is open. -/
def OpenDressed (g : Geometry Single) (d : Dress Single) (s t : Layout Single) : Prop :=
  Layout.Dressed d s t ∧ Open g s

theorem related_openDressed {d : Dress Single} {act : FlowM Single β}
    (h : Related (Layout.Dressed d) act) (hopen : ∀ s, Open g s → Open g (act.run s).2) :
    Related (OpenDressed g d) act := fun s t hst =>
  ⟨(h s t hst.1).1, (h s t hst.1).2, hopen s hst.2⟩

theorem respects_openDressed (d : Dress Single) {s : Setting (Layout Single)}
    (hengine : s.engine = standardEngine) : Respects (OpenDressed g d) s where
  add n := by
    rw [hengine]
    exact related_openDressed (add_related n) fun _ h => h.add n
  newPage := by
    rw [hengine]
    exact related_openDressed newPage_related fun _ h => h.newPage
  number p q h := by
    rw [hengine]
    exact h.1.number

namespace Assembler

variable {a : Assembler (Layout Single)}

theorem run_addEvents (hengine : a.engine = standardEngine) {names : List String}
    (hnames : ∀ name ∈ names, ∃ event, a.findEvent name = .ok event)
    (p : Progress (Layout Single)) :
    (a.addEvents names).run p = (.ok (), { p with
      engine := { p.engine with events := p.engine.events ++ a.eventsOf names } }) := by
  induction names generalizing p with
  | nil => simp [addEvents, eventsOf]
  | cons name names ih =>
    obtain ⟨event, hevent⟩ := hnames name List.mem_cons_self
    unfold addEvents
    simp only [hevent]
    rw [run_bind, setEngine, run_modify]
    simp only
    rw [ih fun name hname => hnames name (List.mem_cons_of_mem _ hname), hengine]
    simp [eventsOf, hevent, Except.toOption, standardEngine, Flow.engine, Layout.addEvent]

theorem exists_of_run_addEvents {names : List String} {p q : Progress (Layout Single)}
    (h : (a.addEvents names).run p = (.ok (), q)) :
    ∀ name ∈ names, ∃ event, a.findEvent name = .ok event := by
  induction names generalizing p with
  | nil => exact fun name hname => by cases hname
  | cons name names ih =>
    unfold addEvents at h
    cases hevent : a.findEvent name with
    | error e =>
      simp only [hevent] at h
      cases h
    | ok event =>
      simp only [hevent] at h
      rw [run_bind, setEngine, run_modify] at h
      intro other hother
      rcases List.mem_cons.mp hother with rfl | hother
      · exact ⟨event, hevent⟩
      · exact ih h other hother

/-- An engine that is set up but not open. -/
def configured (a : Assembler (Layout Single)) (config : DocumentConfig)
    (strategy : OutputStrategy) : Layout Single :=
  { Layout.initial with
    geometry := config.geometry
    cursor := Layout.top config.geometry
    info := config.info
    footer := engineFooter config strategy
    events := a.eventsOf config.pageEvents }

theorem run_configure (hengine : a.engine = standardEngine) {config : DocumentConfig}
    (hnames : ∀ name ∈ config.pageEvents, ∃ event, a.findEvent name = .ok event)
    (strategy : OutputStrategy) (destination : Destination) :
    (a.configure config strategy).run (a.begin destination) =
      (.ok (), ⟨a.configured config strategy, .initial, destination⟩) := by
  unfold configure
  simp only [run_bind, setEngine, run_modify]
  rw [run_addEvents hengine hnames, begin, hengine]
  rfl

/-- The dress of a document with a header that was set behind page `headless`. -/
def dressOf (a : Assembler (Layout Single)) (config : DocumentConfig) (strategy : OutputStrategy)
    (header : Option String) (headless : Nat) : Dress Single :=
  ⟨header, headless, engineFooter config strategy, a.eventsOf config.pageEvents⟩

/-- An engine on its first page. -/
def opened (a : Assembler (Layout Single)) (config : DocumentConfig) (strategy : OutputStrategy) :
    Layout Single := { a.configured config strategy with phase := .opened }.startPage 1

theorem open_opened (a : Assembler (Layout Single)) (config : DocumentConfig)
    (strategy : OutputStrategy) : Open config.geometry (a.opened config strategy) where
  phase := rfl
  geometry := rfl
  paged := ⟨rfl, fun _ h => absurd h (Nat.not_lt_zero _), fun _ h => absurd h List.not_mem_nil,
    fun _ h => absurd h List.not_mem_nil⟩

theorem opened_dressed (a : Assembler (Layout Single)) (config : DocumentConfig)
    (strategy : OutputStrategy) :
    OpenDressed config.geometry (a.dressOf config strategy none 0)
      (a.opened config.bare .directWrite) (a.opened config strategy) :=
  ⟨⟨⟨rfl, rfl, rfl, Nat.zero_le _⟩, rfl⟩, open_opened a config.bare .directWrite⟩

theorem run_begun (hengine : a.engine = standardEngine) {config : DocumentConfig}
    (hnames : ∀ name ∈ config.pageEvents, ∃ event, a.findEvent name = .ok event)
    (strategy : OutputStrategy) (destination : Destination) :
    (a.begun config strategy).run (a.begin destination) =
      (appendAll (a.setting config) config.letterhead).run
        ⟨a.opened config strategy, .initial, destination⟩ := by
  unfold begun
  rw [run_bind, run_configure hengine hnames]
  simp only [run_bind, run_runEngine, hengine]
  rfl

/-- Up to its letterhead a document does not depend on what surrounds its pages. -/
theorem begun_dressed (hengine : a.engine = standardEngine) {config : DocumentConfig}
    (hnames : ∀ name ∈ config.pageEvents, ∃ event, a.findEvent name = .ok event)
    (strategy : OutputStrategy) (destination : Destination) :
    ((a.begun config strategy).run (a.begin destination)).1 =
        ((a.begun config.bare .directWrite).run (a.begin .memory)).1 ∧
      Alongside (OpenDressed config.geometry (a.dressOf config strategy none 0)) .memory destination
        ((a.begun config.bare .directWrite).run (a.begin .memory)).2
        ((a.begun config strategy).run (a.begin destination)).2 := by
  rw [run_begun hengine hnames, run_begun hengine (by simp [DocumentConfig.bare])]
  have happend : Related (Alongside (OpenDressed config.geometry
      (a.dressOf config strategy none 0)) .memory destination)
      (appendAll (a.setting config) config.letterhead) :=
    related_appendAll (respects_openDressed _ hengine) _
  exact happend _ _ ⟨a.opened_dressed config strategy, rfl, rfl, rfl⟩

/-- The bare document when the letterhead has been added. -/
def letterhead (a : Assembler (Layout Single)) (config : DocumentConfig) : Layout Single :=
  ((a.begun config.bare .directWrite).run (a.begin .memory)).2.engine

/-- The page that is open when the letterhead has been added. -/
def letterheadPage (a : Assembler (Layout Single)) (config : DocumentConfig) : Nat :=
  (a.letterhead config).page.number

end Assembler

theorem headerOn_of_le {d : Dress Single} {number : Nat} (h : number ≤ d.headless) :
    d.headerOn number = none := if_pos h

/-- No page that was started before has the header that is set. -/
theorem OpenDressed.setHeader {d : Dress Single} {s t : Layout Single} (h : OpenDressed g d s t)
    (hheader : d.header = none) (header : Option String) :
    OpenDressed g { d with header, headless := s.page.number } (s.setHeader none)
      (t.setHeader header) := by
  obtain ⟨⟨hbare, rfl⟩, hopen⟩ := h
  have hnone (number : Nat) : d.headerOn number = none := by
    unfold Dress.headerOn
    rw [hheader, ite_self]
  refine ⟨⟨⟨rfl, hbare.footer, hbare.events, Nat.le_refl _⟩, ?_⟩, hopen.phase, hopen.geometry,
    ⟨hopen.paged.number, hopen.paged.numbered, hopen.paged.used, hopen.paged.placed⟩⟩
  have hpage : ({ d with header, headless := s.page.number } : Dress Single).headerOn s.page.number
      = none := headerOn_of_le (Nat.le_refl _)
  have hfinished : s.finished.map (d.finish s.geometry) =
      s.finished.map (Dress.finish { d with header, headless := s.page.number } s.geometry) := by
    refine List.map_congr_left fun c hc => ?_
    obtain ⟨i, hi, rfl⟩ := List.mem_iff_getElem.mp hc
    have hle : s.finished[i].number ≤ s.page.number := by
      rw [hopen.paged.numbered i hi, hopen.paged.number]
      omega
    have hold := headerOn_of_le (d := { d with header, headless := s.page.number }) hle
    unfold Dress.finish
    rw [hnone, hold]
    rfl
  simp only [Layout.setHeader, Layout.dressed, hpage, hnone, hfinished, Canvas.under_none]

namespace Assembler

variable {a : Assembler (Layout Single)}

/-- A document is laid out as the bare document is, and dressed. -/
theorem laidOut_dressed (hengine : a.engine = standardEngine) {config : DocumentConfig}
    (hnames : ∀ name ∈ config.pageEvents, ∃ event, a.findEvent name = .ok event)
    (strategy : OutputStrategy) (source : Source) (destination : Destination) :
    ((a.laidOut config strategy source).run (a.begin destination)).1 =
        ((a.laidOut config.bare .directWrite source).run (a.begin .memory)).1 ∧
      (((a.laidOut config strategy source).run (a.begin destination)).1 = .ok () →
        Alongside (OpenDressed config.geometry
            (a.dressOf config strategy config.header (a.letterheadPage config)))
          .memory destination
          ((a.laidOut config.bare .directWrite source).run (a.begin .memory)).2
          ((a.laidOut config strategy source).run (a.begin destination)).2) := by
  obtain ⟨hresult, hstate⟩ := begun_dressed hengine hnames strategy destination
  unfold laidOut
  rw [run_bind, run_bind]
  rcases hp : (a.begun config.bare .directWrite).run (a.begin .memory) with ⟨r, p⟩
  rcases hq : (a.begun config strategy).run (a.begin destination) with ⟨r', q⟩
  have hnumber : a.letterheadPage config = p.engine.page.number := by
    rw [letterheadPage, letterhead, hp]
  simp only [hp, hq] at hresult hstate
  subst hresult
  cases r' with
  | error e => exact ⟨rfl, fun h => by cases h⟩
  | ok u =>
    have hset : Alongside (OpenDressed config.geometry (a.dressOf config strategy config.header
        (a.letterheadPage config))) .memory destination
        { p with engine := p.engine.setHeader none }
        { q with engine := q.engine.setHeader config.header } := by
      rw [hnumber]
      exact ⟨hstate.engine.setHeader rfl config.header, hstate.compiler, hstate.first,
        hstate.second⟩
    have hrespects : Respects (OpenDressed config.geometry (a.dressOf config strategy config.header
        (a.letterheadPage config))) (a.setting config) := respects_openDressed _ hengine
    have hrest := related_appendSource hrespects source _ _ hset
    simp only [hengine]
    exact ⟨hrest.1, fun _ => hrest.2⟩

end Assembler

end Folio.Assembly
