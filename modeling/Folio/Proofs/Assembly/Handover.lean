import Folio.Proofs.Assembly.Builds

/-!
# Handing a document over

A build calls its destination three times: to open it, to hand the finished document over and to
flush it. All that can go wrong with a document goes wrong between the first two of these calls, so
a document that fails leaves the destination as it was opened, up to the flush.
-/
namespace Folio.Assembly

open Style Compile Flow Pdf

variable {σ β : Type}

/-! ## Up to the handover -/

theorem related_eq (act : EngineM σ β) : Related Eq act := fun _ _ h => h ▸ ⟨rfl, rfl⟩

theorem respects_eq (s : Setting σ) : Respects Eq s where
  add _ := related_eq _
  newPage := related_eq _
  number _ _ h := h ▸ rfl

section

variable {first second : Destination}

theorem related_setEngine (f : σ → σ) : Related (Alongside Eq first second) (setEngine f) :=
  related_modify fun _ _ h => ⟨congrArg f h.engine, h.compiler, h.first, h.second⟩

theorem related_ofExcept {R : σ → σ → Prop} (r : Except PipelineError β) :
    Related (Alongside R first second) (ofExcept r : BuildM σ β) := by
  cases r with
  | error e => exact related_throw e
  | ok b => exact related_pure b

namespace Assembler

variable (a : Assembler σ)

theorem related_addEvents (names : List String) :
    Related (Alongside Eq first second) (a.addEvents names) := by
  induction names with
  | nil => exact related_pure ()
  | cons name names ih =>
    unfold addEvents
    split
    · exact related_bind (related_setEngine _) fun _ => ih
    · exact related_bind (related_throw _) fun _ => ih

theorem related_configure (config : DocumentConfig) (strategy : OutputStrategy) :
    Related (Alongside Eq first second) (a.configure config strategy) :=
  related_bind (related_setEngine _) fun _ => related_bind (related_setEngine _) fun _ =>
    related_bind (related_setEngine _) fun _ => a.related_addEvents _

theorem related_begun (config : DocumentConfig) (strategy : OutputStrategy) :
    Related (Alongside Eq first second) (a.begun config strategy) :=
  related_bind (a.related_configure config strategy) fun _ =>
    related_bind (related_runEngine (related_eq _)) fun _ => related_appendAll (respects_eq _) _

theorem related_laidOut (config : DocumentConfig) (strategy : OutputStrategy) (source : Source) :
    Related (Alongside Eq first second) (a.laidOut config strategy source) :=
  related_bind (a.related_begun config strategy) fun _ =>
    related_bind (related_setEngine _) fun _ => related_appendSource (respects_eq _) source

/-- What becomes of a closed document before it is handed over. -/
def overlaid (config : DocumentConfig) (strategy : OutputStrategy) (pages : Nat) :
    Payload Single → Except PipelineError (Nat × Payload Single)
  | payload => match strategy, payload with
    | .directWrite, payload => .ok (pages, payload)
    | .bufferThenStamp, .bytes _ => .error .unreadable
    | .bufferThenStamp, .document doc =>
      match stampDocument (pageStamp a.engine.textWidth (stampedFooter config strategy)
        a.pageStamps) doc.stored with
      | .error fault => .error (.stamping fault)
      | .ok (pages, stamped) => .ok (pages, .document stamped)

/-- All of a build that comes before the handover: the pages, and what is to be handed over. -/
def readied (config : DocumentConfig) (strategy : OutputStrategy) (source : Source) :
    BuildM σ (Nat × Payload Single) := do
  a.laidOut config strategy source
  let (pages, payload) ← runEngine a.engine.close
  ofExcept (a.overlaid config strategy pages payload)

theorem related_readied (config : DocumentConfig) (strategy : OutputStrategy) (source : Source) :
    Related (Alongside Eq first second) (a.readied config strategy source) :=
  related_bind (a.related_laidOut config strategy source) fun _ =>
    related_bind (related_runEngine (related_eq _)) fun _ => related_ofExcept _

/-- What it means that the document is not taken. -/
def report (strategy : OutputStrategy) (fault : IoFault) : PipelineError :=
  match strategy with
  | .directWrite => .engine (a.engine.unwritten fault)
  | .bufferThenStamp => .io fault

/-- The handover is the last thing that is done to a document. -/
theorem assemble_eq_readied (config : DocumentConfig) (strategy : OutputStrategy)
    (source : Source) : a.assemble config strategy source =
      a.readied config strategy source >>= fun (pages, payload) =>
        runDestination (a.report strategy) (Destination.write payload) >>= fun _ => pure pages := by
  rw [assemble_eq, readied]
  simp only [bind_assoc]
  congr 1
  funext _
  cases strategy with
  | directWrite => rfl
  | bufferThenStamp =>
    simp only [writeStamped]
    congr 1
    funext closed
    obtain ⟨pages, doc | bytes⟩ := closed
    · simp only [overlaid]
      rcases stampDocument _ _ with fault | ⟨total, stamped⟩ <;> rfl
    · rfl

/-- What comes of a document up to its handover. -/
def ready (config : DocumentConfig) (source : Source) :
    Except PipelineError (Nat × Payload Single) :=
  ((a.readied config (OutputStrategy.resolve config a.pageStamps.length) source).run
    (a.begin .memory)).1

/-- It does not depend on the destination, which is not touched. -/
theorem run_readied (config : DocumentConfig) (source : Source) (d : Destination) :
    ∃ p, (a.readied config (OutputStrategy.resolve config a.pageStamps.length) source).run
        (a.begin d) = (a.ready config source, p) ∧ p.destination = d := by
  obtain ⟨hresult, hstate⟩ := a.related_readied config
    (OutputStrategy.resolve config a.pageStamps.length) source (a.begin .memory) (a.begin d)
    ⟨rfl, rfl, rfl, rfl⟩
  rcases hrun : (a.readied config (OutputStrategy.resolve config a.pageStamps.length) source).run
    (a.begin d) with ⟨result, p⟩
  rw [hrun] at hresult hstate
  exact ⟨p, congrArg (·, p) hresult, hstate.second⟩

end Assembler

end

/-! ## The calls of a destination -/

namespace Destination

variable {d : Destination}

theorem run_start_of_fault {fault : IoFault} (h : d.opening = some fault) :
    start.run d = (.error fault, d) := by
  simp [start, run_bind, failOn, h]

theorem run_start_of_none (h : d.opening = none) :
    start.run d = (.ok (), { d with opened := true }) := by
  simp [start, run_bind, failOn, h]

/-- A destination that has been flushed once more. -/
def flushed (d : Destination) : Destination := { d with flushes := d.flushes + 1 }

theorem run_flush (d : Destination) : flush.run d =
    (match d.flushing with
      | some fault => .error fault
      | none => .ok (), d.flushed) := by
  change (failOn d.flushing).run d.flushed = _
  cases d.flushing <;> rfl

/-- What a destination takes of a payload. -/
def taken (d : Destination) (payload : Payload Single) : Payload Single :=
  match d.writing payload with
  | some refusal => .bytes (payload.encoded.take refusal.taken)
  | none => payload

theorem run_write (d : Destination) (payload : Payload Single) : (write payload).run d =
    (match d.writing payload with
      | some refusal => .error refusal.fault
      | none => .ok (), keep (d.taken payload) d) := by
  rw [write, run_bind, run_get]
  simp only [taken]
  cases d.writing payload <;> rfl

end Destination

/-! ## A whole build -/

def Progress.flushed (q : Progress σ) : Progress σ :=
  { q with destination := q.destination.flushed }

namespace Assembler

variable {a : Assembler σ} {config : DocumentConfig} {source : Source} {d : Destination}

/-- A destination that cannot be opened is left alone. -/
theorem run_of_fault {fault : IoFault} (h : d.opening = some fault) :
    (a.run config source).run (a.begin d) = (.error (.io fault), a.begin d) := by
  rw [run, run_bind, run_runDestination, begin, Destination.run_start_of_fault h]
  rfl

/-- How a build ends when so much has come of assembling. A fault of flushing counts only where
there is no other one, and a build without an answer is not flushed. -/
def ended (strategy : OutputStrategy) :
    Except PipelineError Nat → Progress σ → Except PipelineError BuildSummary × Progress σ
  | .ok pages, q =>
    (match q.destination.flushing with
      | some fault => .error (.io fault)
      | none => .ok ⟨pages, strategy, q.compiler.cache.stats⟩, q.flushed)
  | .error e, q => (.error e, if e.isAnswer then q.flushed else q)

theorem run_outcome (act : BuildM σ β) (p : Progress σ) : (outcome act).run p =
    match act.run p with
      | (.ok b, q) => (.ok (.ok b), q)
      | (.error e, q) => (if e.isAnswer then .ok (.error e) else .error e, q) := by
  change outcome act p = _
  unfold outcome
  rcases act.run p with ⟨e | b, q⟩ <;> rfl

/-- An assembled document is flushed and comes to its end. -/
theorem run_of_assemble (h : d.opening = none) {result : Except PipelineError Nat}
    {q : Progress σ} (hassemble : (a.assemble config (OutputStrategy.resolve config
      a.pageStamps.length) source).run (a.begin { d with opened := true }) = (result, q)) :
    (a.run config source).run (a.begin d) =
      ended (OutputStrategy.resolve config a.pageStamps.length) result q := by
  have hstart : (runDestination .io Destination.start).run (a.begin d) =
      (.ok (), a.begin { d with opened := true }) := by
    rw [run_runDestination, begin, Destination.run_start_of_none h]
    rfl
  have hflush : (outcome (runDestination .io Destination.flush)).run q =
      (.ok (match q.destination.flushing with
        | some fault => .error (.io fault)
        | none => .ok ()), q.flushed) := by
    rw [run_outcome, run_runDestination, Destination.run_flush]
    cases q.destination.flushing <;> rfl
  rw [run, run_bind_of_ok hstart, run_bind, run_outcome, hassemble]
  cases result with
  | ok pages =>
    simp only [run_bind_of_ok hflush, ended]
    cases q.destination.flushing <;> rfl
  | error e =>
    cases hanswer : e.isAnswer with
    | true =>
      simp only [run_bind_of_ok hflush, ended, hanswer, if_true]
      rfl
    | false => simp [ended, hanswer]

/-- A document that comes to nothing before its handover. -/
theorem run_assemble_of_error {e : PipelineError} (h : a.ready config source = .error e) :
    ∃ q, (a.assemble config (OutputStrategy.resolve config a.pageStamps.length) source).run
        (a.begin d) = (.error e, q) ∧ q.destination = d := by
  obtain ⟨q, hrun, hkept⟩ := a.run_readied config source d
  refine ⟨q, ?_, hkept⟩
  rw [assemble_eq_readied, run_bind, hrun, h]

/-- A document that is ready is handed over. -/
theorem run_assemble_of_ok {pages : Nat} {payload : Payload Single}
    (h : a.ready config source = .ok (pages, payload)) :
    ∃ q, (a.assemble config (OutputStrategy.resolve config a.pageStamps.length) source).run
        (a.begin d) = (match d.writing payload with
          | some refusal => .error (a.report (OutputStrategy.resolve config a.pageStamps.length)
              refusal.fault)
          | none => .ok pages, q) ∧ q.destination = Destination.keep (d.taken payload) d := by
  obtain ⟨p, hrun, rfl⟩ := a.run_readied config source d
  refine ⟨{ p with destination := Destination.keep (p.destination.taken payload) p.destination },
    ?_, rfl⟩
  rw [assemble_eq_readied, run_bind, hrun, h]
  simp only [run_bind, run_runDestination, Destination.run_write]
  cases p.destination.writing payload <;> rfl

/-- Assembling does not flush. -/
theorem flushes_assemble {assembled : Except PipelineError Nat} {q : Progress σ}
    (h : (a.assemble config (OutputStrategy.resolve config a.pageStamps.length) source).run
      (a.begin d) = (assembled, q)) : q.destination.flushes = d.flushes := by
  rcases hready : a.ready config source with e | ⟨pages, payload⟩
  · obtain ⟨q', hfails, hkept⟩ := run_assemble_of_error (d := d) hready
    obtain ⟨-, rfl⟩ := Prod.mk.inj (h.symm.trans hfails)
    rw [hkept]
  · obtain ⟨q', hhands, hkept⟩ := run_assemble_of_ok (d := d) hready
    obtain ⟨-, rfl⟩ := Prod.mk.inj (h.symm.trans hhands)
    rw [hkept]
    rfl

/-- A build that gives an answer has flushed its destination. -/
theorem flushes_ended {strategy : OutputStrategy} {assembled : Except PipelineError Nat}
    {q after : Progress σ} {result : Except PipelineError BuildSummary}
    (h : ended strategy assembled q = (result, after))
    (hanswer : ∀ e, result = .error e → e.isAnswer = true) : after = q.flushed := by
  cases assembled with
  | ok pages => exact (congrArg Prod.snd h).symm
  | error e =>
    obtain ⟨rfl, rfl⟩ := Prod.mk.inj h
    exact if_pos (hanswer e rfl)

theorem written_ended {strategy : OutputStrategy} {assembled : Except PipelineError Nat}
    {q after : Progress σ} {result : Except PipelineError BuildSummary}
    (h : ended strategy assembled q = (result, after)) :
    after.destination.written = q.destination.written := by
  obtain rfl := congrArg Prod.snd h
  cases assembled with
  | ok pages => rfl
  | error e =>
    simp only [ended]
    split <;> rfl

/-- From a destination that has been opened a build goes on with assembling. A fault of assembling
is what the caller is told, whatever comes of flushing. Where the fault comes before the document
is ready, nothing is written; a document that is ready is written once, as far as it is taken. An
answer, good or bad, is given behind one flush. -/
theorem run_failed (hopening : d.opening = none) {assembled : Except PipelineError Nat}
    {result : Except PipelineError BuildSummary} {q after : Progress σ}
    (hassemble : (a.assemble config (OutputStrategy.resolve config a.pageStamps.length) source).run
      (a.begin { d with opened := true }) = (assembled, q))
    (hrun : (a.run config source).run (a.begin d) = (result, after)) :
    (∀ e, assembled = .error e → result = .error e) ∧
    (∀ e, a.ready config source = .error e →
      assembled = .error e ∧ after.destination.written = d.written) ∧
    (∀ pages payload, a.ready config source = .ok (pages, payload) →
      (assembled = match d.writing payload with
        | some refusal => .error (a.report (OutputStrategy.resolve config a.pageStamps.length)
            refusal.fault)
        | none => .ok pages) ∧
      after.destination.written = d.written ++ [d.taken payload]) ∧
    ((∀ e, result = .error e → e.isAnswer = true) →
      after.destination.flushes = d.flushes + 1) := by
  have hended := (run_of_assemble hopening hassemble).symm.trans hrun
  have hwritten := written_ended hended
  refine ⟨?_, ?_, ?_, fun hanswer => ?_⟩
  · rintro e rfl
    exact (congrArg Prod.fst hended).symm
  · intro e he
    obtain ⟨q', hfails, hkept⟩ := run_assemble_of_error (d := { d with opened := true }) he
    obtain ⟨rfl, rfl⟩ := Prod.mk.inj (hassemble.symm.trans hfails)
    exact ⟨rfl, by rw [hwritten, hkept]⟩
  · intro pages payload hready
    obtain ⟨q', hhands, hkept⟩ := run_assemble_of_ok (d := { d with opened := true }) hready
    obtain ⟨rfl, rfl⟩ := Prod.mk.inj (hassemble.symm.trans hhands)
    refine ⟨rfl, ?_⟩
    rw [hwritten, hkept]
    rfl
  · rw [flushes_ended hended hanswer]
    exact congrArg (· + 1) (flushes_assemble (d := { d with opened := true }) hassemble)

/-- A document of two items of which the second has an unknown tag. -/
def misspelt : Source := .held [.string "Hello", .array [.string "pagebrake"]]

theorem run_failed_misspelt : ∃ e after, (bundled.run .standard misspelt).run
      (bundled.begin (.answering none none (some (.refused "no space left")))) = (.error e, after) ∧
    e.message = "Compilation failed: Unknown tag 'pagebrake' in node [\"pagebrake\"]" ∧
    after.destination.written = [] ∧ after.destination.flushes = 1 := by
  have hready : (match bundled.ready .standard misspelt with
      | .error e => e.isAnswer && e.message ==
        "Compilation failed: Unknown tag 'pagebrake' in node [\"pagebrake\"]"
      | .ok _ => false) = true := by decide +kernel
  rcases hfails : bundled.ready .standard misspelt with e | payload
  · rw [hfails] at hready
    obtain ⟨hanswer, hmessage⟩ : e.isAnswer = true ∧ e.message =
        "Compilation failed: Unknown tag 'pagebrake' in node [\"pagebrake\"]" := by
      simpa using hready
    rcases hassemble : (bundled.assemble .standard .directWrite misspelt).run (bundled.begin
      { Destination.answering none none (some (.refused "no space left")) with opened := true })
      with ⟨assembled, q⟩
    rcases hrun : (bundled.run .standard misspelt).run
      (bundled.begin (.answering none none (some (.refused "no space left")))) with ⟨result, after⟩
    obtain ⟨hfirst, huntouched, -, hflushed⟩ := run_failed rfl hassemble hrun
    obtain ⟨hassembled, hwritten⟩ := huntouched e hfails
    obtain rfl := hfirst e hassembled
    refine ⟨e, after, rfl, hmessage, hwritten, hflushed ?_⟩
    rintro _ ⟨⟩
    exact hanswer
  · rw [hfails] at hready
    cases hready

/-! ## Destinations that do not take a document -/

/-- Whatever part of a document a destination takes, its fault is reported if it does not take the
whole. -/
theorem run_of_refusal {pages : Nat} {payload : Payload Single} {refusal : Refusal}
    (hready : a.ready config source = .ok (pages, payload)) (hopening : d.opening = none)
    (hwriting : d.writing payload = some refusal) :
    ((a.run config source).run (a.begin d)).1 =
      .error (a.report (OutputStrategy.resolve config a.pageStamps.length) refusal.fault) := by
  obtain ⟨q, hassemble, -⟩ := run_assemble_of_ok (d := { d with opened := true }) hready
  simp only [hwriting] at hassemble
  rw [run_of_assemble hopening hassemble]
  rfl

theorem ended_ok {strategy : OutputStrategy} {assembled : Except PipelineError Nat}
    {q after : Progress σ} {summary : BuildSummary}
    (h : ended strategy assembled q = (.ok summary, after)) : assembled = .ok summary.pages := by
  cases assembled with
  | error e => cases h
  | ok pages =>
    have hsummary := congrArg Prod.fst h
    simp only [ended] at hsummary
    cases hflushing : q.destination.flushing with
    | some fault =>
      rw [hflushing] at hsummary
      cases hsummary
    | none =>
      rw [hflushing] at hsummary
      cases hsummary
      rfl

/-- A build that succeeds was ready, and handed over all of its document. -/
theorem exists_of_run_ok {summary : BuildSummary} {after : Progress σ}
    (h : (a.run config source).run (a.begin d) = (.ok summary, after)) :
    ∃ payload, a.ready config source = .ok (summary.pages, payload) ∧
      after.destination.written = d.written ++ [payload] := by
  cases hopening : d.opening with
  | some fault =>
    rw [run_of_fault hopening] at h
    cases h
  | none =>
    rcases hassemble : (a.assemble config (OutputStrategy.resolve config a.pageStamps.length)
      source).run (a.begin { d with opened := true }) with ⟨assembled, q⟩
    have hended := (run_of_assemble hopening hassemble).symm.trans h
    obtain rfl := ended_ok hended
    rcases hready : a.ready config source with e | ⟨pages, payload⟩
    · obtain ⟨q', hfails, -⟩ := run_assemble_of_error (d := { d with opened := true }) hready
      cases hassemble.symm.trans hfails
    · obtain ⟨q', hhands, hkept⟩ := run_assemble_of_ok (d := { d with opened := true }) hready
      obtain ⟨hsaved, rfl⟩ := Prod.mk.inj (hassemble.symm.trans hhands)
      simp only at hsaved
      cases hwriting : d.writing payload with
      | some refusal =>
        rw [hwriting] at hsaved
        cases hsaved
      | none =>
        rw [hwriting] at hsaved
        cases hsaved
        refine ⟨payload, rfl, ?_⟩
        rw [written_ended hended, hkept]
        simp [Destination.keep, Destination.taken, hwriting]

/-- What is built with one destination fails with every other one that does not take all of the
document, wherever its writes fail. Behind a second pass the fault is passed on; of a document that
the engine writes by itself only the reason of the fault is left, as a fault of encoding. -/
theorem run_refused {a : Assembler (Layout Single)} (hengine : a.engine = standardEngine)
    {summary : BuildSummary} {after : Progress (Layout Single)}
    (hrun : (a.run config source).run (a.begin d) = (.ok summary, after)) :
    ∃ payload, after.destination.written = d.written ++ [payload] ∧
      ∀ (sink : Destination) (refusal : Refusal), sink.opening = none →
        sink.writing payload = some refusal →
        ((a.run config source).run (a.begin sink)).1 =
          .error (match OutputStrategy.resolve config a.pageStamps.length with
            | .directWrite => .engine (.encoding refusal.fault.reason)
            | .bufferThenStamp => .io refusal.fault) := by
  obtain ⟨payload, hready, hwritten⟩ := exists_of_run_ok hrun
  refine ⟨payload, hwritten, fun sink refusal hopening hwriting => ?_⟩
  rw [run_of_refusal hready hopening hwriting]
  unfold report
  rw [hengine]
  rfl

theorem run_greeting : ∃ summary after, (bundled.run .standard (.held [.string "Hello"])).run
    (bundled.begin .memory) = (.ok summary, after) := by
  have hpages : ∃ summary after, (bundled.run .standard (.held [.string "Hello"])).run
      (bundled.begin .memory) = (.ok summary, after) ∧ summary.pages = 1 :=
    exists_of_pages (by decide +kernel)
  obtain ⟨summary, after, hrun, -⟩ := hpages
  exact ⟨summary, after, hrun⟩

/-- The fault of a destination in the midst of a document that was built before. -/
theorem run_refused_greeting : ∃ summary after payload,
    (bundled.run .standard (.held [.string "Hello"])).run (bundled.begin .memory) =
        (.ok summary, after) ∧
      after.destination.written = [payload] ∧
      ((bundled.run .standard (.held [.string "Hello"])).run (bundled.begin
        { Destination.memory with
          writing := fun _ => some ⟨3, .refused "no space left"⟩ })).1 =
        .error (.engine (.encoding "no space left")) := by
  obtain ⟨summary, after, hrun⟩ := run_greeting
  obtain ⟨payload, hwritten, hrefused⟩ := run_refused rfl hrun
  exact ⟨summary, after, payload, hrun, hwritten,
    hrefused _ ⟨3, .refused "no space left"⟩ rfl rfl⟩

/-- With the bundled engine a destination that refuses a document is not reported as one. -/
theorem run_refused_unreported : ∃ summary after,
    (bundled.run .standard (.held [.string "Hello"])).run (bundled.begin .memory) =
        (.ok summary, after) ∧
      ∃ e, ((bundled.run .standard (.held [.string "Hello"])).run (bundled.begin
          (.answering none (some (.refused "sink refused")) none))).1 = .error e ∧
        e = .engine (.encoding "sink refused") ∧
        ∀ fault, e ≠ .io fault ∧ e ≠ .engine (.io fault) := by
  obtain ⟨summary, after, hrun⟩ := run_greeting
  obtain ⟨payload, hready, -⟩ := exists_of_run_ok hrun
  refine ⟨summary, after, hrun, _, run_of_refusal hready rfl rfl, rfl, fun fault => ?_⟩
  exact ⟨nofun, nofun⟩

end Assembler

end Folio.Assembly
