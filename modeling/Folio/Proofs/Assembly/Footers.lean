import Folio.Proofs.Assembly.Builds

/-!
# Footers

The footer of a page can be drawn by the engine, when it finishes the page, or by the second pass,
once the total of pages is known. Whatever a document asks for, and whatever else is drawn in
either of the two, exactly one of them draws the footer, exactly on the pages that it applies to.
-/
namespace Folio.Assembly

open Style Compile Flow Pdf

/-- The text of the footer on a page; with the total if the document wants it. -/
def footerText? (config : DocumentConfig) (number total : Nat) : Option String :=
  config.footer.bind fun f =>
    if f.appliesTo number then
      some (f.label number (if config.totals then some total else none))
    else none

/-- An overlay on which nothing is drawn but those texts. -/
inductive Texts : Overlay Single → List String → Prop
  | nothing : Texts .empty []
  | text (text : String) (font : Font Single) (x y : Single) :
      Texts (Overlay.empty.text text font.baseName font.size x y font.color.unit) [text]

/-- The document without footer and events. -/
def DocumentConfig.unfooted (config : DocumentConfig) : DocumentConfig :=
  { config with footer := none, pageEvents := [] }

/-! ## The two writers -/

/-- The text that the engine draws at the foot of a page. -/
def runningText? (footer : Option (RunningFooter Single)) (number : Nat) : Option String :=
  footer.bind fun f => if number < f.startPage then none else some (f.label number)

theorem texts_footerOn (d : Dress Single) (g : Geometry Single) (number : Nat) :
    Texts (d.footerOn g number) (runningText? d.footer number).toList := by
  unfold Dress.footerOn runningText?
  cases d.footer with
  | none => exact .nothing
  | some f =>
    simp only [RunningFooter.draw, Option.bind_some]
    split
    · exact .nothing
    · exact .text _ f.font _ _

/-- The text that the second pass draws at the foot of a page. -/
def stampedText? (footer : Option (FooterLayout Single)) (number total : Nat) : Option String :=
  footer.bind fun f => if f.appliesTo number then some (f.label number (some total)) else none

/-- The overlay that the stamps of a page find. -/
def stampedOverlay (footer : Option (FooterLayout Single)) (box : PageBox Single) :
    Overlay Single :=
  match footer with
  | some f => drawFooter textWidth f box .empty
  | none => .empty

theorem texts_stampedOverlay (footer : Option (FooterLayout Single)) (box : PageBox Single) :
    Texts (stampedOverlay footer box) (stampedText? footer box.number box.total).toList := by
  unfold stampedOverlay stampedText?
  cases footer with
  | none => exact .nothing
  | some f =>
    simp only [drawFooter, Option.bind_some]
    split
    · exact .text _ f.font _ _
    · exact .nothing

/-- One of the two draws the footer of a page, and not both. -/
theorem footerText?_eq (config : DocumentConfig) (stamps number total : Nat) :
    (runningText? (Assembler.engineFooter config (.resolve config stamps)) number).toList ++
        (stampedText? (Assembler.stampedFooter config (.resolve config stamps)) number
          total).toList =
      (footerText? config number total).toList := by
  cases hfooter : config.footer with
  | none =>
    simp [Assembler.engineFooter, Assembler.stampedFooter, runningText?, stampedText?, footerText?,
      hfooter]
  | some f =>
    cases htotals : config.totals with
    | true =>
      -- The total is wanted, so there is a second pass, and the engine has no footer.
      have hstrategy : OutputStrategy.resolve config stamps = .bufferThenStamp := by
        simp [OutputStrategy.resolve, hfooter, htotals]
      simp [hstrategy, Assembler.engineFooter, Assembler.stampedFooter, runningText?, stampedText?,
        footerText?, hfooter, htotals]
    | false =>
      have hrunning : f.running.startPage = f.startPage := rfl
      by_cases hstart : number < f.startPage
      · simp [Assembler.engineFooter, Assembler.stampedFooter, runningText?, stampedText?,
          footerText?, hfooter, htotals, hrunning, FooterLayout.appliesTo, hstart]
      · simp [Assembler.engineFooter, Assembler.stampedFooter, runningText?, stampedText?,
          footerText?, hfooter, htotals, hrunning, FooterLayout.appliesTo, hstart, running_label,
          Nat.not_lt.mp hstart]

/-! ## Pages of a finished document -/

namespace Assembler

variable {a : Assembler (Layout Single)}

theorem stampOf_eq (config : DocumentConfig) (strategy : OutputStrategy) (box : PageBox Single) :
    a.stampOf config strategy box = a.pageStamps.foldl
      (fun overlay stamp => stamp ⟨box.number, some box.total, box.width, box.height⟩ overlay)
      (stampedOverlay (stampedFooter config strategy) box) := by
  unfold stampOf pageStamp stampedOverlay
  cases stampedFooter config strategy <;> rfl

/-- What is drawn on the pages of the document without footer and events. -/
def plainPages (a : Assembler (Layout Single)) (config : DocumentConfig) (source : Source) :
    List (List (Operation Single)) :=
  ((a.laidOut config.unfooted .directWrite source).run
    (a.begin .memory)).2.engine.conclude.finished.map (·.operations)

/-- Nothing covers the pages of a document without footer and events. -/
theorem overlayOn_unfooted (config : DocumentConfig) (header : Option String)
    (headless number : Nat) :
    (a.dressOf config.unfooted .directWrite header headless).overlayOn config.geometry number =
      .empty := rfl

/-- The document without footer has the pages of the bare document under its header. -/
theorem plainPages_eq (hengine : a.engine = standardEngine) {config : DocumentConfig}
    {source : Source} (strategy : OutputStrategy)
    (h : ((a.laidOut config.bare .directWrite source).run (a.begin .memory)).1 = .ok ()) :
    a.plainPages config source = (a.bodies config source).mapIdx fun i body =>
      headerOperations config.geometry ((a.dressOf config strategy config.header
        (a.letterheadPage config)).headerOn (i + 1)) ++ body := by
  have hnames : ∀ name ∈ config.unfooted.pageEvents, ∃ event, a.findEvent name = .ok event := by
    simp [DocumentConfig.unfooted]
  obtain ⟨hresult, hdressed⟩ := laidOut_dressed hengine hnames .directWrite source .memory
  have hlaidOut := hdressed (hresult.trans h)
  have hdrawn (i : Nat) (body : List (Operation Single)) :
      drawnPage (a.dressOf config.unfooted .directWrite config.header (a.letterheadPage config))
        config.geometry i body =
      headerOperations config.geometry ((a.dressOf config strategy config.header
        (a.letterheadPage config)).headerOn (i + 1)) ++ body := by
    rw [drawnPage, overlayOn_unfooted]
    exact List.append_nil _
  have hpages := hlaidOut.engine.finished_conclude
  unfold plainPages
  rw [hpages, hlaidOut.engine.2.operations_finish]
  exact congrArg (fun f => (a.bodies config source).mapIdx f) (funext fun i => funext (hdrawn i))

/-- What a finished page holds: what the document without footer has there, with the overlay of the
engine's events on it, and the overlay of the stamps in a stream of its own. The two overlays start
with the texts given. -/
structure Footed (a : Assembler (Layout Single)) (config : DocumentConfig) (number total : Nat)
    (body : List (Operation Single)) (contents : List Bytes) (texts : List String) : Prop where
  written : ∃ first second firstTexts secondTexts width height,
    Texts first firstTexts ∧ Texts second secondTexts ∧ firstTexts ++ secondTexts = texts ∧
    contents =
      encodeOperations (body ++ coverOperations ((a.eventsOf config.pageEvents).foldl
        (fun overlay event =>
          event ⟨number, none, config.geometry.width, config.geometry.height⟩ overlay) first)) ::
      overlayStreams Overlay.encode (a.pageStamps.foldl
        (fun overlay stamp => stamp ⟨number, some total, width, height⟩ overlay) second)

/-- Every page of a finished document has the footer that it should have, drawn once, and no other
text at its foot: with the total of pages if the document wants it, whichever way the document was
put out, and together with whatever events and stamps it has. -/
theorem run_footers (hengine : a.engine = standardEngine) {config : DocumentConfig}
    {source : Source} {destination : Destination} {summary : BuildSummary}
    {after : Progress (Layout Single)} (hread : ReadsBack config.geometry)
    (hrun : (a.run config source).run (a.begin destination) = (.ok summary, after)) :
    ∃ doc, after.destination.written = destination.written ++ [.document doc] ∧
      doc.pages.length = summary.pages ∧ (a.plainPages config source).length = summary.pages ∧
      ∀ i < summary.pages, ∃ number page body, doc.pages[i]? = some number ∧
        doc.getDict? number = some page ∧ (a.plainPages config source)[i]? = some body ∧
        Footed a config (i + 1) summary.pages body (doc.pageContents page)
          (footerText? config (i + 1) summary.pages).toList := by
  obtain ⟨hbare, doc, hwritten, htotal, hholds⟩ := run_pages hengine hread hrun
  have hfooter := footerText?_eq config a.pageStamps.length
  have hplain := plainPages_eq hengine (OutputStrategy.resolve config a.pageStamps.length) hbare
  generalize OutputStrategy.resolve config a.pageStamps.length = strategy
    at hholds hfooter hplain
  refine ⟨doc, hwritten, ?_, ?_, fun i hi => ?_⟩
  · simp [hholds.length, htotal]
  · simp [hplain, htotal]
  · have hbody : i < (a.bodies config source).length := htotal ▸ hi
    obtain ⟨number, page, width, height, hnumber, hpage, hcontents⟩ :=
      hholds.contents i (by simpa using hbody)
    have hfirst := texts_footerOn (a.dressOf config strategy config.header
      (a.letterheadPage config)) config.geometry (i + 1)
    have hsecond := texts_stampedOverlay (stampedFooter config strategy)
      ⟨i + 1, summary.pages, width, height⟩
    refine ⟨number, page, headerOperations config.geometry ((a.dressOf config strategy
      config.header (a.letterheadPage config)).headerOn (i + 1)) ++ (a.bodies config source)[i],
      hnumber, hpage, ?_, ⟨_, _, _, _, width, height, hfirst, hsecond,
        hfooter (i + 1) summary.pages, ?_⟩⟩
    · rw [hplain, List.getElem?_mapIdx, List.getElem?_eq_getElem hbody]
      rfl
    · rw [hcontents, List.getElem_mapIdx, stampOf_eq]
      simp only [List.length_mapIdx, ← htotal]
      rfl

/-- A document of one page with the usual footer. -/
theorem run_footers_greeting : ∃ summary after doc,
    (bundled.run .standard (.held [.string "Hello"])).run (bundled.begin .memory) =
        (.ok summary, after) ∧
      after.destination.written = [.document doc] ∧ doc.pages.length = 1 ∧
      ∃ number page body, doc.pages[0]? = some number ∧ doc.getDict? number = some page ∧
        Footed bundled .standard 1 1 body (doc.pageContents page) ["1"] := by
  have hread : ReadsBack DocumentConfig.standard.geometry :=
    (readsBack_iff _).mpr (by decide +kernel)
  obtain ⟨summary, after, hrun, htotal⟩ : ∃ summary after,
      (bundled.run .standard (.held [.string "Hello"])).run (bundled.begin .memory) =
        (.ok summary, after) ∧ summary.pages = 1 := exists_of_pages (by decide +kernel)
  obtain ⟨doc, hwritten, hlength, -, hfooted⟩ := run_footers rfl hread hrun
  rw [htotal] at hlength hfooted
  obtain ⟨number, page, body, hnumber, hpage, -, hbody⟩ := hfooted 0 Nat.one_pos
  exact ⟨summary, after, doc, hrun, hwritten, hlength, number, page, body, hnumber, hpage, hbody⟩

end Assembler

end Folio.Assembly
