import Folio.Proofs.Flow.MeasuredLines
import Folio.Proofs.Flow.PageSequence
import Folio.Proofs.Flow.Scripts

/-!
# The numbers on a page

Where the geometry, the cursor and the inset are finite numbers, a script of finite content has
finite acts only, and what they paint has finite operands. So no page of finite content has another
number on it, whatever calls are made.
-/
namespace Folio.Flow

open Style Pdf

/-! ## Paints -/

structure Layout.Box.Finite (b : Layout.Box Extended) : Prop where
  x : b.x.Finite
  y : b.y.Finite
  width : b.width.Finite
  height : b.height.Finite

/-- A note is no part of the page's content. -/
def Paint.Finite : Paint Extended → Prop
  | .text _ font x y => font.size.Finite ∧ x.Finite ∧ y.Finite
  | .fillBox b _ => b.Finite
  | .strokeBox b _ lineWidth => b.Finite ∧ lineWidth.Finite
  | .line start finish width _ dash => (start.1.Finite ∧ start.2.Finite) ∧
      (finish.1.Finite ∧ finish.2.Finite) ∧ width.Finite ∧ ∀ d ∈ dash, d.1.Finite ∧ d.2.Finite
  | .image _ b => b.Finite
  | .drawing x y ops => x.Finite ∧ y.Finite ∧ ∀ op ∈ ops, op.Finite
  | .note _ => True

def Canvas.Finite (c : Canvas Extended) : Prop := ∀ op ∈ c.operations, op.Finite

theorem finite_textOperations (words baseFont : String) {size x y : Extended} (hsize : size.Finite)
    (hx : x.Finite) (hy : y.Finite) (color : Color) :
    ∀ op ∈ textOperations words baseFont size x y color.unit, op.Finite := by
  simpa [textOperations, Operation.Finite, Obj.nameOf, Obj.textOf, hsize, hx, hy] using
    color.finite_unit

theorem finite_lineOperations {start finish : Extended × Extended} {width : Extended}
    (hstart : start.1.Finite ∧ start.2.Finite) (hfinish : finish.1.Finite ∧ finish.2.Finite)
    (hwidth : width.Finite) (color : Color) {dash : Option (Extended × Extended)}
    (hdash : ∀ d ∈ dash, d.1.Finite ∧ d.2.Finite) :
    ∀ op ∈ lineOperations start finish width color.unit dash, op.Finite := by
  cases dash with
  | none =>
    simpa [lineOperations, dashOperations, Operation.Finite, saveState, restoreState, hstart,
      hfinish, hwidth] using color.finite_unit
  | some dash =>
    simpa [lineOperations, dashOperations, Operation.Finite, saveState, restoreState, hstart,
      hfinish, hwidth, hdash dash rfl] using color.finite_unit

namespace Canvas.Finite

variable {c : Canvas Extended}

theorem blank (number : ℕ) : (.blank number : Canvas Extended).Finite := List.forall_mem_nil _

theorem draw (h : c.Finite) {ops : List (Operation Extended)} (hops : ∀ op ∈ ops, op.Finite) :
    (c.draw ops).Finite := List.forall_mem_append.mpr ⟨h, hops⟩

theorem on (h : c.Finite) {p : Paint Extended} (hp : p.Finite) : (p.on c).Finite := by
  cases p with
  | text words font x y =>
    obtain ⟨hsize, hx, hy⟩ := hp
    exact draw (c := c.useFont font.baseName) h (finite_textOperations _ _ hsize hx hy _)
  | fillBox b color =>
    refine h.draw ?_
    simpa [Operation.Finite, saveState, restoreState, hp.x, hp.y, hp.width, hp.height] using
      color.finite_unit
  | strokeBox b color lineWidth =>
    obtain ⟨hb, hlineWidth⟩ := hp
    refine h.draw ?_
    simpa [Operation.Finite, saveState, restoreState, hb.x, hb.y, hb.width, hb.height,
      hlineWidth] using color.finite_unit
  | line start finish width color dash =>
    obtain ⟨hstart, hfinish, hwidth, hdash⟩ := hp
    exact h.draw (finite_lineOperations hstart hfinish hwidth color hdash)
  | image picture b =>
    refine draw (c := (c.addImage picture).2) h ?_
    simp [Layout.imageOperations, Operation.Finite, saveState, restoreState, Obj.nameOf, hp.x, hp.y,
      hp.width, hp.height]
  | drawing x y ops =>
    obtain ⟨hx, hy, hops⟩ := hp
    refine h.draw ?_
    simpa [Layout.drawingOperations, saveState, restoreState, Operation.Finite, hx, hy, or_imp,
      forall_and] using hops
  | note remark => exact h

theorem addLink (h : c.Finite) (link : Link Extended) : (c.addLink link).Finite := h

theorem foldl {β : Type} {f : Canvas Extended → β → Canvas Extended} {bs : List β}
    (hf : ∀ b ∈ bs, ∀ c : Canvas Extended, c.Finite → (f c b).Finite) (h : c.Finite) :
    (bs.foldl f c).Finite :=
  List.foldlRecOn bs f h fun c hc b hb => hf b hb c hc

/-- An overlay whose operations are finite. -/
theorem cover (h : c.Finite) {o : Overlay Extended} (ho : ∀ op ∈ o.operations, op.Finite) :
    (c.cover o).Finite := by
  have hwrapped : ∀ op ∈ o.wrapped, op.Finite := by
    simpa [Overlay.wrapped, Operation.Finite, saveState, restoreState, or_imp, forall_and] using ho
  unfold Canvas.cover
  split
  · exact h
  · exact foldl (fun name _ c hc => hc) (h.draw hwrapped)

end Canvas.Finite

theorem finite_runPaints {style : RunStyle Extended} (hstyle : style.Finite) (words : String)
    {x baseline width : Extended} (hx : x.Finite) (hbaseline : baseline.Finite)
    (hwidth : width.Finite) : ∀ p ∈ runPaints style words x baseline width, p.Finite := by
  have hsize := hstyle.size
  have hstroke {y : Extended} (hy : y.Finite) :
      (Paint.line (x, y) (x + width, y) 0.5 style.font.color none).Finite :=
    ⟨⟨hx, hy⟩, ⟨Extended.finite_add.mpr ⟨hx, hwidth⟩, hy⟩, Extended.finite_ofScientific .., nofun⟩
  have htext : (Paint.text words style.font x (baseline + style.rise)).Finite :=
    ⟨hsize, hx, Extended.finite_add.mpr ⟨hbaseline, hstyle.rise⟩⟩
  refine List.forall_mem_append.mpr ⟨fun p hp => ?_, List.forall_mem_cons.mpr ⟨htext, ?_⟩⟩
  · obtain ⟨color, -, rfl⟩ := Option.map_eq_some_iff.mp (Option.mem_toList.mp hp)
    exact ⟨hx, by simp [hbaseline, hsize, Layout.descent], hwidth,
      by simp [hsize, lineHeightFactor]⟩
  · split
    · exact List.forall_mem_singleton.mpr (hstroke (by simp [hbaseline]))
    · exact List.forall_mem_singleton.mpr (hstroke (by simp [hbaseline, hsize]))
    · exact List.forall_mem_nil _

theorem Canvas.Finite.drawRun {c : Canvas Extended} (h : c.Finite) {style : RunStyle Extended}
    (hstyle : style.Finite) (words : String) {x baseline width : Extended} (hx : x.Finite)
    (hbaseline : baseline.Finite) (hwidth : width.Finite) :
    (c.drawRun style words x baseline width).Finite := by
  have hpaints := finite_runPaints hstyle words hx hbaseline hwidth
  refine foldl (fun link _ c hc => hc.addLink link) (foldl (fun p hp c hc => ?_) h)
  exact hc.on (hpaints p hp)

/-! ## Acts -/

structure PlacedLine.Finite (l : PlacedLine Extended) : Prop where
  run : l.run.Finite
  line : l.line.Finite
  x : l.x.Finite
  width : l.width.Finite
  top : l.top.Finite

def Act.Finite : Act Extended → Prop
  | .line l => l.Finite
  | .paint p => p.Finite
  | .use | .turn => True
  | .toCursor x | .toInset x => x.Finite

end Folio.Flow

namespace Folio

open Style Flow

structure Style.Geometry.Finite (g : Geometry Extended) : Prop where
  width : g.width.Finite
  height : g.height.Finite
  top : g.margins.top.Finite
  right : g.margins.right.Finite
  bottom : g.margins.bottom.Finite
  left : g.margins.left.Finite

end Folio

namespace Folio.Flow

open Style Pdf

/-- A layout that is measured in finite numbers and has drawn no other ones; it has no events, which
may draw whatever they like. -/
structure Layout.Finite (s : Layout Extended) : Prop where
  geometry : s.geometry.Finite
  footer : ∀ f ∈ s.footer, f.font.size.Finite
  events : s.events = []
  cursor : s.cursor.Finite
  inset : s.inset.Finite
  page : s.page.Finite
  finished : ∀ c ∈ s.finished, c.Finite

namespace Layout.Finite

variable {s : Layout Extended}

theorem left (h : s.Finite) : s.left.Finite :=
  Extended.finite_add.mpr ⟨h.geometry.left, h.inset⟩

theorem availableWidth (h : s.Finite) : s.availableWidth.Finite := by
  refine Extended.Finite.larger ?_ (Extended.finite_ofNat 1)
  simp [Geometry.contentWidth, h.geometry.width, h.geometry.left, h.geometry.right, h.inset]

theorem onPage (h : s.Finite) {f : Canvas Extended → Canvas Extended}
    (hf : ∀ c : Canvas Extended, c.Finite → (f c).Finite) : (s.onPage f).Finite :=
  { h with page := hf s.page h.page }

theorem startPage (h : s.Finite) (number : ℕ) : (s.startPage number).Finite := by
  have htop : (Layout.top s.geometry).Finite :=
    Extended.finite_sub.mpr ⟨h.geometry.height, h.geometry.top⟩
  have hblank : ({ s with page := .blank number, cursor := Layout.top s.geometry } :
      Layout Extended).Finite := { h with cursor := htop, page := .blank number }
  unfold Layout.startPage
  simp only
  split
  · exact hblank
  · next header _ =>
    have hwidth := finite_textWidth header Font.finite_standard
    refine hblank.onPage fun c hc => hc.on (p := .text ..) ⟨Font.finite_standard, ?_, ?_⟩
    · simp [h.geometry.width, hwidth]
    · simp [h.geometry.height, furnitureOffset]

theorem furniture (h : s.Finite) : ∀ op ∈ s.furniture.operations, op.Finite := by
  unfold Layout.furniture
  simp only [h.events, List.foldl_nil]
  split
  · next footer hfooter =>
    have hsize := h.footer footer hfooter
    have hwidth := finite_textWidth (footer.label s.page.number) hsize
    unfold RunningFooter.draw
    split
    · exact List.forall_mem_nil _
    · refine List.forall_mem_append.mpr
        ⟨List.forall_mem_nil _, finite_textOperations _ _ hsize ?_ ?_ _⟩
      · cases footer.align <;> simp [footerStart, furnitureOffset, h.geometry.width, hwidth]
      · exact Extended.finite_ofNat 20
  · exact List.forall_mem_nil _

theorem finishPage (h : s.Finite) : s.finishPage.Finite := by
  refine { h with page := .blank _, finished := ?_ }
  refine List.forall_mem_append.mpr ⟨h.finished, List.forall_mem_singleton.mpr ?_⟩
  exact h.page.cover h.furniture

theorem drawLine (h : s.Finite) {l : PlacedLine Extended} (hl : l.Finite) :
    (s.drawLine l.run l.line l.x l.width l.top l.align).Finite := by
  have hbaseline : (l.top - l.line.height + l.line.maxSize * descent).Finite := by
    simp [hl.top, hl.line.height, hl.line.maxSize, descent]
  have hpieces := hl.line.pieces hl.x hl.width l.align
  refine List.foldlRecOn (motive := Layout.Finite) _ _ h fun s hs p hmem => ?_
  have hp := hpieces p hmem
  cases p with
  | mark name x => exact { hs with }
  | text style words x width =>
    simp only [Layout.drawPiece, drawRun_eq_onPage]
    exact hs.onPage fun c hc => hc.drawRun (hl.run.styleAt style) words hp.1 hbaseline hp.2

theorem act (h : s.Finite) {a : Act Extended} (ha : a.Finite) : (a.apply s).Finite := by
  cases a with
  | line l => exact h.drawLine ha
  | paint p => exact h.onPage fun c hc => hc.on ha
  | use => exact h.onPage (f := fun c => { c with hasContent := true }) fun c hc => hc
  | turn => exact h.finishPage.startPage _
  | toCursor cursor => exact { h with cursor := ha }
  | toInset inset => exact { h with inset := ha }

theorem perform (h : s.Finite) {acts : List (Act Extended)} (hacts : ∀ a ∈ acts, a.Finite) :
    (Flow.perform acts s).Finite :=
  List.foldlRecOn acts _ h fun _ hs a ha => hs.act (hacts a ha)

end Layout.Finite

/-! ## Scripts -/

/-- In a layout measured in finite numbers all acts of the script are finite. -/
def Script.Finite (script : Script Extended) : Prop :=
  ∀ s : Layout Extended, s.Finite → ∀ a ∈ script s, a.Finite

namespace Script

variable {first next script : Script Extended}

theorem finite_nothing : (nothing : Script Extended).Finite := fun _ _ => List.forall_mem_nil _

theorem finite_act {act : Layout Extended → Act Extended}
    (h : ∀ s : Layout Extended, s.Finite → (act s).Finite) : Script.Finite fun s => [act s] :=
  fun s hs => List.forall_mem_singleton.mpr (h s hs)

theorem Finite.andThen (h : first.Finite) (k : next.Finite) : (first.andThen next).Finite :=
  fun s hs => List.forall_mem_append.mpr ⟨h s hs, k _ (hs.perform (h s hs))⟩

theorem Finite.byCase {test : Layout Extended → Bool} (h : first.Finite) (k : next.Finite) :
    (Script.byCase test first next).Finite := by
  intro s hs
  unfold Script.byCase
  cases test s with
  | true => exact h s hs
  | false => exact k s hs

theorem finite_each {β : Type} {script : β → Script Extended} {bs : List β}
    (h : ∀ b ∈ bs, (script b).Finite) : (each script bs).Finite := by
  induction bs with
  | nil => exact finite_nothing
  | cons b bs ih =>
    exact (h b List.mem_cons_self).andThen
      (ih fun other hother => h other (List.mem_cons_of_mem b hother))

theorem Finite.unlessFailed {act : FlowM Extended Unit} (h : first.Finite) (k : next.Finite) :
    (Script.unlessFailed act first next).Finite := by
  intro s hs
  refine List.forall_mem_append.mpr ⟨h s hs, ?_⟩
  split
  · exact k _ (hs.perform (h s hs))
  · exact List.forall_mem_nil _

end Script

end Folio.Flow
