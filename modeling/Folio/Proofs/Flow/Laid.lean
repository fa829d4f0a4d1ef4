import Folio.Proofs.Flow.Passages
import Folio.Proofs.Flow.Rows
import Folio.Proofs.Flow.Scripts

/-!
# Passages and their lines

The inline content of a node falls into passages, each of which is broken into lines as a whole: the
inline children of a paragraph between two blocks, a title with its label, a cell of a table, and an
inline node that stands alone. While the node is added every line belongs to a passage, the lines of
a passage are drawn together and in order, and no passage is left out unless adding the node fails.
-/
namespace Folio.Flow

open Style

variable {α : Type} [Scalar α]

/-- Inline content that is broken into lines as a whole, with what it comes from. -/
structure Passage (α : Type) [Scalar α] where
  run : InlineRun α
  origins : List Origin
  gathered : Gathered run origins
  fronted : Fronted origins

namespace Passage

def empty : Passage α := ⟨.empty, [], gathered_empty, fronted_nil⟩

def names (p : Passage α) : List String := namesOf p.origins

/-- The passage with a text behind it that no anchor is around. -/
def write (p : Passage α) (words : String) (font : Font α) : Passage α where
  run := p.run.pushText words (.plain font none)
  origins := p.origins ++ [.text words [] false]
  gathered := p.gathered.pushText words rfl
  fronted := p.fronted.append (fronted_text words [] false)

/-- The passage with a row of nodes behind it; the text of a block stands for it. -/
def joinAll (p : Passage α) (font : Font α) (ns : List (Node α)) : Passage α where
  run := collectChildren font none p.run ns
  origins := p.origins ++ originsOfNodes [] ns
  gathered := collectChildren_gathered ns [] font p.gathered
  fronted := p.fronted.append (originsOfNodes_fronted [] ns).1

/-- The passage with an inline node behind it; no block can join it. -/
def join (p : Passage α) (n : Node α) : Option (Passage α) :=
  match hrun : collectInline none p.run n, horigins : originsOf [] n with
  | some run, some os =>
    some ⟨run, p.origins ++ os, by
      have h := collectInline_gathered n [] p.gathered
      rw [horigins] at h
      change Collected p.origins (collectInline none p.run n) (some os) at h
      rwa [hrun] at h,
      p.fronted.append (originsOf_fronted n horigins).1⟩
  | _, _ => none

/-- Only an inline node joins a passage, and its tokens stand behind those of the passage. -/
theorem run_join (p : Passage α) (n : Node α) :
    (p.join n).map (·.run) = collectInline none p.run n := by
  have h : Collected p.origins (collectInline none p.run n) (originsOf [] n) :=
    collectInline_gathered n [] p.gathered
  unfold join
  split
  · next run os hrun horigins => exact hrun.symm
  · next hnot =>
    cases hrun : collectInline none p.run n with
    | none => rfl
    | some run =>
      cases horigins : originsOf [] n with
      | none => rw [hrun, horigins] at h; exact h.elim
      | some os => exact (hnot run os hrun horigins).elim

/-- A node that stands alone. -/
def ofInline (n : Node α) : Passage α := (Passage.empty.join n).getD .empty

theorem run_ofInline (n : Node α) :
    (ofInline n).run = (collectInline none .empty n).getD .empty := by
  have h : ((Passage.empty : Passage α).join n).map (·.run) = collectInline none .empty n :=
    run_join .empty n
  unfold ofInline
  rw [← h]
  cases (Passage.empty : Passage α).join n <;> rfl

def ofCell (c : Cell α) : Passage α :=
  (Passage.empty.join c.content).getD
    (Passage.empty.write c.content.textContent (c.content.firstFont?.getD .standard))

theorem run_ofCell (c : Cell α) : (ofCell c).run = cellRun c := by
  have h : ((Passage.empty : Passage α).join c.content).map (·.run) =
      collectInline none .empty c.content := run_join .empty c.content
  unfold ofCell cellRun
  rw [← h]
  cases (Passage.empty : Passage α).join c.content <;> rfl

/-- A title behind its label. -/
def ofTitle (label : String) (title : Node α) (fallback : Font α) : Passage α :=
  let font := title.firstFont?.getD fallback
  (if label.isEmpty then .empty else Passage.empty.write (label ++ " ") font).joinAll font
    (titleNodes title)

theorem run_ofTitle (label : String) (title : Node α) (fallback : Font α) :
    (ofTitle label title fallback).run =
      titleRun label title (title.firstFont?.getD fallback) := by
  simp only [ofTitle, titleRun, joinAll]
  split <;> rfl

end Passage

/-- The cells of a row that have a place. -/
def passagesOfRow (columns : Nat) (cells : List (Cell α)) : List (Passage α) :=
  (slots columns 0 cells).map fun slot => .ofCell slot.cell

def passagesOfTable (style : TableStyle α) (header : List (Cell α)) (rows : List (List (Cell α))) :
    List (Passage α) :=
  let columns := max 1 style.columns
  passagesOfRow columns header ++ rows.flatMap (passagesOfRow columns)

mutual

/-- The inline content of a node. -/
def passagesOf : Node α → List (Passage α)
  | .paragraph _ children => passagesOfMixed .empty children
  | .list _ items => passagesOfItems items
  | .table style header rows | .gridTable style header rows => passagesOfTable style header rows
  | .cell c | .gridCell c => passagesOfCell c
  | .chapter number title children =>
    .ofTitle (toString number ++ ".") title chapterFont :: passagesOfNodes children
  | .subsection number _ title children =>
    .ofTitle (sectionLabel number) title sectionFont :: passagesOfNodes children
  | .reference _ target => passagesOf target
  | .text run => [.ofInline (.text run)]
  | .subscript run => [.ofInline (.subscript run)]
  | .superscript run => [.ofInline (.superscript run)]
  | .phrase style children => [.ofInline (.phrase style children)]
  | .anchor ends shape content => [.ofInline (.anchor ends shape content)]
  | .image _ | .chart _ | .vectorGraphic _ | .note .. | .rule _ | .spacer .. | .rectangle _ => []

def passagesOfNodes : List (Node α) → List (Passage α)
  | [] => []
  | n :: ns => passagesOf n ++ passagesOfNodes ns

def passagesOfCell : Cell α → List (Passage α)
  | .mk _ content => passagesOf content

/-- `p` is what has been gathered since the last block. -/
def passagesOfMixed (p : Passage α) : List (Node α) → List (Passage α)
  | [] => [p]
  | n :: ns =>
    match p.join n with
    | some p => passagesOfMixed p ns
    | none => p :: (passagesOf n ++ passagesOfMixed .empty ns)

def passagesOfItem : ListItem α → List (Passage α)
  | .chunk n | .phrase n => passagesOf n

def passagesOfItems : List (ListItem α) → List (Passage α)
  | [] => []
  | item :: rest => passagesOfItem item ++ passagesOfItems rest

end

/-! ## Lines of acts -/

def Act.line? : Act α → Option (PlacedLine α)
  | .line l => some l
  | _ => none

def linesIn (acts : List (Act α)) : List (PlacedLine α) := acts.filterMap Act.line?

omit [Scalar α] in
@[simp] theorem linesIn_nil : linesIn ([] : List (Act α)) = [] := rfl

omit [Scalar α] in
@[simp] theorem linesIn_append (acts more : List (Act α)) :
    linesIn (acts ++ more) = linesIn acts ++ linesIn more := by
  simp [linesIn]

omit [Scalar α] in
@[simp] theorem linesIn_line (l : PlacedLine α) (acts : List (Act α)) :
    linesIn (.line l :: acts) = l :: linesIn acts := rfl

/-- All lines of the passage in order. -/
def Passage.LaidAs (p : Passage α) (ls : List (PlacedLine α)) : Prop :=
  (∀ l ∈ ls, l.run = p.run) ∧ ∃ width flow, ls.map (·.line) = breakLines p.run width flow

/-- Lines that are all accounted for: they are those of passages, one passage after the other. -/
structure Laid (ps : List (Passage α)) (ls : List (PlacedLine α))
    (laid : List (Passage α × List (PlacedLine α))) : Prop where
  lines : ls = laid.flatMap Prod.snd
  placed : ∀ q ∈ laid, q.1 ∈ ps ∧ q.1.LaidAs q.2

/-- All lines of the script are those of `ps`, and where it succeeds none of `owed` is left out. -/
def Script.Lays (script : Script α) (ps owed : List (Passage α)) (succeeds : Layout α → Prop) :
    Prop :=
  ∀ s, ∃ laid, Laid ps (linesIn (script s)) laid ∧
    (succeeds s → ∀ p ∈ owed, p ∈ laid.map Prod.fst)

namespace Script

variable {first next script : Script α} {ps qs owed more : List (Passage α)}
  {succeeds : Layout α → Prop}

theorem lays_of_lines {p : Passage α} (h : ∀ s, p.LaidAs (linesIn (script s))) :
    script.Lays [p] [p] fun _ => True := by
  intro s
  refine ⟨[(p, linesIn (script s))], ⟨by simp, ?_⟩, by simp⟩
  simpa using h s

theorem lays_quiet (h : ∀ s, linesIn (script s) = []) : script.Lays [] [] succeeds := by
  intro s
  exact ⟨[], ⟨h s, nofun⟩, fun _ => nofun⟩

theorem Lays.widen {wide narrow : List (Passage α)} {stricter : Layout α → Prop}
    (h : script.Lays ps owed succeeds) (hps : ps ⊆ wide) (howed : narrow ⊆ owed)
    (hs : ∀ s, stricter s → succeeds s) : script.Lays wide narrow stricter := by
  intro s
  obtain ⟨laid, hlaid, hall⟩ := h s
  exact ⟨laid, ⟨hlaid.lines, fun q hq => (hlaid.placed q hq).imp_left (hps ·)⟩,
    fun hstrict p hp => hall (hs s hstrict) p (howed hp)⟩

theorem Lays.andThen {other : Layout α → Prop} (h : first.Lays ps owed succeeds)
    (k : next.Lays qs more other) : (first.andThen next).Lays (ps ++ qs) (owed ++ more)
      fun s => succeeds s ∧ other (perform (first s) s) := by
  intro s
  obtain ⟨laid, hlaid, hall⟩ := h s
  obtain ⟨rest, hrest, hmore⟩ := k (perform (first s) s)
  refine ⟨laid ++ rest, ⟨?_, fun q hq => ?_⟩, fun hs p hp => ?_⟩
  · rw [List.flatMap_append, ← hlaid.lines, ← hrest.lines]
    exact linesIn_append _ _
  · rcases List.mem_append.mp hq with hq | hq
    · exact (hlaid.placed q hq).imp_left (List.mem_append_left _)
    · exact (hrest.placed q hq).imp_left (List.mem_append_right _)
  · rw [List.map_append]
    rcases List.mem_append.mp hp with hp | hp
    · exact List.mem_append_left _ (hall hs.1 p hp)
    · exact List.mem_append_right _ (hmore hs.2 p hp)

/-- Two scripts neither of which fails. -/
theorem Lays.both (h : first.Lays ps owed fun _ => True) (k : next.Lays qs more fun _ => True) :
    (first.andThen next).Lays (ps ++ qs) (owed ++ more) fun _ => True :=
  (h.andThen k).widen (List.Subset.refl _) (List.Subset.refl _) fun _ _ => ⟨trivial, trivial⟩

theorem Lays.byCase {test : Layout α → Bool} (h : first.Lays ps owed succeeds)
    (k : next.Lays ps owed succeeds) : (Script.byCase test first next).Lays ps owed succeeds := by
  intro s
  unfold Script.byCase
  cases test s with
  | true => exact h s
  | false => exact k s

theorem lays_each {β : Type} {script : β → Script α} {owed : β → List (Passage α)}
    {bs : List β} (h : ∀ b ∈ bs, (script b).Lays ps (owed b) fun _ => True) :
    (each script bs).Lays ps (bs.flatMap owed) fun _ => True := by
  induction bs with
  | nil =>
    exact (lays_quiet fun _ => rfl).widen (List.nil_subset _) (List.Subset.refl _) fun _ => id
  | cons b bs ih =>
    have hrest := ih fun c hc => h c (List.mem_cons_of_mem b hc)
    refine ((h b List.mem_cons_self).both hrest).widen ?_ ?_ fun _ => id
    · exact List.append_subset.mpr ⟨List.Subset.refl _, List.Subset.refl _⟩
    · rw [List.flatMap_cons]
      exact List.Subset.refl _

def Succeeds (act : FlowM α Unit) (s : Layout α) : Prop := (act.run s).1 = .ok ()

theorem Lays.andThen_runs {f : Layout α → Layout α} {act : FlowM α Unit}
    (h : first.Lays ps owed fun _ => True) (hf : first.Does f)
    (k : next.Lays qs more (Succeeds act)) :
    (first.andThen next).Lays (ps ++ qs) (owed ++ more) (Succeeds (modify f >>= fun _ => act)) := by
  refine (h.andThen k).widen (List.Subset.refl _) (List.Subset.refl _) fun s hs => ⟨trivial, ?_⟩
  rw [hf s]
  exact hs

theorem Lays.unlessFailed {act rest : FlowM α Unit} (h : first.Lays ps owed (Succeeds act))
    (hruns : first.Runs act) (k : next.Lays qs more (Succeeds rest)) :
    (Script.unlessFailed act first next).Lays (ps ++ qs) (owed ++ more)
      (Succeeds (act >>= fun _ => rest)) := by
  intro s
  have hs := hruns s
  rcases hr : act.run s with ⟨r, t⟩
  cases r with
  | error e =>
    obtain ⟨laid, hlaid, -⟩ := h s
    refine ⟨laid, ⟨?_, fun q hq => (hlaid.placed q hq).imp_left (List.mem_append_left _)⟩, ?_⟩
    · simp only [Script.unlessFailed, hr, List.append_nil]
      exact hlaid.lines
    · intro hok
      simp [Succeeds, run_bind, hr] at hok
  | ok _ =>
    have hboth := h.andThen k s
    have hacts : Script.unlessFailed act first next s = first.andThen next s := by
      simp only [Script.unlessFailed, hr]
      rfl
    rw [hacts]
    obtain ⟨laid, hlaid, hall⟩ := hboth
    refine ⟨laid, hlaid, fun hok => hall ⟨by simp [Succeeds, hr], ?_⟩⟩
    rw [hs, hr]
    simpa [Succeeds, run_bind, hr] using hok

end Script

namespace Layout

open Script

/-! ## Parts of blocks -/

theorem roomScript_quiet (needed : α) (s : Layout α) : linesIn (roomScript needed s) = [] := by
  unfold roomScript byCase
  split <;> rfl

/-- Only the line itself is drawn. -/
theorem linesIn_flowLineScript (run : InlineRun α) (width : α) (flow : TextFlow α)
    (line : LineBox α × Nat) (s : Layout α) :
    ∃ l, linesIn (flowLineScript run width flow line s) = [l] ∧ l.run = run ∧ l.line = line.1 := by
  refine ⟨flowingLine run width flow line (perform (roomScript line.1.height s) s), ?_, rfl, rfl⟩
  simp only [flowLineScript, Script.andThen, linesIn_append, roomScript_quiet, List.nil_append]
  rfl

theorem linesIn_each_flowLineScript (run : InlineRun α) (width : α) (flow : TextFlow α)
    (lines : List (LineBox α × Nat)) : ∀ s : Layout α,
      (∀ l ∈ linesIn (each (flowLineScript run width flow) lines s), l.run = run) ∧
        (linesIn (each (flowLineScript run width flow) lines s)).map (·.line) =
          lines.map Prod.fst := by
  induction lines with
  | nil => exact fun s => ⟨nofun, rfl⟩
  | cons line lines ih =>
    intro s
    obtain ⟨l, hl, hrun, hline⟩ := linesIn_flowLineScript run width flow line s
    obtain ⟨hruns, hlines⟩ := ih (perform (flowLineScript run width flow line s) s)
    simp only [each, Script.andThen, linesIn_append, hl, List.singleton_append, List.map_cons,
      hline, hlines]
    refine ⟨fun m hm => ?_, trivial⟩
    rcases List.mem_cons.mp hm with rfl | hm
    · exact hrun
    · exact hruns m hm

omit [Scalar α] in
theorem breakLines_empty [Scalar α] {run : InlineRun α} (h : run.tokens = []) (width : α)
    (flow : TextFlow α) : breakLines run width flow = [] := by
  simp [breakLines, h, Breaking.start, Breaking.markLast]

theorem flowScript_lays (p : Passage α) {run : InlineRun α} (h : p.run = run) (flow : TextFlow α) :
    (flowScript run flow).Lays [p] [p] fun _ => True := by
  subst h
  refine lays_of_lines fun s => ?_
  unfold flowScript
  split
  · next hempty =>
    have hnone : p.run.tokens = [] := by simpa using hempty
    exact ⟨nofun, 0, flow, (breakLines_empty hnone 0 flow).symm⟩
  · obtain ⟨hruns, hlines⟩ := linesIn_each_flowLineScript p.run s.availableWidth flow
      (breakLines p.run s.availableWidth flow).zipIdx s
    exact ⟨hruns, s.availableWidth, flow, by rw [hlines, List.zipIdx_map_fst]⟩

theorem linesIn_cellLines (run : InlineRun α) (x width : α) (align : TextAlign) (top : α)
    (lines : List (LineBox α)) :
    (∀ l ∈ linesIn (cellLines run x width align top lines), l.run = run) ∧
      (linesIn (cellLines run x width align top lines)).map (·.line) = lines := by
  induction lines generalizing top with
  | nil => exact ⟨nofun, rfl⟩
  | cons line lines ih =>
    obtain ⟨hruns, hlines⟩ := ih (top - line.height)
    simp only [cellLines, linesIn_line, List.map_cons, hlines]
    refine ⟨fun m hm => ?_, trivial⟩
    rcases List.mem_cons.mp hm with rfl | hm
    · rfl
    · exact hruns m hm

/-- What is painted under the lines of a cell is no line. -/
theorem linesIn_cellActs (style : TableStyle α) (top height : α) (p : Placed α) :
    linesIn (cellActs style top height p) =
      linesIn (cellLines p.run (p.x + p.cell.style.padding) (innerWidth p.cell p.width)
        p.cell.style.align (top - p.cell.style.padding - verticalOffset p.cell.style.valign
          (height - 2 * p.cell.style.padding - p.height)) p.lines) := by
  have hbox : linesIn (cellBox style top height p) = [] := by
    unfold cellBox
    cases p.cell.style.background <;> cases p.cell.style.border && style.border <;> rfl
  unfold cellActs
  simp only [linesIn_append, hbox, List.nil_append]

/-- A cell is a passage of its own. -/
theorem cellActs_laidAs (style : TableStyle α) (top height x0 : α) (widths : List α)
    (slot : Slot α) : (Passage.ofCell slot.cell).LaidAs
      (linesIn (cellActs style top height (placeSlot x0 widths slot))) := by
  obtain ⟨hruns, hlines⟩ := linesIn_cellLines (cellRun slot.cell)
    ((placeSlot x0 widths slot).x + slot.cell.style.padding)
    (innerWidth slot.cell (placeSlot x0 widths slot).width) slot.cell.style.align
    (top - slot.cell.style.padding - verticalOffset slot.cell.style.valign
      (height - 2 * slot.cell.style.padding - (placeSlot x0 widths slot).height))
    (placeSlot x0 widths slot).lines
  rw [Passage.LaidAs, Passage.run_ofCell, linesIn_cellActs]
  exact ⟨hruns, _, _, hlines⟩

theorem rowScript_lays (style : TableStyle α) (x0 : α) (widths : List α) (cells : List (Cell α)) :
    (rowScript style x0 widths cells).Lays (passagesOfRow widths.length cells)
      (passagesOfRow widths.length cells) fun _ => True := by
  intro s
  let height := rowHeight style (placeRow x0 widths cells)
  let acts (slot : Slot α) := cellActs style s.cursor height (placeSlot x0 widths slot)
  have hlines : linesIn (rowScript style x0 widths cells s) =
      (slots widths.length 0 cells).flatMap fun slot => linesIn (acts slot) := by
    simp only [rowScript, placeRow, linesIn, List.filterMap_append, List.filterMap_flatMap,
      List.flatMap_map]
    exact List.append_nil _
  refine ⟨(slots widths.length 0 cells).map fun slot =>
    (.ofCell slot.cell, linesIn (acts slot)), ⟨?_, fun q hq => ?_⟩, fun _ p hp => ?_⟩
  · rw [hlines, List.flatMap_map]
  · obtain ⟨slot, hslot, rfl⟩ := List.mem_map.mp hq
    exact ⟨List.mem_map_of_mem hslot, cellActs_laidAs ..⟩
  · rw [List.map_map]
    exact hp

theorem bodyRowScript_lays (style : TableStyle α) (header : List (Cell α)) (x0 : α)
    (widths : List α) (row : List (Cell α)) : (bodyRowScript style header x0 widths row).Lays
      (passagesOfRow widths.length header ++ passagesOfRow widths.length row)
      (passagesOfRow widths.length row) fun _ => True := by
  have hnone : (nothing : Script α).Lays (passagesOfRow widths.length header) [] fun _ => True :=
    (lays_quiet fun _ => rfl).widen (List.nil_subset _) (List.Subset.refl _) fun _ => id
  have hheader : (turnScript.andThen (byCase (fun _ => header.isEmpty) nothing
      (rowScript style x0 widths header))).Lays (passagesOfRow widths.length header) []
        fun _ => True :=
    (lays_quiet fun _ => rfl).both (hnone.byCase
      ((rowScript_lays style x0 widths header).widen (List.Subset.refl _) (List.nil_subset _)
        fun _ => id))
  exact (hheader.byCase hnone).both (rowScript_lays style x0 widths row)

theorem tableScript_lays (style : TableStyle α) (header : List (Cell α))
    (rows : List (List (Cell α))) : (tableScript style header rows).Lays
      (passagesOfTable style header rows) (passagesOfTable style header rows) fun _ => True := by
  intro s
  simp only [tableScript, passagesOfTable]
  rw [← length_columnWidths style (s.availableWidth *
    Scalar.within 0.01 1.0 (style.widthPercent / 100))]
  generalize columnWidths style _ = widths
  generalize s.tableStart style.align _ _ = x0
  let front := passagesOfRow widths.length header
  let body := rows.flatMap (passagesOfRow widths.length)
  have hheader : Script.Lays (if header.isEmpty then nothing
      else (roomScript (rowEstimate widths header)).andThen (rowScript style x0 widths header))
        front front fun _ => True := by
    split
    · next hempty =>
      obtain rfl := List.isEmpty_iff.mp hempty
      exact lays_quiet fun _ => rfl
    · exact (lays_quiet (roomScript_quiet _)).both (rowScript_lays style x0 widths header)
  have hrows : (each (bodyRowScript style header x0 widths) rows).Lays (front ++ body) body
      fun _ => True := by
    refine lays_each fun row hrow => (bodyRowScript_lays style header x0 widths row).widen ?_
      (List.Subset.refl _) fun _ => id
    refine List.append_subset.mpr ⟨List.subset_append_left _ _, fun p hp => ?_⟩
    exact List.mem_append_right _ (List.mem_flatMap.mpr ⟨row, hrow, hp⟩)
  have hlower : (lowerScript style.spacing).Lays [] [] fun _ => True := lays_quiet fun _ => rfl
  refine (hheader.both (hrows.both hlower)).widen ?_ ?_ (fun _ => id) s
  · simp only [List.append_nil, List.append_subset]
    exact ⟨List.subset_append_left _ _, List.subset_append_left _ _,
      List.subset_append_right _ _⟩
  · rw [List.append_nil]
    exact List.Subset.refl _

theorem rasterActs_quiet (data : Pdf.Bytes) (format : String) (pixels : Option (Nat × Nat))
    (b : Box α) : linesIn (rasterActs data format pixels b) = [] := by
  unfold rasterActs
  split <;> rfl

theorem imageScript_quiet (image : Image α) (s : Layout α) :
    linesIn (imageScript image s) = [] := by
  simp only [imageScript, placeScript, Script.andThen, linesIn_append, roomScript_quiet,
    rasterActs_quiet, List.nil_append]
  rfl

theorem drawableScript_quiet (d : Drawable α) (s : Layout α) :
    linesIn (drawableScript d s) = [] := by
  simp only [drawableScript, Script.andThen, linesIn_append, roomScript_quiet, List.nil_append]
  cases d.drawing with
  | raster data format =>
    simp only [placeScript, Script.andThen, linesIn_append, rasterActs_quiet, List.nil_append]
    rfl
  | vector content =>
    simp only
    cases (Pdf.decodeOperations? content : Option (List (Pdf.Operation α))) <;> rfl

theorem ruleScript_quiet (r : Rule α) (s : Layout α) : linesIn (ruleScript r s) = [] := by
  simp only [ruleScript, placeScript, Script.andThen, linesIn_append, roomScript_quiet,
    List.nil_append]
  rfl

theorem rectangleScript_quiet (r : Rectangle α) (s : Layout α) :
    linesIn (rectangleScript r s) = [] := by
  simp only [rectangleScript, placeScript, Script.andThen, linesIn_append, roomScript_quiet,
    List.nil_append]
  cases r.color <;> rfl

theorem spacerScript_quiet (lines : Nat) (leading : α) (s : Layout α) :
    linesIn (spacerScript lines leading s) = [] := by
  simp only [spacerScript, Script.andThen, Script.byCase, linesIn_append]
  split <;> rfl

theorem openScript_quiet (style : BlockStyle α) (flow : TextFlow α) (children : List (Node α))
    (s : Layout α) : linesIn (openScript style flow children s) = [] := by
  have hkeep (s : Layout α) : linesIn (keepScript flow children s) = [] := by
    unfold keepScript
    split
    · simp only
      split
      · exact roomScript_quiet _ s
      · rfl
    · rfl
  simp only [openScript, Script.andThen, Script.byCase, linesIn_append]
  split <;> split <;> first | rfl | exact hkeep _

theorem labelScript_quiet (style : ListStyle α) (index : Nat) (s : Layout α) :
    linesIn (labelScript style index s) = [] := by
  simp only [labelScript, Script.andThen, linesIn_append, roomScript_quiet]
  rfl

theorem closeItemScript_quiet (label : LabelPlace α) (s : Layout α) :
    linesIn (closeItemScript label s) = [] := by
  simp only [closeItemScript, Script.andThen, Script.byCase, linesIn_append]
  split <;> rfl

theorem titleScript_lays (label : String) (title : Node α) (fallback : Font α) :
    (titleScript label title fallback).Lays [.ofTitle label title fallback]
      [.ofTitle label title fallback] fun _ => True := by
  have hlower : (lowerScript ((title.firstFont?.getD fallback).size * 0.5) : Script α).Lays [] []
      fun _ => True := lays_quiet fun _ => rfl
  exact (flowScript_lays _ (Passage.run_ofTitle label title fallback) _).both hlower

theorem chapterScript_lays (number : Nat) (title : Node α) :
    (chapterScript number title).Lays [.ofTitle (toString number ++ ".") title chapterFont]
      [.ofTitle (toString number ++ ".") title chapterFont] fun _ => True := by
  have hturn :
      (byCase (·.page.hasContent) turnScript nothing : Script α).Lays [] [] fun _ => True :=
    (lays_quiet fun _ => rfl).byCase (lays_quiet fun _ => rfl)
  exact hturn.both (titleScript_lays _ title chapterFont)

theorem indentedScript_lays (width : α) {script : Script α} {ps owed : List (Passage α)}
    {act : FlowM α Unit} (h : script.Lays ps owed (Succeeds act)) :
    (indentedScript width script).Lays ps owed (Succeeds (indented width act)) := by
  intro s
  obtain ⟨laid, hlaid, hall⟩ := h { s with inset := s.inset + width }
  refine ⟨laid, ⟨?_, hlaid.placed⟩, hall⟩
  rw [← hlaid.lines]
  simp only [indentedScript, Script.andThen, linesIn_append]
  exact List.append_nil _

end Layout

/-! ## Nodes -/

open Layout Script

/-- Every line that is drawn while `act` runs belongs to one of the passages, and all of them are
laid out if it succeeds. -/
abbrev LaysOut (script : Script α) (ps : List (Passage α)) (act : FlowM α Unit) : Prop :=
  script.Lays ps ps (Succeeds act)

theorem laysOut_modify {script : Script α} {ps : List (Passage α)} {f : Layout α → Layout α}
    (h : script.Lays ps ps fun _ => True) : LaysOut script ps (modify f) :=
  h.widen (List.Subset.refl _) (List.Subset.refl _) fun _ _ => trivial

theorem inlineScript_lays (n : Node α) :
    LaysOut (inlineScript n) [.ofInline n] (modify (·.addInline n)) :=
  laysOut_modify (flowScript_lays _ (Passage.run_ofInline n) _)

mutual

theorem scriptOf_laysOut : (n : Node α) → LaysOut (scriptOf n) (passagesOf n) (addBlock n)
  | .paragraph style children => by
    have hopen : (openScript style (flowOf style) children).Lays [] [] fun _ => True :=
      lays_quiet (openScript_quiet style (flowOf style) children)
    have hclose : LaysOut (closeScript style) [] (modify (·.closeParagraph style)) :=
      lays_quiet fun _ => rfl
    have hmixed := scriptOfMixed_laysOut (flowOf style) .empty children
    have hall := hopen.andThen_runs (does_openScript style (flowOf style) children)
      (hmixed.unlessFailed (runs_scriptOfMixed (flowOf style) .empty children) hclose)
    rw [List.append_nil] at hall
    unfold addBlock scriptOf passagesOf
    exact hall
  | .list style items => by
    unfold addBlock scriptOf passagesOf
    exact scriptOfItems_laysOut style 1 items
  | .table style header rows | .gridTable style header rows => by
    unfold addBlock scriptOf passagesOf
    exact laysOut_modify (tableScript_lays style header rows)
  | .cell c | .gridCell c => by
    unfold addBlock scriptOf passagesOf
    exact scriptOfCell_laysOut c
  | .image image => by
    unfold scriptOf passagesOf
    exact lays_quiet (imageScript_quiet image)
  | .chart d | .vectorGraphic d => by
    unfold scriptOf passagesOf
    exact lays_quiet (drawableScript_quiet d)
  | .chapter number title children => by
    unfold addBlock scriptOf passagesOf
    exact (chapterScript_lays number title).andThen_runs (does_chapterScript number title)
      (scriptOfNodes_laysOut children)
  | .subsection number indent title children => by
    unfold addBlock scriptOf passagesOf
    exact (titleScript_lays _ title sectionFont).andThen_runs (does_titleScript _ title sectionFont)
      (indentedScript_lays indent (scriptOfNodes_laysOut children))
  | .note title text => by
    unfold scriptOf passagesOf
    exact lays_quiet fun _ => rfl
  | .rule r => by
    unfold scriptOf passagesOf
    exact lays_quiet (ruleScript_quiet r)
  | .spacer lines leading => by
    unfold scriptOf passagesOf
    exact lays_quiet (spacerScript_quiet lines leading)
  | .rectangle r => by
    unfold scriptOf passagesOf
    exact lays_quiet (rectangleScript_quiet r)
  | .reference _ target => by
    unfold addBlock scriptOf passagesOf
    exact scriptOf_laysOut target
  | .text _ | .subscript _ | .superscript _ | .phrase .. | .anchor .. => by
    unfold addBlock scriptOf passagesOf
    exact inlineScript_lays _

theorem scriptOfNodes_laysOut : (ns : List (Node α)) →
    LaysOut (scriptOfNodes ns) (passagesOfNodes ns) (addBlocks ns)
  | [] => by
    unfold scriptOfNodes passagesOfNodes
    exact lays_quiet fun _ => rfl
  | n :: ns => by
    unfold addBlocks scriptOfNodes passagesOfNodes
    exact (scriptOf_laysOut n).unlessFailed (runs_scriptOf n) (scriptOfNodes_laysOut ns)

theorem scriptOfCell_laysOut : (c : Cell α) →
    LaysOut (scriptOfCell c) (passagesOfCell c) (addCell c)
  | .mk _ content => by
    unfold addCell scriptOfCell passagesOfCell
    exact scriptOf_laysOut content

theorem scriptOfMixed_laysOut (flow : TextFlow α) (p : Passage α) : (ns : List (Node α)) →
    LaysOut (scriptOfMixed flow p.run ns) (passagesOfMixed p ns) (addMixed flow p.run ns)
  | [] => by
    unfold addMixed scriptOfMixed passagesOfMixed
    exact laysOut_modify (flowScript_lays p rfl flow)
  | n :: ns => by
    have hrun := p.run_join n
    unfold addMixed scriptOfMixed passagesOfMixed
    cases hjoin : p.join n with
    | some grown =>
      rw [hjoin] at hrun
      simp only [← hrun, Option.map_some]
      exact scriptOfMixed_laysOut flow grown ns
    | none =>
      rw [hjoin] at hrun
      simp only [← hrun, Option.map_none]
      exact (flowScript_lays p rfl flow).andThen_runs (does_flowScript p.run flow)
        ((scriptOf_laysOut n).unlessFailed (runs_scriptOf n)
          (scriptOfMixed_laysOut flow .empty ns))

theorem scriptOfItem_laysOut : (item : ListItem α) →
    LaysOut (scriptOfItem item) (passagesOfItem item) (addItem item)
  | .chunk n | .phrase n => by
    unfold addItem scriptOfItem passagesOfItem
    exact scriptOf_laysOut n

theorem scriptOfItems_laysOut (style : ListStyle α) (index : Nat) : (items : List (ListItem α)) →
    LaysOut (scriptOfItems style index items) (passagesOfItems items) (addItems style index items)
  | [] => by
    unfold scriptOfItems passagesOfItems
    exact lays_quiet fun _ => rfl
  | item :: rest => by
    intro s
    have hclose : (closeItemScript (s.drawLabel style index).1).Lays [] [] fun _ => True :=
      lays_quiet (closeItemScript_quiet _)
    have hrest := hclose.andThen_runs (does_closeItemScript (s.drawLabel style index).1)
      (scriptOfItems_laysOut style (index + 1) rest)
    have hitem := (indentedScript_lays (listIndent style)
      (scriptOfItem_laysOut item)).unlessFailed
        (runs_indentedScript (listIndent style) (runs_scriptOfItem item)) hrest
    obtain ⟨laid, hlaid, hall⟩ := hitem (s.drawLabel style index).2
    unfold scriptOfItems passagesOfItems
    refine ⟨laid, ⟨?_, hlaid.placed⟩, fun hok => hall ?_⟩
    · rw [Script.andThen, linesIn_append, labelScript_quiet, does_labelScript]
      exact hlaid.lines
    · rw [Succeeds, run_addItems_cons] at hok
      exact hok

end

/-- An empty document that has been opened. -/
def opened : Layout α := (openDocument.run .initial).2

end Folio.Flow
