import Folio.Proofs.Flow.Numbers

/-!
# Pages of finite content

The script of a finite node is finite, and every call with finite content keeps a layout finite: the
operands of whatever stands on a page are finite numbers.
-/
namespace Folio.Flow

open Style Pdf

namespace Layout

open Script

theorem finite_turnScript : (turnScript : Script Extended).Finite := finite_act fun _ _ => trivial

theorem finite_useScript : (useScript : Script Extended).Finite := finite_act fun _ _ => trivial

theorem finite_roomScript (needed : Extended) : (roomScript needed).Finite :=
  finite_turnScript.byCase finite_nothing

theorem finite_lowerScript {height : Extended} (h : height.Finite) : (lowerScript height).Finite :=
  finite_act fun _ hs => Extended.finite_sub.mpr ⟨hs.cursor, h⟩

theorem finite_insetScript {width : Extended} (h : width.Finite) :
    Script.Finite fun s : Layout Extended => [.toInset (s.inset + width)] :=
  finite_act fun _ hs => Extended.finite_add.mpr ⟨hs.inset, h⟩

/-! ## Lines and rows -/

theorem finite_flowScript {run : InlineRun Extended} {flow : TextFlow Extended} (hrun : run.Finite)
    (hflow : flow.Finite) : (flowScript run flow).Finite := by
  have hindent (line : LineBox Extended × ℕ) :
      (if line.2 = 0 then flow.firstLineIndent else 0).Finite := by
    split
    · exact hflow.firstLineIndent
    · exact Extended.finite_ofNat 0
  have hline {width : Extended} (hwidth : width.Finite) {line : LineBox Extended × ℕ}
      (h : line.1.Finite) : (flowLineScript run width flow line).Finite := by
    refine (finite_roomScript _).andThen (.andThen (finite_act fun s hs => ?_)
      ((finite_lowerScript h.height).andThen finite_useScript))
    exact ⟨hrun, h, Extended.finite_add.mpr ⟨hs.left, hindent line⟩,
      Extended.finite_sub.mpr ⟨hwidth, hindent line⟩, hs.cursor⟩
  intro s hs
  unfold flowScript
  split
  · exact List.forall_mem_nil _
  · have hlines := finite_breakLines hrun hflow s.availableWidth
    refine finite_each (fun line hmem => ?_) s hs
    obtain ⟨_, _, hget⟩ := List.mem_zipIdx hmem
    exact hline hs.availableWidth (hlines line.1 (hget ▸ List.getElem_mem _))

theorem finite_cellLines {run : InlineRun Extended} (hrun : run.Finite) {x width : Extended}
    (hx : x.Finite) (hwidth : width.Finite) (align : TextAlign)
    {lines : List (LineBox Extended)} (hlines : ∀ line ∈ lines, line.Finite) :
    ∀ {top : Extended}, top.Finite → ∀ a ∈ cellLines run x width align top lines, a.Finite := by
  induction lines with
  | nil => exact fun _ => List.forall_mem_nil _
  | cons line lines ih =>
    intro top htop
    have hline := hlines line List.mem_cons_self
    refine List.forall_mem_cons.mpr ⟨⟨hrun, hline, hx, hwidth, htop⟩, ih ?_ ?_⟩
    · exact fun other hother => hlines other (List.mem_cons_of_mem line hother)
    · exact Extended.finite_sub.mpr ⟨htop, hline.height⟩

theorem finite_cellActs (style : TableStyle Extended) {top height : Extended} (htop : top.Finite)
    (hheight : height.Finite) {p : Placed Extended} (hp : p.Finite) :
    ∀ a ∈ cellActs style top height p, a.Finite := by
  have hbottom : (top - height).Finite := Extended.finite_sub.mpr ⟨htop, hheight⟩
  have hbox : ∀ a ∈ cellBox style top height p, a.Finite := by
    refine List.forall_mem_append.mpr ⟨fun a ha => ?_, ?_⟩
    · obtain ⟨color, -, rfl⟩ := Option.map_eq_some_iff.mp (Option.mem_toList.mp ha)
      exact ⟨hp.x, hbottom, hp.width, hheight⟩
    · split
      · exact List.forall_mem_singleton.mpr
          ⟨⟨hp.x, hbottom, hp.width, hheight⟩, Extended.finite_ofScientific ..⟩
      · exact List.forall_mem_nil _
  have hfree : (height - 2 * p.cell.style.padding - p.height).Finite := by
    simp [hheight, hp.padding, hp.height]
  have hoffset := finite_verticalOffset p.cell.style.valign hfree
  refine List.forall_mem_append.mpr ⟨hbox, finite_cellLines hp.run ?_ ?_ _ hp.lines ?_⟩
  · exact Extended.finite_add.mpr ⟨hp.x, hp.padding⟩
  · exact finite_innerWidth hp.padding hp.width
  · simp [htop, hp.padding, hoffset]

theorem finite_rowScript {style : TableStyle Extended} (hstyle : style.Finite) {x0 : Extended}
    (hx : x0.Finite) {widths : List Extended} (hwidths : ∀ w ∈ widths, w.Finite)
    {cells : List (Cell Extended)} (hcells : ∀ c ∈ cells, c.Finite) :
    (rowScript style x0 widths cells).Finite := by
  have hplaced := finite_placeRow hwidths hcells hx
  have hheight := finite_rowHeight hstyle hplaced
  intro s hs
  refine List.forall_mem_append.mpr ⟨fun a ha => ?_, List.forall_mem_cons.mpr
    ⟨Extended.finite_sub.mpr ⟨hs.cursor, hheight⟩, List.forall_mem_singleton.mpr trivial⟩⟩
  obtain ⟨p, hp, ha⟩ := List.mem_flatMap.mp ha
  exact finite_cellActs style hs.cursor hheight (hplaced p hp) a ha

theorem Finite.tableStart {s : Layout Extended} (h : s.Finite) (align : TextAlign)
    {available total : Extended} (havailable : available.Finite) (htotal : total.Finite) :
    (s.tableStart align available total).Finite := by
  cases align <;> simp [Layout.tableStart, h.left, havailable, htotal]

theorem finite_tableScript {style : TableStyle Extended} (hstyle : style.Finite)
    {header : List (Cell Extended)} {rows : List (List (Cell Extended))}
    (hcells : ∀ row ∈ header :: rows, ∀ c ∈ row, c.Finite) :
    (tableScript style header rows).Finite := by
  have hheader := hcells header List.mem_cons_self
  have hrow {x0 : Extended} (hx : x0.Finite) {widths : List Extended}
      (hwidths : ∀ w ∈ widths, w.Finite) {row : List (Cell Extended)} (hmem : row ∈ rows) :
      (bodyRowScript style header x0 widths row).Finite :=
    .andThen (.byCase (finite_turnScript.andThen
      (.byCase finite_nothing (finite_rowScript hstyle hx hwidths hheader))) finite_nothing)
      (finite_rowScript hstyle hx hwidths (hcells row (List.mem_cons_of_mem header hmem)))
  intro s hs
  have htotal : (s.availableWidth * Scalar.within 0.01 1.0 (style.widthPercent / 100)).Finite := by
    have hpart : (Scalar.within 0.01 1.0 (style.widthPercent / 100) : Extended).Finite :=
      Extended.Finite.within (Extended.finite_ofScientific ..) (Extended.finite_ofScientific ..)
        (by simp [hstyle.widthPercent])
    exact Extended.finite_mul.mpr ⟨hs.availableWidth, hpart⟩
  have hx := hs.tableStart style.align hs.availableWidth htotal
  have hwidths := finite_columnWidths hstyle htotal
  refine Script.Finite.andThen ?_ ((finite_each fun row hmem => hrow hx hwidths hmem).andThen
    (finite_lowerScript hstyle.spacing)) s hs
  split
  · exact finite_nothing
  · exact (finite_roomScript _).andThen (finite_rowScript hstyle hx hwidths hheader)

/-! ## Blocks that are drawn as a whole -/

theorem finite_placeScript {height : Extended} (h : height.Finite) {acts : Script Extended}
    (hacts : acts.Finite) : (placeScript height acts).Finite :=
  hacts.andThen ((finite_lowerScript h).andThen finite_useScript)

theorem finite_rasterActs (data : Bytes) (format : String) (pixels : Option (ℕ × ℕ))
    {b : Box Extended} (h : b.Finite) : ∀ a ∈ rasterActs data format pixels b, a.Finite := by
  have hright : (b.x + b.width).Finite := Extended.finite_add.mpr ⟨h.x, h.width⟩
  have htop : (b.y + b.height).Finite := Extended.finite_add.mpr ⟨h.y, h.height⟩
  have hhalf : (0.5 : Extended).Finite := Extended.finite_ofScientific ..
  unfold rasterActs
  split
  · exact List.forall_mem_singleton.mpr h
  · refine List.forall_mem_cons.mpr ⟨⟨h, hhalf⟩, List.forall_mem_cons.mpr ⟨?_, ?_⟩⟩
    · exact ⟨⟨h.x, h.y⟩, ⟨hright, htop⟩, hhalf, nofun⟩
    · exact List.forall_mem_singleton.mpr ⟨⟨h.x, htop⟩, ⟨hright, h.y⟩, hhalf, nofun⟩

theorem Finite.blockStart {s : Layout Extended} (h : s.Finite) {width : Extended}
    (hwidth : width.Finite) (align : TextAlign) : (s.blockStart width align).Finite := by
  have hslack : (s.availableWidth - width).Finite :=
    Extended.finite_sub.mpr ⟨h.availableWidth, hwidth⟩
  have hzero : (0 : Extended).Finite := Extended.finite_ofNat 0
  cases align with
  | left => exact h.left
  | justified => exact h.left
  | center =>
    exact Extended.finite_add.mpr ⟨h.left, Extended.Finite.larger (by simp [hslack]) hzero⟩
  | right => exact Extended.finite_add.mpr ⟨h.left, hslack.larger hzero⟩

theorem finite_imageScript {image : Image Extended} (hwidth : image.width.Finite)
    (hheight : image.height.Finite) : (imageScript image).Finite := by
  refine (finite_roomScript _).andThen (finite_placeScript hheight fun s hs => ?_)
  exact finite_rasterActs _ _ _ ⟨hs.blockStart hwidth _,
    Extended.finite_sub.mpr ⟨hs.cursor, hheight⟩, hwidth, hheight⟩

theorem finite_drawableScript {d : Drawable Extended} (h : d.Finite) :
    (drawableScript d).Finite := by
  have hfoot {s : Layout Extended} (hs : s.Finite) : (s.cursor - d.height).Finite :=
    Extended.finite_sub.mpr ⟨hs.cursor, h.height⟩
  refine (finite_roomScript _).andThen ?_
  cases hdrawing : d.drawing with
  | raster data format =>
    refine finite_placeScript h.height fun s hs => ?_
    exact finite_rasterActs _ _ _ ⟨hs.left, hfoot hs, h.width, h.height⟩
  | vector content =>
    cases hops : (decodeOperations? content : Option (List (Operation Extended))) with
    | none =>
      simp only [hops]
      exact finite_nothing
    | some ops =>
      simp only [hops]
      refine finite_placeScript h.height (finite_act fun s hs => ?_)
      exact ⟨hs.left, hfoot hs, h.drawing content ops hdrawing hops⟩

theorem finite_ruleScript {r : Rule Extended} (hgap : r.gap.Finite) (hwidth : r.lineWidth.Finite) :
    (ruleScript r).Finite := by
  have hheight : (r.lineWidth + ruleClearance).Finite := by simp [hwidth, ruleClearance]
  refine (finite_roomScript _).andThen (finite_placeScript hheight (finite_act fun s hs => ?_))
  have hy : (s.cursor - (r.lineWidth + ruleClearance) / 2).Finite := by simp [hs.cursor, hheight]
  have hright : (s.geometry.width - s.geometry.margins.right).Finite :=
    Extended.finite_sub.mpr ⟨hs.geometry.width, hs.geometry.right⟩
  refine ⟨⟨hs.left, hy⟩, ⟨hright, hy⟩, hwidth, fun dash hdash => ?_⟩
  split at hdash
  · exact Option.some.inj hdash ▸ ⟨hwidth.larger (Extended.finite_ofNat 1), hgap⟩
  · cases hdash

theorem finite_spacerScript (lines : ℕ) {leading : Extended} (h : leading.Finite) :
    (spacerScript lines leading).Finite := by
  refine (Script.Finite.byCase finite_turnScript (finite_lowerScript ?_)).andThen finite_useScript
  simp [h]

theorem finite_rectangleScript {r : Rectangle Extended} (hwidth : r.width.Finite)
    (hheight : r.height.Finite) : (rectangleScript r).Finite := by
  refine (finite_roomScript _).andThen (finite_placeScript hheight fun s hs => ?_)
  have hbox : Box.Finite ⟨s.left, s.cursor - r.height, r.width, r.height⟩ :=
    ⟨hs.left, Extended.finite_sub.mpr ⟨hs.cursor, hheight⟩, hwidth, hheight⟩
  refine List.forall_mem_append.mpr ⟨fun a ha => ?_, ?_⟩
  · obtain ⟨color, -, rfl⟩ := Option.map_eq_some_iff.mp (Option.mem_toList.mp ha)
    exact hbox
  · exact List.forall_mem_singleton.mpr ⟨hbox, Extended.finite_ofNat 1⟩

theorem finite_noteScript (title text : String) :
    (noteScript title text : Script Extended).Finite :=
  fun _ _ => List.forall_mem_cons.mpr ⟨trivial, List.forall_mem_singleton.mpr trivial⟩

/-! ## Parts of paragraphs, lists and titles -/

theorem finite_openScript {style : BlockStyle Extended} (h : style.Finite)
    (flow : TextFlow Extended) (children : List (Node Extended)) :
    (openScript style flow children).Finite := by
  have hkeep : (keepScript flow children).Finite := by
    intro s hs
    unfold keepScript
    split
    · simp only
      split
      · exact finite_roomScript _ s hs
      · exact List.forall_mem_nil _
    · exact List.forall_mem_nil _
  exact .andThen (.byCase (finite_lowerScript h.spacingBefore) finite_nothing)
    ((finite_insetScript h.indent).andThen (hkeep.byCase finite_nothing))

theorem finite_closeScript {style : BlockStyle Extended} (h : style.Finite) :
    (closeScript style).Finite :=
  fun _ hs => List.forall_mem_cons.mpr ⟨Extended.finite_sub.mpr ⟨hs.inset, h.indent⟩,
    List.forall_mem_singleton.mpr (Extended.finite_sub.mpr ⟨hs.cursor, h.spacingAfter⟩)⟩

theorem finite_indentedScript {width : Extended} (hwidth : width.Finite) {script : Script Extended}
    (h : script.Finite) : (indentedScript width script).Finite :=
  (finite_insetScript hwidth).andThen (h.andThen
    (finite_act fun _ hs => Extended.finite_sub.mpr ⟨hs.inset, hwidth⟩))

theorem finite_titleLeading {title : Node Extended} (h : title.Finite) :
    ∀ x ∈ titleLeading title, x.Finite := by
  unfold titleLeading
  split
  · cases h with
    | paragraph hstyle hchildren => exact hstyle.leading
  · exact nofun

theorem finite_titleRun (label : String) {title : Node Extended} (h : title.Finite)
    {font : Font Extended} (hfont : font.size.Finite) : (titleRun label title font).Finite := by
  have hnodes : ∀ n ∈ titleNodes title, n.Finite := by
    unfold titleNodes
    split
    · cases h with
      | paragraph hstyle hchildren => exact hchildren
    · exact List.forall_mem_singleton.mpr h
  refine finite_collectChildren _ hnodes hfont none ?_
  split
  · exact .empty
  · exact InlineRun.Finite.empty.pushPlain _ hfont none

theorem finite_titleScript (label : String) {title : Node Extended} (h : title.Finite)
    {fallback : Font Extended} (hfallback : fallback.size.Finite) :
    (titleScript label title fallback).Finite := by
  have hfont : (title.firstFont?.getD fallback).size.Finite := by
    cases hfirst : title.firstFont? with
    | none => exact hfallback
    | some font => exact title.finite_firstFont h font hfirst
  refine (finite_flowScript (finite_titleRun label h hfont)
    (TextFlow.finite_plain (finite_titleLeading h) _)).andThen (finite_lowerScript ?_)
  simp [hfont]

theorem finite_chapterScript (number : ℕ) {title : Node Extended} (h : title.Finite) :
    (chapterScript number title).Finite :=
  .andThen (.byCase finite_turnScript finite_nothing)
    (finite_titleScript _ h (Extended.finite_ofNat 16))

theorem finite_listIndent {style : ListStyle Extended} (h : style.indent.Finite) :
    (listIndent style).Finite := by
  unfold listIndent
  split
  · exact h
  · exact Extended.finite_ofNat 20

theorem finite_labelScript {style : ListStyle Extended} (h : style.font.size.Finite)
    (index : ℕ) : (labelScript style index).Finite := by
  have hsize : (labelFont style).size.Finite := h
  unfold labelScript
  refine (finite_roomScript _).andThen fun s hs => List.forall_mem_singleton.mpr ?_
  refine ⟨hsize, hs.left, ?_⟩
  simp [hs.cursor, hsize, lineHeightFactor, descent]

/-- The foot of the line of a label. -/
theorem Finite.foot {s : Layout Extended} (h : s.Finite) {style : ListStyle Extended}
    (hsize : style.font.size.Finite) (index : ℕ) : (s.drawLabel style index).1.foot.Finite := by
  have hfont : (labelFont style).size.Finite := hsize
  have hroom : (s.ensureSpace ((labelFont style).size * lineHeightFactor)).Finite := by
    have hperformed := h.perform
      (finite_roomScript ((labelFont style).size * lineHeightFactor) s h)
    rwa [does_roomScript] at hperformed
  have hheight : ((labelFont style).size * lineHeightFactor).Finite := by
    simp [hfont, lineHeightFactor]
  have hdescent : ((labelFont style).size * descent).Finite := by simp [hfont, descent]
  simp only [Layout.drawLabel, Extended.finite_sub, Extended.finite_add]
  exact ⟨⟨⟨hroom.cursor, hheight⟩, hdescent⟩, hdescent⟩

theorem finite_closeItemScript {label : LabelPlace Extended} (h : label.foot.Finite) :
    (closeItemScript label).Finite :=
  .andThen (.byCase (finite_act fun _ _ => h) finite_nothing) finite_useScript

end Layout

/-! ## Nodes -/

open Layout Script

theorem finite_flowOf {style : BlockStyle Extended} (h : style.Finite) : (flowOf style).Finite :=
  ⟨h.leading, h.firstLineIndent⟩

theorem finite_inlineScript {n : Node Extended} (h : n.Finite) : (inlineScript n).Finite :=
  finite_flowScript (finite_inlineRun h) (TextFlow.finite_unled _)

mutual

theorem finite_scriptOf : (n : Node Extended) → n.Finite → (scriptOf n).Finite
  | .paragraph style children, .paragraph hstyle hchildren => by
    have hmixed := finite_scriptOfMixed (finite_flowOf hstyle) .empty children hchildren
    unfold scriptOf
    exact (finite_openScript hstyle _ children).andThen
      (hmixed.unlessFailed (finite_closeScript hstyle))
  | .list style items, .list hsize hindent hitems => by
    unfold scriptOf
    exact finite_scriptOfItems hsize hindent 1 items hitems
  | .table style header rows, .table hstyle hpaddings hcontents
  | .gridTable style header rows, .gridTable hstyle hpaddings hcontents => by
    unfold scriptOf
    exact finite_tableScript hstyle fun row hrow c hc =>
      ⟨hpaddings row hrow c hc, hcontents row hrow c hc⟩
  | .cell (.mk style content), .cell _ hcontent
  | .gridCell (.mk style content), .gridCell _ hcontent => by
    unfold scriptOf scriptOfCell
    exact finite_scriptOf content hcontent
  | .image image, .image hwidth hheight => by
    unfold scriptOf
    exact finite_imageScript hwidth hheight
  | .chart d, .chart hd | .vectorGraphic d, .vectorGraphic hd => by
    unfold scriptOf
    exact finite_drawableScript hd
  | .chapter number title children, .chapter htitle hchildren => by
    unfold scriptOf
    exact (finite_chapterScript number htitle).andThen (finite_scriptOfNodes children hchildren)
  | .subsection number indent title children, .subsection hindent htitle hchildren => by
    unfold scriptOf
    exact (finite_titleScript _ htitle (Extended.finite_ofNat 12)).andThen
      (finite_indentedScript hindent (finite_scriptOfNodes children hchildren))
  | .note title text, _ => by
    unfold scriptOf
    exact finite_noteScript title text
  | .rule r, .rule hgap hlineWidth => by
    unfold scriptOf
    exact finite_ruleScript hgap hlineWidth
  | .spacer lines leading, .spacer hleading => by
    unfold scriptOf
    exact finite_spacerScript lines hleading
  | .rectangle r, .rectangle hwidth hheight => by
    unfold scriptOf
    exact finite_rectangleScript hwidth hheight
  | .reference _ target, .reference htarget => by
    unfold scriptOf
    exact finite_scriptOf target htarget
  | .text _, h | .subscript _, h | .superscript _, h | .phrase .., h | .anchor .., h => by
    unfold scriptOf
    exact finite_inlineScript h

theorem finite_scriptOfNodes : (ns : List (Node Extended)) → (∀ n ∈ ns, n.Finite) →
    (scriptOfNodes ns).Finite
  | [], _ => by
    unfold scriptOfNodes
    exact finite_nothing
  | n :: ns, h => by
    unfold scriptOfNodes
    exact (finite_scriptOf n (h n List.mem_cons_self)).unlessFailed
      (finite_scriptOfNodes ns fun m hm => h m (List.mem_cons_of_mem n hm))

theorem finite_scriptOfMixed {flow : TextFlow Extended} (hflow : flow.Finite)
    {run : InlineRun Extended} (hrun : run.Finite) : (ns : List (Node Extended)) →
    (∀ n ∈ ns, n.Finite) → (scriptOfMixed flow run ns).Finite
  | [], _ => by
    unfold scriptOfMixed
    exact finite_flowScript hrun hflow
  | n :: ns, h => by
    have hn := h n List.mem_cons_self
    have hns : ∀ m ∈ ns, m.Finite := fun m hm => h m (List.mem_cons_of_mem n hm)
    unfold scriptOfMixed
    split
    · next collected hcollected =>
      have hgrown := finite_collectInline n hn none hrun collected hcollected
      exact finite_scriptOfMixed hflow hgrown ns hns
    · exact (finite_flowScript hrun hflow).andThen
        ((finite_scriptOf n hn).unlessFailed (finite_scriptOfMixed hflow .empty ns hns))

theorem finite_scriptOfItems {style : ListStyle Extended} (hsize : style.font.size.Finite)
    (hindent : style.indent.Finite) (index : ℕ) : (items : List (ListItem Extended)) →
    (∀ item ∈ items, item.node.Finite) → (scriptOfItems style index items).Finite
  | [], _ => by
    unfold scriptOfItems
    exact finite_nothing
  | .chunk n :: rest, h | .phrase n :: rest, h => by
    have hitem := finite_indentedScript (finite_listIndent hindent)
      (finite_scriptOf n (h _ List.mem_cons_self))
    have hrest := finite_scriptOfItems hsize hindent (index + 1) rest
      fun item hmem => h item (List.mem_cons_of_mem _ hmem)
    intro s hs
    have hclose := finite_closeItemScript (hs.foot hsize index)
    unfold scriptOfItems scriptOfItem
    exact (finite_labelScript hsize index).andThen (hitem.unlessFailed (hclose.andThen hrest)) s hs

end

/-! ## Calls -/

namespace Layout.Finite

variable {s : Layout Extended}

theorem finite_standard : (Geometry.standard : Geometry Extended).Finite :=
  ⟨Extended.finite_natCast 595, Extended.finite_natCast 842, Extended.finite_ofNat 36,
    Extended.finite_ofNat 36, Extended.finite_ofNat 36, Extended.finite_ofNat 36⟩

theorem initial : (.initial : Layout Extended).Finite where
  geometry := finite_standard
  footer f hf := (Option.not_mem_none f hf).elim
  events := rfl
  cursor := Extended.finite_sub.mpr ⟨finite_standard.height, finite_standard.top⟩
  inset := Extended.finite_ofNat 0
  page := .blank 1
  finished := List.forall_mem_nil _

theorem add (h : s.Finite) {n : Node Extended} (hn : n.Finite) : ((Flow.add n).run s).2.Finite := by
  unfold Flow.add
  rcases run_afterOpen (addBlock n) (s := s) with ⟨-, hrun⟩ | ⟨-, hrun⟩
  · rw [hrun, ← runs_scriptOf n s]
    exact h.perform (finite_scriptOf n hn s h)
  · rw [hrun]
    exact h

theorem newPage (h : s.Finite) : (Flow.newPage.run s).2.Finite := by
  by_cases hopen : s.phase = .opened
  · rw [run_newPage hopen]
    split
    · exact h.finishPage.startPage _
    · exact h
  · unfold Flow.newPage
    rcases run_afterOpen _ (s := s) with ⟨hphase, -⟩ | ⟨-, hrun⟩
    · exact absurd hphase hopen
    · rw [hrun]
      exact h

theorem openDocument (h : s.Finite) :
    ((Flow.openDocument.run s : Except EngineError Unit × Layout Extended)).2.Finite := by
  unfold Flow.openDocument
  rw [run_bind, run_get]
  by_cases hphase : s.phase = .configuring
  · simp only [hphase, ↓reduceIte, run_modify]
    exact startPage (s := { s with phase := .opened }) { h with } 1
  · simp only [hphase, ↓reduceIte, run_throw]
    exact h

end Layout.Finite

/-- A call that gives the engine finite numbers only, and no event. -/
def Call.Finite : Call Extended → Prop
  | .setGeometry geometry => geometry.Finite
  | .setFooter footer => ∀ f ∈ footer, f.font.size.Finite
  | .addEvent _ => False
  | .add n => n.Finite
  | .setInfo _ | .setHeader _ | .openDocument | .newPage => True

theorem Layout.Finite.call {s : Layout Extended} (h : s.Finite) {call : Call Extended}
    (hcall : call.Finite) : (call.apply s).Finite := by
  cases call with
  | setGeometry geometry =>
    have htop : (Layout.top geometry).Finite := Extended.finite_sub.mpr ⟨hcall.height, hcall.top⟩
    simp only [Call.apply, Layout.setGeometry]
    split
    · exact { h with geometry := hcall, cursor := htop }
    · exact h
  | setInfo info => exact { h with }
  | setFooter footer => exact { h with footer := hcall }
  | setHeader header => exact { h with }
  | addEvent event => exact hcall.elim
  | openDocument => exact h.openDocument
  | add n => exact h.add hcall
  | newPage => exact h.newPage

theorem Layout.Finite.conclude {s : Layout Extended} (h : s.Finite) : s.conclude.Finite := by
  unfold Layout.conclude
  split
  · exact { h.finishPage with }
  · exact { h with }

end Folio.Flow
