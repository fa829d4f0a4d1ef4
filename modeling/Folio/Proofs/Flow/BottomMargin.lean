import Folio.Proofs.Exact
import Folio.Proofs.Flow.Flown
import Folio.Proofs.Flow.Ink
import Mathlib.Tactic.Linarith

/-!
# The bottom margin

A page that is not empty is turned before a line that does not fit is drawn, so a line that would
fit on a page of its own ends above the bottom margin unless it stands on an empty page below its
top. In exact arithmetic that never happens as long as every block that leaves space behind itself
has drawn something; a block without content lowers the cursor of a page that does not count as used.
-/
namespace Folio.Flow

open Style Pdf

section

variable {α : Type} [Scalar α]

/-! ## Nodes that leave something behind -/

mutual

/-- Does adding a node leave a page that is used, on whatever page it begins? -/
def Fills : Node α → Prop
  | .text run | .subscript run | .superscript run => ink run.text ≠ []
  | .phrase _ children => ink (Node.textOfNodes children) ≠ []
  | .anchor _ _ content => ink content.textContent ≠ []
  | .paragraph _ children => AnyFills children
  | .list _ items => items ≠ []
  | .table _ header rows | .gridTable _ header rows => header ≠ [] ∨ rows ≠ []
  | .cell c | .gridCell c => CellFills c
  | .subsection number _ title children =>
    (number ≠ [] ∨ ink title.textContent ≠ []) ∨ AnyFills children
  | .reference _ target => Fills target
  | .image _ | .chart _ | .vectorGraphic _ | .note .. | .chapter .. => True
  | .rule _ | .spacer .. | .rectangle _ => True

def AnyFills : List (Node α) → Prop
  | [] => False
  | n :: ns => Fills n ∨ AnyFills ns

def CellFills : Cell α → Prop
  | .mk _ content => Fills content

end

mutual

/-- Has every block in a node drawn something when it leaves space behind itself? -/
def Solid : Node α → Prop
  | .paragraph style children => AllSolid children ∧
      (0 < style.spacingAfter ∨ style.keepTogether = true → AnyFills children)
  | .list _ items => ItemsSolid items
  | .table _ header rows | .gridTable _ header rows => header ≠ [] ∨ rows ≠ []
  | .cell c | .gridCell c => CellSolid c
  | .chapter _ _ children => AllSolid children
  | .subsection number _ title children =>
    (number ≠ [] ∨ ink title.textContent ≠ []) ∧ AllSolid children
  | .reference _ target => Solid target
  | _ => True

def AllSolid : List (Node α) → Prop
  | [] => True
  | n :: ns => Solid n ∧ AllSolid ns

def CellSolid : Cell α → Prop
  | .mk _ content => Solid content

def ItemSolid : ListItem α → Prop
  | .chunk n | .phrase n => Solid n

def ItemsSolid : List (ListItem α) → Prop
  | [] => True
  | item :: rest => ItemSolid item ∧ ItemsSolid rest

end

/-- An inline node that fills has text that is seen. -/
theorem ink_of_fills {link : Option String} {run grown : InlineRun α} : (n : Node α) → Fills n →
    collectInline link run n = some grown → ink n.textContent ≠ []
  | .text _, h, _ | .subscript _, h, _ | .superscript _, h, _ | .phrase .., h, _
  | .anchor .., h, _ => by simpa only [Fills, Node.textContent] using h
  | .reference _ target, h, hn => by
    simp only [Fills] at h
    simp only [collectInline] at hn
    simpa only [Node.textContent] using ink_of_fills target h hn
  | .paragraph .., _, hn | .list .., _, hn | .table .., _, hn | .gridTable .., _, hn
  | .cell _, _, hn | .gridCell _, _, hn | .image _, _, hn | .chart _, _, hn
  | .vectorGraphic _, _, hn | .note .., _, hn | .chapter .., _, hn | .subsection .., _, hn
  | .rule _, _, hn | .spacer .., _, hn | .rectangle _, _, hn => by simp [collectInline] at hn

/-! ## Lines that are drawn -/

namespace Layout

theorem flowLine_used (run : InlineRun α) (width : α) (flow : TextFlow α) (s : Layout α)
    (line : LineBox α × Nat) : (flowLine run width flow s line).page.hasContent = true := rfl

theorem foldl_flowLine_used (run : InlineRun α) (width : α) (flow : TextFlow α)
    (lines : List (LineBox α × Nat)) {s : Layout α} (h : s.page.hasContent = true ∨ lines ≠ []) :
    (lines.foldl (flowLine run width flow) s).page.hasContent = true := by
  induction lines generalizing s with
  | nil => exact h.resolve_right fun hne => hne rfl
  | cons line lines ih => exact ih (.inl (flowLine_used ..))

/-- Text that is seen is on some line. -/
theorem breakLines_ne_nil {run : InlineRun α} (hclean : ∀ t ∈ run.tokens, t.Clean)
    (h : inkOf run.tokens ≠ []) (width : α) (flow : TextFlow α) :
    breakLines run width flow ≠ [] := by
  obtain ⟨hink, -⟩ := breakLines_kept run width flow hclean
  intro hnone
  rw [hnone] at hink
  exact h hink.symm

theorem flowInline_used {run : InlineRun α} (hclean : ∀ t ∈ run.tokens, t.Clean) (flow : TextFlow α)
    {s : Layout α} (h : s.page.hasContent = true ∨ inkOf run.tokens ≠ []) :
    (s.flowInline run flow).page.hasContent = true := by
  unfold flowInline
  split
  · next hempty =>
    refine h.resolve_right fun hink => hink ?_
    rw [List.isEmpty_iff.mp hempty]
    rfl
  · refine foldl_flowLine_used _ _ _ _ (h.imp_right fun hink hnone => ?_)
    exact breakLines_ne_nil hclean hink _ _ (List.zipIdx_eq_nil_iff.mp hnone)

theorem titleRun_gains (label : String) (title : Node α) (font : Font α) : ∃ shown,
    Gains .empty (titleRun label title font) shown ∧
      (ink label ≠ [] ∨ ink title.textContent ≠ [] → ink shown ≠ []) := by
  have htitle : Node.textOfNodes (titleNodes title) = title.textContent := by
    cases title <;> simp [titleNodes, Node.textContent]
  unfold titleRun
  simp only
  split
  · next hempty =>
    refine ⟨_, collectChildren_gains _ font none .empty, fun h => ?_⟩
    obtain rfl : label = "" := by simpa using hempty
    rw [htitle]
    exact h.resolve_left fun hlabel => hlabel rfl
  · refine ⟨_, (pushText_gains .empty (label ++ " ") _).trans (collectChildren_gains _ font none _),
      fun h hnone => ?_⟩
    rw [ink_append, ink_append, htitle] at hnone
    simp only [List.append_eq_nil_iff] at hnone
    exact h.elim (· hnone.1.1) (· hnone.2)

theorem addTitle_used {label : String} {title : Node α} (fallback : Font α) {s : Layout α}
    (h : s.page.hasContent = true ∨ ink label ≠ [] ∨ ink title.textContent ≠ []) :
    (s.addTitle label title fallback).page.hasContent = true := by
  obtain ⟨shown, hgains, hshown⟩ := titleRun_gains label title (title.firstFont?.getD fallback)
  refine flowInline_used (hgains.clean nofun) _ (h.imp_right fun hseen => ?_)
  rw [hgains.ink]
  exact hshown hseen

theorem addRow_used (style : TableStyle α) (x0 : α) (widths : List α) (s : Layout α)
    (cells : List (Cell α)) : (addRow style x0 widths s cells).page.hasContent = true := rfl

theorem addTable_used {header : List (Cell α)} {rows : List (List (Cell α))}
    (h : header ≠ [] ∨ rows ≠ []) (s : Layout α) (style : TableStyle α) :
    (s.addTable style header rows).page.hasContent = true := by
  have hrows {x0 : α} {widths : List α} (rows : List (List (Cell α))) : ∀ t : Layout α,
      t.page.hasContent = true ∨ rows ≠ [] →
        (rows.foldl (addBodyRow style header x0 widths) t).page.hasContent = true := by
    induction rows with
    | nil => exact fun t h => h.resolve_right fun hne => hne rfl
    | cons row rows ih => exact fun t _ => ih _ (.inl (addRow_used ..))
  refine hrows rows _ ?_
  by_cases hrows : rows = []
  · left
    rw [if_neg (by simpa using h.resolve_right fun hne => hne hrows)]
    exact addRow_used ..
  · exact .inr hrows

end Layout

theorem ink_number (n : Nat) : ink (toString n ++ ".") ≠ [] := by
  rw [ink_append]
  exact List.append_ne_nil_of_right_ne_nil _ (by decide)

theorem ink_sectionLabel {number : List Nat} (h : number ≠ []) :
    ink (sectionLabel number) ≠ [] := by
  obtain ⟨n, rest, rfl⟩ := List.exists_cons_of_ne_nil h
  have hlabel : sectionLabel (n :: rest) = (toString n ++ ".") ++ sectionLabel rest := by
    simp [sectionLabel]
  rw [hlabel, ink_append]
  exact List.append_ne_nil_of_left_ne_nil (ink_number n) _

end

/-! ## Pages in use -/

/-- A page that does not count as used is not filled below its top. -/
structure Ready (s : Layout ℚ) : Prop where
  top : s.page.hasContent = false → Layout.top s.geometry ≤ s.cursor

theorem ready_of_used {s : Layout ℚ} (h : s.page.hasContent = true) : Ready s :=
  ⟨fun hunused => absurd (h.symm.trans hunused) nofun⟩

theorem ready_startPage (s : Layout ℚ) (number : Nat) : Ready (s.startPage number) := by
  refine ⟨fun _ => ?_⟩
  unfold Layout.startPage
  simp only
  split <;> exact le_refl (Layout.top s.geometry)

theorem ready_breakPage (s : Layout ℚ) : Ready s.breakPage := ready_startPage s.finishPage _

theorem Ready.ensureSpace {s : Layout ℚ} (h : Ready s) (needed : ℚ) :
    Ready (s.ensureSpace needed) := by
  unfold Layout.ensureSpace
  split
  · exact ready_breakPage s
  · exact h

theorem Ready.flowInline {s : Layout ℚ} (h : Ready s) (run : InlineRun ℚ) (flow : TextFlow ℚ) :
    Ready (s.flowInline run flow) := by
  unfold Layout.flowInline
  split
  · exact h
  · simp only
    cases (breakLines run s.availableWidth flow).zipIdx with
    | nil => exact h
    | cons line lines =>
      exact ready_of_used (Layout.foldl_flowLine_used _ _ _ _ (.inr (List.cons_ne_nil line lines)))

theorem Ready.flown {s : Layout ℚ} (h : Ready s) (run : InlineRun ℚ) (flow : TextFlow ℚ) :
    ∀ f ∈ s.flown run flow, Ready f.before := by
  have hfrom (lines : List (LineBox ℚ × Nat)) : ∀ t : Layout ℚ, Ready t →
      ∀ f ∈ Layout.flownFrom run s.availableWidth flow t lines, Ready f.before := by
    induction lines with
    | nil => exact fun _ _ => List.forall_mem_nil _
    | cons line lines ih =>
      intro t ht
      have hnext := ready_of_used (Layout.flowLine_used run s.availableWidth flow t line)
      exact List.forall_mem_cons.mpr ⟨ht, ih _ hnext⟩
  unfold Layout.flown
  split
  · exact List.forall_mem_nil _
  · exact hfrom _ s h

/-! ## Blocks -/

/-- What adding comes to on a page that is ready. -/
structure Behaved (fills : Prop) (act : FlowM ℚ Unit) (lines : Lines ℚ)
    (s : Layout ℚ) : Prop where
  ready : Ready (act.run s).2
  used : (act.run s).1 = .ok () → s.page.hasContent = true ∨ fills →
    (act.run s).2.page.hasContent = true
  lines : ∀ f ∈ lines s, Ready f.before

def Behaves (fills : Prop) (act : FlowM ℚ Unit) (lines : Lines ℚ) : Prop :=
  ∀ s, Ready s → Behaved fills act lines s

theorem behaves_pure : Behaves False (pure ()) fun _ => [] := fun _ hs =>
  ⟨hs, fun _ hused => hused.resolve_right id, List.forall_mem_nil _⟩

theorem behaves_modify {fills : Prop} {f : Layout ℚ → Layout ℚ}
    {lines : Lines ℚ} (hready : ∀ s, Ready s → Ready (f s))
    (hused : ∀ s, s.page.hasContent = true ∨ fills → (f s).page.hasContent = true)
    (hlines : ∀ s, Ready s → ∀ f ∈ lines s, Ready f.before) : Behaves fills (modify f) lines :=
  fun s hs => ⟨hready s hs, fun _ => hused s, hlines s hs⟩

/-- A block that always leaves its page in use, and no line. -/
theorem behaves_filling {fills : Prop} {f : Layout ℚ → Layout ℚ}
    (h : ∀ s, (f s).page.hasContent = true) : Behaves fills (modify f) fun _ => [] :=
  behaves_modify (fun s _ => ready_of_used (h s)) (fun s _ => h s) fun _ _ => List.forall_mem_nil _

theorem Behaves.then {fills more : Prop} {act next : FlowM ℚ Unit}
    {first rest : Lines ℚ} (h : Behaves fills act first)
    (k : Behaves more next rest) :
    Behaves (fills ∨ more) (act >>= fun _ => next) (linesThen act first rest) := by
  intro s hs
  obtain ⟨hready, hused, hlines⟩ := h s hs
  have hrun := run_bind act (fun _ => next) s
  rcases hr : act.run s with ⟨r, t⟩
  rw [hr] at hready hused hrun
  cases r with
  | error e =>
    refine ⟨hrun ▸ hready, fun hok => ?_, ?_⟩
    · rw [hrun] at hok
      cases hok
    · simpa [linesThen, hr] using hlines
  | ok u =>
    obtain ⟨hready', hused', hlines'⟩ := k t hready
    refine ⟨hrun ▸ hready', fun hok hpage => ?_, ?_⟩
    · rw [hrun] at hok ⊢
      rcases hpage with hpage | hfills | hmore
      · exact hused' hok (.inl (hused rfl (.inl hpage)))
      · exact hused' hok (.inl (hused rfl (.inr hfills)))
      · exact hused' hok (.inr hmore)
    · simp only [linesThen, hr, List.mem_append]
      exact fun f hf => hf.elim (hlines f) (hlines' f)

theorem behaves_flowInline {run : InlineRun ℚ} (hclean : ∀ t ∈ run.tokens, t.Clean)
    (flow : TextFlow ℚ) : Behaves (inkOf run.tokens ≠ []) (modify (·.flowInline run flow))
      fun s => s.flown run flow :=
  behaves_modify (fun _ hs => hs.flowInline run flow)
    (fun _ => Layout.flowInline_used hclean flow) fun _ hs => hs.flown run flow

theorem Behaves.weaken {fills more : Prop} {act : FlowM ℚ Unit} {lines : Lines ℚ}
    (h : Behaves fills act lines) (hmore : more → fills) : Behaves more act lines := fun s hs =>
  ⟨(h s hs).ready, fun hok hused => (h s hs).used hok (hused.imp_right hmore), (h s hs).lines⟩

theorem behaves_addInline {n : Node ℚ} {run : InlineRun ℚ}
    (hn : collectInline none .empty n = some run) :
    Behaves (Fills n) (modify (·.addInline n)) fun s => s.flownInline n := by
  have hgains := collectInline_gains n hn
  have hink : inkOf run.tokens = ink n.textContent := hgains.ink
  unfold Layout.addInline Layout.flownInline
  rw [hn]
  refine (behaves_flowInline (hgains.clean nofun) .plain).weaken fun hfills => ?_
  rw [hink]
  exact ink_of_fills n hfills hn

theorem Behaves.indented {fills : Prop} {act : FlowM ℚ Unit} {lines : Lines ℚ}
    (h : Behaves fills act lines) (width : ℚ) : Behaves fills (indented width act)
      fun s => lines { s with inset := s.inset + width } := by
  intro s hs
  obtain ⟨hready, hused, hlines⟩ := h { s with inset := s.inset + width } ⟨hs.top⟩
  exact ⟨⟨hready.top⟩, hused, hlines⟩

/-! ## Paragraphs -/

theorem Ready.keepTogether {s : Layout ℚ} (h : Ready s) (flow : TextFlow ℚ)
    (children : List (Node ℚ)) : Ready (s.keepTogether flow children) := by
  unfold Layout.keepTogether
  split
  · simp only
    split
    · exact h.ensureSpace _
    · exact h
  · exact h

theorem Ready.openParagraph {s : Layout ℚ} (h : Ready s) (style : BlockStyle ℚ) (flow : TextFlow ℚ)
    (children : List (Node ℚ)) : Ready (s.openParagraph style flow children) := by
  have hspace : Ready (if s.page.hasContent then s.lower style.spacingBefore else s) := by
    split
    · next hused => exact ready_of_used hused
    · exact h
  have hindent {t : Layout ℚ} (ht : Ready t) : Ready { t with inset := t.inset + style.indent } :=
    ⟨ht.top⟩
  unfold Layout.openParagraph
  simp only
  split
  · exact (hindent hspace).keepTogether flow children
  · exact hindent hspace

theorem page_openParagraph {s : Layout ℚ} {style : BlockStyle ℚ} (h : ¬style.keepTogether = true)
    (flow : TextFlow ℚ) (children : List (Node ℚ)) :
    (s.openParagraph style flow children).page = s.page := by
  unfold Layout.openParagraph
  simp only [if_neg h]
  split <;> rfl

/-- Space below a paragraph does no harm on a page in use. -/
theorem Ready.closeParagraph {s : Layout ℚ} (h : Ready s) {style : BlockStyle ℚ}
    (hused : 0 < style.spacingAfter → s.page.hasContent = true) :
    Ready (s.closeParagraph style) := by
  refine ⟨fun hunused => ?_⟩
  have hspace : ¬(0 : ℚ) < style.spacingAfter := fun hpos =>
    absurd ((hused hpos).symm.trans hunused) nofun
  have htop := h.top hunused
  change Layout.top s.geometry ≤ s.cursor - style.spacingAfter
  linarith

theorem behaves_paragraph {style : BlockStyle ℚ} {children : List (Node ℚ)}
    (hmixed : Behaves (AnyFills children) (addMixed (flowOf style) .empty children)
      (linesOfMixed (flowOf style) .empty children))
    (hsolid : 0 < style.spacingAfter ∨ style.keepTogether = true → AnyFills children) :
    Behaves (AnyFills children) (addBlock (.paragraph style children))
      (linesOf (.paragraph style children)) := by
  intro s hs
  obtain ⟨hready, hused, hlines⟩ := hmixed _ (hs.openParagraph style (flowOf style) children)
  have hrun := run_addBlock_paragraph style children s
  have hdrawn : ∀ f ∈ linesOf (.paragraph style children) s, Ready f.before := by
    unfold linesOf
    exact hlines
  rcases hr : (addMixed (flowOf style) .empty children).run
    (s.openParagraph style (flowOf style) children) with ⟨r, t⟩
  rw [hr] at hready hused hrun
  cases r with
  | error e =>
    refine ⟨hrun ▸ hready, fun hok => ?_, hdrawn⟩
    rw [hrun] at hok
    cases hok
  | ok u =>
    have hclosed : Ready (t.closeParagraph style) :=
      hready.closeParagraph fun hpos => hused rfl (.inr (hsolid (.inl hpos)))
    refine ⟨hrun ▸ hclosed, fun _ hpage => hrun ▸ hused rfl ?_, hdrawn⟩
    by_cases hfills : AnyFills children
    · exact .inr hfills
    -- nothing turns the page of a paragraph that draws nothing
    · have hkeep : ¬style.keepTogether = true := fun hkeep => hfills (hsolid (.inr hkeep))
      rw [page_openParagraph hkeep]
      exact .inl (hpage.resolve_right hfills)

/-! ## Titles and items -/

theorem behaves_addTitle {label : String} {title : Node ℚ}
    (h : ink label ≠ [] ∨ ink title.textContent ≠ []) (fallback : Font ℚ) :
    Behaves True (modify (·.addTitle label title fallback)) fun s =>
      s.flownTitle label title fallback :=
  behaves_modify (fun _ _ => ready_of_used (Layout.addTitle_used fallback (.inr h)))
    (fun _ _ => Layout.addTitle_used fallback (.inr h)) fun _ hs => hs.flown _ _

theorem Ready.drawLabel {s : Layout ℚ} (h : Ready s) (style : ListStyle ℚ) (index : Nat) :
    Ready (s.drawLabel style index).2 :=
  ⟨(h.ensureSpace _).top⟩

theorem behaves_addItems_cons {style : ListStyle ℚ} {index : Nat} {item : ListItem ℚ}
    {rest : List (ListItem ℚ)} {fills more : Prop}
    (hitem : Behaves fills (addItem item) (linesOfItem item))
    (hrest : Behaves more (addItems style (index + 1) rest) (linesOfItems style (index + 1) rest)) :
    Behaves True (addItems style index (item :: rest))
      (linesOfItems style index (item :: rest)) := by
  intro s hs
  have hclose : Behaves True (modify (·.closeItem (s.drawLabel style index).1) >>= fun _ =>
      addItems style (index + 1) rest)
      fun t => linesOfItems style (index + 1) rest (t.closeItem (s.drawLabel style index).1) :=
    Behaves.weaken (Behaves.then (behaves_filling fun _ => rfl) hrest) .inl
  obtain ⟨hready, hused, hlines⟩ :=
    ((hitem.indented (listIndent style)).then hclose) _ (hs.drawLabel style index)
  have hrun := run_addItems_cons style index item rest s
  refine ⟨hrun ▸ hready, fun hok _ => hrun ▸ hused (hrun ▸ hok) (.inr (.inr trivial)), ?_⟩
  unfold linesOfItems
  exact hlines

/-! ## Nodes -/

/-- A drawing that cannot be read leaves a page as ready as room for it does. -/
theorem behaves_addDrawable (d : Drawable ℚ) :
    Behaves True (fun s => s.addDrawable d) fun _ => [] := by
  intro s hs
  have hspace := hs.ensureSpace d.height
  have hdrawn : Ready (s.addDrawable d).2 ∧
      ((s.addDrawable d).1 = .ok () → (s.addDrawable d).2.page.hasContent = true) := by
    unfold Layout.addDrawable
    simp only
    split
    · split
      · exact ⟨ready_of_used rfl, fun _ => rfl⟩
      · exact ⟨hspace, nofun⟩
    · exact ⟨ready_of_used rfl, fun _ => rfl⟩
  exact ⟨hdrawn.1, fun hok _ => hdrawn.2 hok, List.forall_mem_nil _⟩

theorem behaves_openChapter (number : Nat) (title : Node ℚ) :
    Behaves True (modify (·.openChapter number title)) fun s =>
      (if s.page.hasContent then s.breakPage else s).flownTitle (toString number ++ ".") title
        chapterFont := by
  have hused (s : Layout ℚ) : (s.openChapter number title).page.hasContent = true :=
    Layout.addTitle_used chapterFont (.inr (.inl (ink_number number)))
  refine behaves_modify (fun s _ => ready_of_used (hused s)) (fun s _ => hused s) fun s hs => ?_
  have hbroken : Ready (if s.page.hasContent then s.breakPage else s) := by
    split
    · exact ready_breakPage s
    · exact hs
  exact hbroken.flown _ _

mutual

theorem addBlock_behaves : (n : Node ℚ) → Solid n → Behaves (Fills n) (addBlock n) (linesOf n)
  | .paragraph style children, h => by
    simp only [Solid] at h
    have hmixed := addMixed_behaves (flowOf style) .empty children nofun h.1
    refine (behaves_paragraph (hmixed.weaken .inr) h.2).weaken fun hfills => ?_
    simpa only [Fills] using hfills
  | .list style items, h => by
    simp only [Solid] at h
    have hitems := addItems_behaves style 1 items h
    unfold addBlock linesOf Fills
    exact hitems
  | .table style header rows, h | .gridTable style header rows, h => by
    simp only [Solid] at h
    unfold addBlock linesOf
    exact behaves_filling fun s => Layout.addTable_used h s style
  | .cell c, h | .gridCell c, h => by
    simp only [Solid] at h
    unfold addBlock linesOf Fills
    exact addCell_behaves c h
  | .chapter number title children, h => by
    simp only [Solid] at h
    unfold addBlock linesOf
    exact ((behaves_openChapter number title).then (addBlocks_behaves children h)).weaken
      fun _ => .inl trivial
  | .subsection number indent title children, h => by
    simp only [Solid] at h
    have hchildren := (addBlocks_behaves children h.2).indented indent
    unfold addBlock linesOf
    exact ((behaves_addTitle (h.1.imp_left ink_sectionLabel) sectionFont).then hchildren).weaken
      fun _ => .inl trivial
  | .reference _ target, h => by
    simp only [Solid] at h
    unfold addBlock linesOf Fills
    exact addBlock_behaves target h
  | .image _, _ | .note .., _ | .rule _, _ | .spacer .., _ | .rectangle _, _ => by
    unfold addBlock linesOf
    exact behaves_filling fun _ => rfl
  | .chart d, _ | .vectorGraphic d, _ => by
    unfold addBlock linesOf
    exact (behaves_addDrawable d).weaken fun _ => trivial
  | .text _, _ | .subscript _, _ | .superscript _, _ | .phrase .., _ => by
    unfold addBlock linesOf
    exact behaves_addInline rfl
  | .anchor ends shape content, _ => by
    have hsome : ∃ run, collectInline none .empty (.anchor ends shape content) = some run := by
      simp only [collectInline]
      split
      · exact ⟨_, rfl⟩
      · exact ⟨_, rfl⟩
    obtain ⟨run, hrun⟩ := hsome
    unfold addBlock linesOf
    exact behaves_addInline hrun

theorem addBlocks_behaves : (ns : List (Node ℚ)) → AllSolid ns →
    Behaves (AnyFills ns) (addBlocks ns) (linesOfNodes ns)
  | [], _ => by
    unfold addBlocks linesOfNodes AnyFills
    exact behaves_pure
  | n :: ns, h => by
    simp only [AllSolid] at h
    unfold addBlocks linesOfNodes AnyFills
    exact (addBlock_behaves n h.1).then (addBlocks_behaves ns h.2)

theorem addCell_behaves : (c : Cell ℚ) → CellSolid c →
    Behaves (CellFills c) (addCell c) (linesOfCell c)
  | .mk _ content, h => by
    simp only [CellSolid] at h
    unfold addCell linesOfCell CellFills
    exact addBlock_behaves content h

theorem addMixed_behaves (flow : TextFlow ℚ) (run : InlineRun ℚ) : (ns : List (Node ℚ)) →
    (∀ t ∈ run.tokens, t.Clean) → AllSolid ns →
    Behaves (inkOf run.tokens ≠ [] ∨ AnyFills ns) (addMixed flow run ns) (linesOfMixed flow run ns)
  | [], hclean, _ => by
    unfold addMixed linesOfMixed AnyFills
    exact (behaves_flowInline hclean flow).weaken fun h => h.resolve_right id
  | n :: ns, hclean, h => by
    simp only [AllSolid] at h
    unfold addMixed linesOfMixed AnyFills
    cases hn : collectInline none run n with
    | some grown =>
      have hgains := collectInline_gains n hn
      refine (addMixed_behaves flow grown ns (hgains.clean hclean) h.2).weaken fun hfills => ?_
      rw [hgains.ink]
      rcases hfills with hrun | hfills | hrest
      · exact .inl (List.append_ne_nil_of_left_ne_nil hrun _)
      · exact .inl (List.append_ne_nil_of_right_ne_nil _ (ink_of_fills n hfills hn))
      · exact .inr hrest
    | none =>
      have hblock := addBlock_behaves n h.1
      have hrest := addMixed_behaves flow .empty ns nofun h.2
      refine ((behaves_flowInline hclean flow).then (hblock.then hrest)).weaken fun hfills => ?_
      exact hfills.imp_right fun hfills => hfills.imp_right .inr

theorem addItem_behaves : (item : ListItem ℚ) → ItemSolid item →
    Behaves (Fills item.node) (addItem item) (linesOfItem item)
  | .chunk n, h | .phrase n, h => by
    simp only [ItemSolid] at h
    unfold addItem linesOfItem
    exact addBlock_behaves n h

theorem addItems_behaves (style : ListStyle ℚ) (index : Nat) : (items : List (ListItem ℚ)) →
    ItemsSolid items → Behaves (items ≠ []) (addItems style index items)
      (linesOfItems style index items)
  | [], _ => by
    unfold addItems linesOfItems
    exact behaves_pure.weaken fun h => h rfl
  | item :: rest, h => by
    simp only [ItemsSolid] at h
    exact (behaves_addItems_cons (addItem_behaves item h.1)
      (addItems_behaves style (index + 1) rest h.2)).weaken fun _ => trivial

end

/-! ## Runs of calls -/

theorem Ready.add {n : Node ℚ} (hsolid : Solid n) {s : Layout ℚ} (h : Ready s) :
    Ready ((add n).run s).2 := by
  unfold Flow.add
  rcases run_afterOpen (addBlock n) (s := s) with ⟨-, hrun⟩ | ⟨-, hrun⟩
  · rw [hrun]
    exact (addBlock_behaves n hsolid s h).ready
  · rw [hrun]
    exact h

theorem Ready.newPage {s : Layout ℚ} (h : Ready s) : Ready (newPage.run s).2 := by
  by_cases hopen : s.phase = .opened
  · rw [run_newPage hopen]
    simp only
    split
    · exact ready_breakPage s
    · exact h
  · unfold Flow.newPage
    rcases run_afterOpen _ (s := s) with ⟨hphase, -⟩ | ⟨-, hrun⟩
    · exact absurd hphase hopen
    · rw [hrun]
      exact h

theorem Ready.openDocument {s : Layout ℚ} (h : Ready s) :
    Ready (openDocument.run s : Except EngineError Unit × Layout ℚ).2 := by
  unfold Flow.openDocument
  rw [run_bind, run_get]
  simp only
  split
  · exact ready_startPage ..
  · exact h

theorem Ready.apply {call : Call ℚ} (hsolid : ∀ n, call = .add n → Solid n) {s : Layout ℚ}
    (h : Ready s) : Ready (call.apply s) := by
  cases call with
  | setGeometry geometry =>
    simp only [Call.apply, Layout.setGeometry]
    split
    · exact ⟨fun _ => le_refl (Layout.top geometry)⟩
    · exact h
  | setInfo _ | setFooter _ | setHeader _ | addEvent _ => exact ⟨h.top⟩
  | openDocument => exact h.openDocument
  | add n => exact h.add (hsolid n rfl)
  | newPage => exact h.newPage

theorem linesOfCalls_ready {calls : List (Call ℚ)} (hsolid : ∀ n, .add n ∈ calls → Solid n) :
    ∀ {s : Layout ℚ}, Ready s → ∀ f ∈ linesOfCalls calls s, Ready f.before := by
  induction calls with
  | nil => exact fun _ => List.forall_mem_nil _
  | cons call calls ih =>
    intro s hs
    have hcall : ∀ n, call = .add n → Solid n := fun n hn => hsolid n (by simp [hn])
    have hrest := ih (fun n hn => hsolid n (List.mem_cons_of_mem call hn)) (hs.apply hcall)
    have hlines : ∀ f ∈ call.lines s, Ready f.before := by
      unfold Call.lines
      split
      · next n =>
        split
        · exact (addBlock_behaves n (hcall n rfl) s hs).lines
        · exact List.forall_mem_nil _
      · exact List.forall_mem_nil _
    exact List.forall_mem_append.mpr ⟨hlines, hrest⟩

/-! ## The bottom margin -/

/-- A line on an empty page that is filled below its top all the same. -/
def Flown.Sunk (f : Flown ℚ) : Prop :=
  f.on.page.hasContent = false ∧ f.on.cursor < Layout.top f.on.geometry

/-- A page that is still in use when room has been made has the room. -/
theorem le_remaining_of_used {s : Layout ℚ} {needed : ℚ}
    (h : (s.ensureSpace needed).page.hasContent = true) :
    needed ≤ (s.ensureSpace needed).remaining := by
  unfold Layout.ensureSpace at h ⊢
  split
  · next hbreak =>
    rw [if_pos hbreak, Layout.breakPage, Layout.startPage_hasContent] at h
    cases h
  · next hstay =>
    rw [if_neg hstay] at h
    simp only [Layout.mustBreak, h, Bool.and_true, decide_eq_true_eq] at hstay
    exact not_lt.mp hstay

theorem Flown.fits (f : Flown ℚ) (h : f.line.height ≤ f.on.geometry.contentHeight) :
    f.on.geometry.margins.bottom ≤ f.bottom ∨ f.Sunk := by
  by_cases hused : f.on.page.hasContent = true
  · have hroom : f.line.height ≤ f.on.cursor - f.on.geometry.margins.bottom :=
      le_remaining_of_used hused
    left
    change f.on.geometry.margins.bottom ≤ f.on.cursor - f.line.height
    linarith
  · by_cases hbelow : f.on.cursor < Layout.top f.on.geometry
    · exact .inr ⟨by simpa using hused, hbelow⟩
    · have htop : f.on.geometry.height - f.on.geometry.margins.top ≤ f.on.cursor := not_lt.mp hbelow
      have hheight : f.line.height ≤ f.on.geometry.height - f.on.geometry.margins.top -
        f.on.geometry.margins.bottom := h
      left
      change f.on.geometry.margins.bottom ≤ f.on.cursor - f.line.height
      linarith

theorem Flown.not_sunk {f : Flown ℚ} (h : Ready f.before) : ¬f.Sunk := by
  rintro ⟨hunused, hbelow⟩
  exact absurd ((h.ensureSpace f.line.height).top hunused) (not_le_of_gt hbelow)

/-- A line that would fit on a page ends above the bottom margin, or it stands on an empty page
below its top; which no line does if every block that leaves space behind itself has drawn
something. -/
theorem linesOfCalls_bottomMargin (calls : List (Call ℚ)) :
    (∀ f ∈ linesOfCalls calls .initial, f.line.height ≤ f.on.geometry.contentHeight →
      f.on.geometry.margins.bottom ≤ f.bottom ∨ f.Sunk) ∧
    ((∀ n, .add n ∈ calls → Solid n) → ∀ f ∈ linesOfCalls calls .initial,
      f.line.height ≤ f.on.geometry.contentHeight → f.on.geometry.margins.bottom ≤ f.bottom) := by
  have hinitial : Ready .initial := ⟨fun _ => le_refl (Layout.top .standard)⟩
  refine ⟨fun f _ hheight => f.fits hheight, fun hsolid f hf hheight => ?_⟩
  have hready := linesOfCalls_ready hsolid hinitial f hf
  exact (f.fits hheight).resolve_right (Flown.not_sunk hready)

/-- A paragraph of a text, with space behind it. -/
def spaced (spacingAfter : ℚ) (children : List (Node ℚ)) : Node ℚ :=
  .paragraph ⟨.standard, .left, none, 0, 0, 0, spacingAfter, false⟩ children

def greeting : Node ℚ := spaced 800 [.text ⟨"Hello", .standard, none⟩]

theorem linesOfCalls_bottomMargin_greeting : Solid greeting ∧
    ∀ f ∈ linesOfCalls [.openDocument, .add greeting] .initial,
      f.line.height ≤ f.on.geometry.contentHeight → f.on.geometry.margins.bottom ≤ f.bottom := by
  have hink : ink "Hello" ≠ [] := by decide
  have hsolid : Solid greeting := by
    simp [greeting, spaced, Solid, AllSolid, AnyFills, Fills, hink]
  refine ⟨hsolid, (linesOfCalls_bottomMargin _).2 fun n hn => ?_⟩
  obtain rfl : n = greeting := by simpa using hn
  exact hsolid

/-- An empty paragraph in front of a text. -/
def sunkCalls : List (Call ℚ) :=
  [.openDocument, .add (spaced 800 []), .add (spaced 0 [.text ⟨"Hello", .standard, none⟩])]

/-- The space behind an empty paragraph moves the text below the bottom margin of the first page. -/
theorem linesOfCalls_sunk : ∃ f ∈ linesOfCalls sunkCalls .initial,
    0 ≤ f.on.geometry.contentHeight ∧ f.line.height ≤ f.on.geometry.contentHeight ∧
      f.bottom < f.on.geometry.margins.bottom := by
  have h : (linesOfCalls sunkCalls .initial).any (fun f =>
      decide (0 ≤ f.on.geometry.contentHeight) &&
      decide (f.line.height ≤ f.on.geometry.contentHeight) &&
      decide (f.bottom < f.on.geometry.margins.bottom)) = true := by decide +kernel
  obtain ⟨f, hf, hsunk⟩ := List.any_eq_true.mp h
  simp only [Bool.and_eq_true, decide_eq_true_eq] at hsunk
  exact ⟨f, hf, hsunk.1.1, hsunk.1.2, hsunk.2⟩

end Folio.Flow
