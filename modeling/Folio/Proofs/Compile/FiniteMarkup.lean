import Folio.Proofs.Compile.FiniteNodes
import Folio.Proofs.Compile.Positions
import Folio.Proofs.Compile.Step
import Mathlib.Tactic.Linarith
import Mathlib.Tactic.Positivity

/-!
# Finite pictures, tables and references

The rules that are left, and with them the compiler as a whole: without renderers a node of finite
markup is finite, whatever has been compiled before it.
-/
namespace Folio.Compile

open Style Markup

variable {c : Context} {compile : Compiling Extended} {e : Element}

/-! ## Pictures -/

/-- A pair of measures, each of them finite. -/
def FinitePair (size : Extended × Extended) : Prop := size.1.Finite ∧ size.2.Finite

theorem finite_contentArea (hc : c.Finite) :
    ∀ area ∈ (contentArea c : Option (Extended × Extended)), FinitePair area := by
  intro area harea
  simp only [contentArea, Option.bind_eq_bind, Option.mem_def, Option.bind_eq_some_iff,
    Option.pure_def, Option.some.injEq] at harea
  obtain ⟨width, hwidth, height, hheight, left, hleft, right, hright, top, htop, bottom, hbottom,
    rfl⟩ := harea
  have hmeasure {key : String} {x : Extended} (hx : c.scalar? key = some x) : x.Finite :=
    hc.scalar? key x hx
  exact ⟨by simp [hmeasure hwidth, hmeasure hleft, hmeasure hright],
    by simp [hmeasure hheight, hmeasure htop, hmeasure hbottom]⟩

/-- The axis that an image is scaled by overflows the area the more, so it is longer than nought. -/
theorem finite_fitScale {m n : ℕ} {w h : ℚ} (hw : 0 < w) (hh : 0 < h) (hover : w < m ∨ h < n) :
    (if (n : Extended) / .finite h < (m : Extended) / .finite w then .finite w / (m : Extended)
      else .finite h / (n : Extended)).Finite := by
  simp only [Extended.natCast_eq_finite, Extended.finite_div_finite hw.ne',
    Extended.finite_div_finite hh.ne', Extended.finite_lt_finite]
  have hm : (0 : ℚ) ≤ m / w := by positivity
  have hn : (0 : ℚ) ≤ n / h := by positivity
  split
  · next hless =>
    have hpos : (0 : ℚ) < m := (div_pos_iff_of_pos_right hw).mp (hn.trans_lt hless)
    rw [Extended.finite_div_finite hpos.ne']
    exact Extended.finite_finite _
  · next hless =>
    have hpos : (0 : ℚ) < n := by
      rcases hover with hover | hover
      · have hone : 1 < (m : ℚ) / w := (one_lt_div hw).mpr hover
        exact (div_pos_iff_of_pos_right hh).mp (by linarith)
      · exact hh.trans hover
    rw [Extended.finite_div_finite hpos.ne']
    exact Extended.finite_finite _

theorem finite_fitted (pixels : ℕ × ℕ) {area : Option (Extended × Extended)}
    (h : ∀ a ∈ area, FinitePair a) :
    FinitePair (fitted ((pixels.1 : Extended), (pixels.2 : Extended)) area) := by
  obtain ⟨m, n⟩ := pixels
  have hm := Extended.finite_natCast m
  have hn := Extended.finite_natCast n
  unfold fitted
  split
  · exact ⟨hm, hn⟩
  · next width height =>
    obtain ⟨⟨w, rfl⟩, ⟨h, rfl⟩⟩ := h _ rfl
    split
    · next hfits =>
      simp only [Bool.and_eq_true, Bool.or_eq_true, decide_eq_true_eq, Extended.natCast_eq_finite,
        Extended.finite_pos, Extended.finite_lt_finite] at hfits
      have hscale := finite_fitScale hfits.1.1 hfits.1.2 hfits.2
      exact ⟨Extended.finite_mul.mpr ⟨hm, hscale⟩, Extended.finite_mul.mpr ⟨hn, hscale⟩⟩
    · exact ⟨hm, hn⟩

theorem finite_scaled (hc : c.Finite) {size : Extended × Extended} (h : FinitePair size) :
    FinitePair (scaled size c) := by
  have haxis (key : String) {x : Extended} (hx : x.Finite) :
      (((c.scalar? key).map (x * ·)).getD x).Finite := by
    refine Extended.finite_getD (fun y hy => ?_) hx
    obtain ⟨factor, hfactor, rfl⟩ := Option.map_eq_some_iff.mp hy
    exact Extended.finite_mul.mpr ⟨hx, hc.scalar? key factor hfactor⟩
  cases hscale : (c.scalar? "scale" : Option Extended) with
  | none =>
    simp only [scaled, hscale]
    exact ⟨haxis _ h.1, haxis _ h.2⟩
  | some percent =>
    have hpercent := hc.scalar? "scale" percent hscale
    simp only [scaled, hscale]
    exact ⟨haxis _ (by simp [h.1, hpercent]), haxis _ (by simp [h.2, hpercent])⟩

theorem finite_drawnSize (hc : c.Finite) (pixels : ℕ × ℕ) : FinitePair (drawnSize pixels c) := by
  have hsize := finite_scaled hc (finite_fitted pixels (finite_contentArea hc))
  have hmeasure {key : String} {x : Extended} (hx : c.scalar? key = some x) : x.Finite :=
    hc.scalar? key x hx
  unfold drawnSize
  simp only
  split
  · next hw hh => exact ⟨hmeasure hw, hmeasure hh⟩
  · next w hw _ =>
    split
    · next hpos =>
      exact ⟨hmeasure hw, (Extended.finite_mul.mpr ⟨hmeasure hw, hsize.2⟩).div hsize.1 hpos⟩
    · exact hsize
  · next h _ hh =>
    split
    · next hpos =>
      exact ⟨(Extended.finite_mul.mpr ⟨hmeasure hh, hsize.1⟩).div hsize.2 hpos, hmeasure hh⟩
    · exact hsize
  · exact hsize

theorem delivers_imageSource (env : Env Extended) (e : Element) (c : Context) :
    Delivers (fun _ => True) (imageSource env e c) := by
  unfold imageSource
  split
  · split
    · exact keeps_pure trivial
    · exact keeps_throw trivial
  · split
    · split
      · split
        · exact keeps_pure trivial
        · exact keeps_throw trivial
      · split
        · exact keeps_pure trivial
        · exact keeps_throw trivial
    · split
      · exact keeps_pure trivial
      · exact keeps_throw trivial
    · exact keeps_throw trivial

theorem delivers_readImage (env : Env Extended) (e : Element) (hc : c.Finite) :
    Delivers Node.Finite (readImage env e c) := by
  refine (delivers_imageSource env e c).bind fun source _ => ?_
  obtain ⟨data, origin⟩ := source
  simp only
  split
  · exact keeps_throw trivial
  · split
    · exact keeps_throw trivial
    · next pixels _ =>
      have hsize := finite_drawnSize hc pixels
      exact keeps_pure (.image hsize.1 hsize.2)

theorem delivers_render {env : Env Extended} (hnone : ∀ kind, env.renderers kind = none)
    (kind : RendererKind) (e : Element) (c : Context) :
    Delivers Node.Finite (render env kind e c) := by
  unfold render
  rw [hnone kind]
  exact keeps_throw trivial

theorem delivers_ruleNode (hc : c.Finite) :
    Delivers Node.Finite (ruleNode c : CompileM Extended (Node Extended)) :=
  (delivers_colorOf? c "color").map fun _ _ =>
    .rule (Extended.finite_getD (hc.scalar? "gap") (Extended.finite_ofNat 2))
      (Extended.finite_getD (hc.scalar? "line-width") (Extended.finite_ofNat 1))

theorem delivers_spacerNode (e : Element) (hc : c.Finite) :
    Delivers Node.Finite (spacerNode e c : CompileM Extended (Node Extended)) := by
  unfold spacerNode
  simp only
  split
  · next leading hleading => exact keeps_pure (.spacer (hc.scalar? "leading" leading hleading))
  · exact (delivers_fontOf hc).map fun _ hfont => .spacer (by simp [spacerLineFactor, hfont])

theorem delivers_rectangleNode (hc : c.Finite) :
    Delivers Node.Finite (rectangleNode c : CompileM Extended (Node Extended)) := by
  have hmeasure (key : String) : ((c.scalar? key).getD 0 : Extended).Finite :=
    Extended.finite_getD (hc.scalar? key) (Extended.finite_ofNat 0)
  refine (delivers_firstColor? c "background" "color").bind fun _ _ => ?_
  exact (delivers_colorOf? c "border-color").map fun _ _ => .rectangle (hmeasure _) (hmeasure _)

/-! ## Tables -/

theorem delivers_cellStyle (hc : c.Finite) :
    Delivers (fun style : CellStyle Extended => style.padding.Finite) (cellStyle c) :=
  (delivers_firstColor? c "background-color" "background").map fun _ _ =>
    Extended.finite_getD (hc.scalar? "padding") (Extended.finite_ofNat 2)

theorem delivers_cellContent (h : KeepsFinite compile) (grid : Bool) {children : List Json}
    (hchildren : ∀ child ∈ children, child.Finite) (hc : c.Finite) :
    Delivers Node.Finite (cellContent compile grid children c) := by
  unfold cellContent
  simp only
  split
  · exact delivers_textNode hc.inheritable ""
  · next only =>
    split
    · next text _ =>
      refine (delivers_textNode hc.inheritable text).bind fun n hn => ?_
      split
      · exact (delivers_fontOf hc.inheritable).map fun _ hfont =>
          .phrase hfont (List.forall_mem_singleton.mpr hn)
      · exact keeps_pure hn
    · exact h only _ (hchildren only List.mem_cons_self) hc.inheritable
  · refine (delivers_compileChildren h hchildren hc).bind fun ns hns => ?_
    exact (delivers_fontOf hc.inheritable).map fun _ hfont => .phrase hfont hns

theorem delivers_compileCell (h : KeepsFinite compile) (grid : Bool)
    (hchildren : ∀ child ∈ e.children, child.Finite) (hc : c.Finite) :
    Delivers Cell.Finite (compileCell compile grid e c) := by
  refine (delivers_cellContent h grid hchildren hc).bind fun n hn => ?_
  exact (delivers_cellStyle hc).map fun _ hpadding => ⟨hpadding, hn⟩

theorem delivers_rowCell (h : KeepsFinite compile) (grid : Bool) {item : Json} (hitem : item.Finite)
    (hc : c.Finite) : Delivers Cell.Finite (rowCell compile grid c item) := by
  unfold rowCell
  split
  · refine (h item c hitem hc).bind fun n hn => ?_
    split
    · cases hn with
      | cell hpadding hcontent => exact keeps_pure ⟨hpadding, hcontent⟩
    · cases hn with
      | gridCell hpadding hcontent => exact keeps_pure ⟨hpadding, hcontent⟩
    · exact delivers_invalid
  · refine (delivers_cellContent h grid (List.forall_mem_singleton.mpr hitem) hc).bind
      fun n hn => ?_
    exact (delivers_cellStyle hc.inheritable).map fun _ hpadding => ⟨hpadding, hn⟩

theorem delivers_headerCell (h : KeepsFinite compile) (grid : Bool) {entry : Json}
    (hentry : entry.Finite) (hc : c.Finite) :
    Delivers Cell.Finite (headerCell compile grid c entry) := by
  have hentries := headerEntry_headerCell compile grid c entry
  generalize headerCell compile grid c entry = act at hentries ⊢
  cases hentries with
  | @styled content inlined htag =>
    cases hentry with
    | array hitems =>
      have hcontent : content.Finite := hitems content List.mem_cons_self
      have hinlined : ∀ entry ∈ inlined, entry.2.Finite := by
        cases hitems (.object inlined) (List.mem_cons_of_mem _ List.mem_cons_self) with
        | object hfields => exact hfields
      have hmerged := hc.merge hinlined
      refine (delivers_cellContent h grid (List.forall_mem_singleton.mpr hcontent) hmerged).bind
        fun n hn => ?_
      exact (delivers_cellStyle hmerged).map fun _ hpadding => ⟨hpadding, hn⟩
  | untagged => exact delivers_invalid
  | row => exact delivers_rowCell h grid hentry hc

theorem finite_spanned (columns : ℕ) {cells : List (Cell Extended)} (h : ∀ c ∈ cells, c.Finite) :
    ∀ c ∈ spanned columns cells, c.Finite := by
  unfold spanned
  split
  · next only =>
    have honly := h only List.mem_cons_self
    cases only
    exact List.forall_mem_singleton.mpr ⟨honly.padding, honly.content⟩
  · exact h

theorem delivers_headerCells (h : KeepsFinite compile) (grid : Bool) {value : Json}
    (hvalue : value.Finite) {row : HeaderRow} (hrow : HeaderRow.parse? (some value) = some row)
    (hc : c.Finite) (columns : ℕ) :
    Delivers (fun cells => ∀ c ∈ cells, c.Finite) (headerCells compile grid row c columns) := by
  have hcells {styled : Context} (hstyled : styled.Finite) := delivers_mapM fun entry hentry =>
    delivers_headerCell h grid (hvalue.inside (inside_of_mem_entries hrow hentry)) hstyled
  refine (hcells ?_).map fun cells hall => finite_spanned columns hall
  split
  · next style hstyle =>
    refine hc.inheritable.merge ?_
    cases hvalue.inside (inside_of_style hrow hstyle) with
    | object hfields => exact hfields
  · exact hc.inheritable

theorem delivers_compileRow (h : KeepsFinite compile) (grid : Bool) (raw : Json) {row : Json}
    (hrow : row.Finite) (hc : c.Finite) :
    Delivers (fun cells => ∀ c ∈ cells, c.Finite) (compileRow compile grid raw c row) := by
  unfold compileRow
  split
  · next items =>
    refine delivers_mapM fun item hitem => delivers_rowCell h grid ?_ hc
    cases hrow with
    | array hitems => exact hitems item hitem
  · exact delivers_invalid

theorem delivers_columnCount (tag : String) (c : Context) (header : Option HeaderRow)
    (rows : List (List (Cell Extended))) :
    Delivers (fun _ => True) (columnCount tag c header rows) := by
  unfold columnCount
  simp only
  split
  · split
    · exact keeps_throw trivial
    · split
      · exact keeps_pure trivial
      · exact keeps_pure trivial
  · exact keeps_pure trivial

theorem delivers_checkedWidths (grid : Bool) (columns : ℕ) {widths : Option (List Extended)}
    (h : ∀ ws ∈ widths, ∀ w ∈ ws, w.Finite) :
    Delivers (fun checked => ∀ ws ∈ checked, ∀ w ∈ ws, w.Finite)
      (checkedWidths grid columns widths) := by
  unfold checkedWidths
  split
  · split
    · exact keeps_pure h
    · split
      · exact keeps_throw trivial
      · exact keeps_pure fun ws hws => absurd hws (Option.not_mem_none ws)
  · split
    · exact keeps_throw trivial
    · exact keeps_pure fun ws hws => absurd hws (Option.not_mem_none ws)

structure FiniteTable (t : CompiledTable Extended) : Prop where
  style : t.style.Finite
  cells : ∀ row ∈ t.header :: t.rows, ∀ c ∈ row, c.Finite

theorem delivers_buildTable (h : KeepsFinite compile) (grid : Bool) (e : Element) {rows : List Json}
    (hrows : ∀ row ∈ rows, row.Finite) (hc : c.Finite) {widths : Option (List Extended)}
    (hwidths : ∀ ws ∈ widths, ∀ w ∈ ws, w.Finite) :
    Delivers FiniteTable (buildTable compile grid e c rows widths) := by
  have hcells := delivers_mapM fun row hrow =>
    delivers_compileRow h grid e.raw (hrows row hrow) hc.inheritable
  unfold buildTable
  split
  · exact keeps_throw trivial
  · refine hcells.bind fun cells hall => ?_
    refine (delivers_columnCount _ c _ cells).bind fun columns _ => ?_
    have hwidth := Extended.finite_getD (hc.scalar? "width") (Extended.finite_ofNat 100)
    have hpadding := Extended.finite_getD (hc.scalar? "padding") (Extended.finite_ofNat 2)
    have hspacing := Extended.finite_getD (hc.scalar? "spacing") (Extended.finite_ofNat 0)
    have hchecked := delivers_checkedWidths grid columns hwidths
    cases hrow : HeaderRow.parse? (c.get? "header") with
    | none =>
      refine hchecked.map fun checked hwidths => ?_
      exact ⟨⟨hwidths, hwidth, hpadding, hspacing⟩,
        List.forall_mem_cons.mpr ⟨List.forall_mem_nil _, hall⟩⟩
    | some row =>
      cases hvalue : c.get? "header" with
      | none =>
        rw [hvalue] at hrow
        cases hrow
      | some value =>
        rw [hvalue] at hrow
        refine (delivers_headerCells h grid (hc.get? hvalue) hrow hc columns).bind
          fun header hheader => hchecked.map fun checked hwidths => ?_
        exact ⟨⟨hwidths, hwidth, hpadding, hspacing⟩, List.forall_mem_cons.mpr ⟨hheader, hall⟩⟩

theorem finite_scalars {v : Json} (h : v.Finite) :
    ∀ ws ∈ (scalars? v : Option (List Extended)), ∀ w ∈ ws, w.Finite := by
  have hmapM (items : List Json) (hitems : ∀ item ∈ items, item.Finite) :
      ∀ ws ∈ (items.mapM scalarOf? : Option (List Extended)), ∀ w ∈ ws, w.Finite := by
    induction items with
    | nil =>
      intro ws hws
      exact Option.some.inj hws ▸ List.forall_mem_nil _
    | cons item items ih =>
      intro ws hws
      rw [List.mapM_cons] at hws
      simp only [Option.bind_eq_bind, Option.mem_def, Option.bind_eq_some_iff, Option.pure_def,
        Option.some.injEq] at hws
      obtain ⟨x, hx, xs, hxs, rfl⟩ := hws
      exact List.forall_mem_cons.mpr ⟨(hitems item List.mem_cons_self).scalar x hx,
        ih (fun other hother => hitems other (List.mem_cons_of_mem item hother)) xs hxs⟩
  unfold scalars?
  split
  · cases h with
    | array hitems => exact hmapM _ hitems
  · exact fun ws hws => absurd hws (Option.not_mem_none ws)

theorem finite_contextWidths (hc : c.Finite) :
    ∀ ws ∈ ((c.get? "widths").bind scalars? : Option (List Extended)), ∀ w ∈ ws, w.Finite := by
  intro ws hws
  obtain ⟨v, hv, hread⟩ := Option.bind_eq_some_iff.mp hws
  exact finite_scalars (hc.get? hv) ws hread

theorem FiniteTable.node {t : CompiledTable Extended} (h : FiniteTable t) :
    Node.Finite (.table t.style t.header t.rows) ∧
      Node.Finite (.gridTable t.style t.header t.rows) := by
  have hpaddings : ∀ row ∈ t.header :: t.rows, ∀ c ∈ row, c.style.padding.Finite :=
    fun row hrow c hmem => (h.cells row hrow c hmem).padding
  have hcontents : ∀ row ∈ t.header :: t.rows, ∀ c ∈ row, c.content.Finite :=
    fun row hrow c hmem => (h.cells row hrow c hmem).content
  exact ⟨.table h.style hpaddings hcontents, .gridTable h.style hpaddings hcontents⟩

theorem delivers_compileTable (h : KeepsFinite compile)
    (hchildren : ∀ child ∈ e.children, child.Finite) (hc : c.Finite) :
    Delivers Node.Finite (compileTable compile e c) :=
  (delivers_buildTable h false e hchildren hc (finite_contextWidths hc)).map fun _ ht => ht.node.1

theorem finite_leadingWidths {children : List Json} (h : ∀ child ∈ children, child.Finite) :
    (∀ ws ∈ (leadingWidths children : Option (List Extended) × List Json).1, ∀ w ∈ ws, w.Finite) ∧
      ∀ row ∈ (leadingWidths children : Option (List Extended) × List Json).2, row.Finite := by
  rw [leadingWidths_snd]
  refine ⟨?_, fun row hrow => h row (mem_of_mem_gridRows hrow)⟩
  unfold leadingWidths
  split
  · split
    · exact finite_scalars (h _ List.mem_cons_self)
    · exact fun ws hws => absurd hws (Option.not_mem_none ws)
  · exact fun ws hws => absurd hws (Option.not_mem_none ws)

theorem delivers_compileGridTable (h : KeepsFinite compile)
    (hchildren : ∀ child ∈ e.children, child.Finite) (hc : c.Finite) :
    Delivers Node.Finite (compileGridTable compile e c) := by
  have hleading := finite_leadingWidths hchildren
  refine (delivers_buildTable h true e hleading.2 hc ?_).map fun _ ht => ht.node.2
  intro ws hws
  rcases Option.or_eq_some_iff.mp hws with hws | ⟨-, hws⟩
  · exact finite_contextWidths hc ws hws
  · exact hleading.1 ws hws

/-! ## The step -/

/-- An environment without renderers whose classes and references are finite. -/
structure FiniteEnv (env : Env Extended) : Prop where
  sheet : ∀ named ∈ env.sheet.classes, ∀ entry ∈ named.2, entry.2.Finite
  references : ∀ entry ∈ env.references, entry.2.Finite
  renderers : ∀ kind, env.renderers kind = none

variable {env : Env Extended}

theorem delivers_resolving {id : String} {act : CompileM Extended (Node Extended)}
    (h : Delivers Node.Finite act) : Delivers Node.Finite (resolving id act) :=
  keeps_resolving (J := HoldsFinite) (fun _ _ _ => trivial) (fun _ hs _ => hs) (fun _ hs => hs) h

theorem delivers_compileReference (henv : FiniteEnv env) (h : KeepsFinite compile) (e : Element)
    (hc : c.Finite) : Delivers Node.Finite (compileReference env compile e c) := by
  unfold compileReference
  split
  · exact delivers_invalid
  · refine Keeps.map (delivers_memo ?_) fun _ hn => .reference hn
    split
    · exact keeps_throw trivial
    · next raw hraw =>
      have htarget := henv.references _ (mem_of_get? hraw)
      exact delivers_resolving (h raw _ htarget hc.inheritable)

theorem delivers_compileTag (henv : FiniteEnv env) (h : KeepsFinite compile) (tag : Tag)
    (hchildren : ∀ child ∈ e.children, child.Finite) (hc : c.Finite) :
    Delivers Node.Finite (compileTag env compile tag e c) := by
  have hrendered (kind : RendererKind) : Delivers Node.Finite (compileRendered env kind e c) :=
    delivers_memo (delivers_render henv.renderers kind e c)
  cases tag with
  | chunk => exact delivers_compileChunk hc e
  | heading => exact delivers_compileHeading h hchildren hc
  | paragraph => exact delivers_compileParagraph h hchildren hc
  | phrase => exact delivers_compilePhrase h hchildren hc
  | subscript => exact delivers_compileSubscript hc e
  | superscript => exact delivers_compileSuperscript hc e
  | list => exact delivers_compileList h hchildren hc
  | table => exact delivers_compileTable h hchildren hc
  | gridTable => exact delivers_compileGridTable h hchildren hc
  | cell =>
    exact Keeps.map (delivers_compileCell h false hchildren hc) fun _ h => .cell h.padding h.content
  | gridCell =>
    exact Keeps.map (delivers_compileCell h true hchildren hc)
      fun _ h => .gridCell h.padding h.content
  | image => exact delivers_memo (delivers_readImage env e hc)
  | chart => exact hrendered .chart
  | svg => exact hrendered .svg
  | graphics => exact hrendered .graphics
  | anchor => exact delivers_compileAnchor h hchildren hc
  | note => exact delivers_compileNote e c
  | chapter => exact delivers_compileChapter h hchildren hc
  | subsection => exact delivers_compileSection h hchildren hc
  | line => exact delivers_ruleNode hc
  | spacer => exact delivers_spacerNode e hc
  | rectangle => exact delivers_rectangleNode hc
  | reference => exact delivers_compileReference henv h e hc
  | pageBreak => exact delivers_invalid
  | clearDoublePage => exact delivers_invalid

theorem keepsFinite_compileStep (henv : FiniteEnv env) (h : KeepsFinite compile) :
    KeepsFinite (compileStep env compile) := by
  intro node context hnode hcontext
  have hstep := dispatched_compileStep env compile node context
  generalize compileStep env compile node context = act at hstep ⊢
  cases hstep with
  | @leaf text => exact delivers_textNode hcontext text
  | malformed => exact delivers_invalid
  | unknown => exact keeps_throw trivial
  | @element e tag hleaf hparse =>
    have hchildren : ∀ child ∈ e.children, child.Finite :=
      fun child hchild => hnode.inside (inside_of_mem_children hparse hchild)
    refine delivers_compileTag henv h tag hchildren (hcontext.resolve henv.sheet _ ?_)
    exact fun entry hentry => hnode.inside (inside_of_mem_attrs hparse hentry)

/-- The step keeps what the steps below it keep. -/
theorem keepsFinite_compileWithin (henv : FiniteEnv env) (steps : ℕ) :
    KeepsFinite (compileWithin env steps) := by
  induction steps with
  | zero => exact fun _ _ _ _ => keeps_throw trivial
  | succ steps ih => exact keepsFinite_compileStep henv ih

theorem keepsFinite_compile (henv : FiniteEnv env) : KeepsFinite (Compile.compile env) :=
  fun node context => keepsFinite_compileWithin henv (stepBound env node context) node context

/-- The node is what one of the items is compiled to, behind the items before it. -/
def CompiledFrom (env : Env Extended) (items : List (Json × Context)) (n : Node Extended) : Prop :=
  ∃ earlier item later, items = earlier ++ item :: later ∧
    ((Compile.compile env item.1 item.2).run (afterCompiling env earlier)).1 = .ok n

theorem CompiledFrom.finite (henv : FiniteEnv env) {items : List (Json × Context)}
    (hitems : ∀ item ∈ items, item.1.Finite ∧ item.2.Finite) {n : Node Extended}
    (h : CompiledFrom env items n) : n.Finite := by
  obtain ⟨earlier, item, later, rfl, hrun⟩ := h
  have hearlier : HoldsFinite (afterCompiling env earlier) := by
    refine afterCompiling_induction (List.forall_mem_nil _) fun node hnode s hs => ?_
    have hfinite := hitems node (List.mem_append_left _ hnode)
    exact (keepsFinite_compile henv _ _ hfinite.1 hfinite.2 s hs).1
  have hitem := hitems item (List.mem_append_right _ List.mem_cons_self)
  have hresult := (keepsFinite_compile henv _ _ hitem.1 hitem.2 _ hearlier).2
  rwa [hrun] at hresult

end Folio.Compile
