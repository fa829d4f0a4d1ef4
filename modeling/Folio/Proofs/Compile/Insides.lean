import Folio.Proofs.Compile.MoreSteps
import Folio.Proofs.Compile.Resolution
import Folio.Proofs.Style.Inherited

/-!
# Local attributes stay with their element

What is local to an element is taken out of the context before its parts are compiled, by each rule
in its own way. So an element that is compiled twice from one state, in contexts that differ only in
what is local, holds the same nodes both times.
-/
namespace Folio.Compile

open Style Markup

variable {α β γ δ : Type}

/-! ## Two runs from one state -/

/-- If both runs succeed their results are in the relation. -/
def Meets (R : β → γ → Prop) (act : CompileM α β) (act' : CompileM α γ) : Prop :=
  ∀ s b t c u, act.run s = (.ok b, t) → act'.run s = (.ok c, u) → R b c

variable {R : γ → δ → Prop}

theorem meets_pure {c : γ} {d : δ} (h : R c d) : Meets R (pure c : CompileM α γ) (pure d) := by
  intro s b t c u hrun hrun'
  cases hrun
  cases hrun'
  exact h

theorem meets_throw (e : CompileError) (act : CompileM α δ) : Meets R (throw e) act := by
  intro s b t c u hrun _
  cases hrun

/-- First steps that lead to one result and one state. -/
theorem Approximates.meets {act act' : CompileM α β} {next : β → CompileM α γ}
    {next' : β → CompileM α δ} (h : Approximates act act') (hnext : ∀ b, Meets R (next b) (next' b)) :
    Meets R (act >>= next) (act' >>= next') := by
  intro s c t d u hrun hrun'
  obtain ⟨b, v, hact, hrest⟩ := exists_of_run_bind hrun
  rw [run_bind_of_ok (h s b v hact)] at hrun'
  exact hnext b v c t d u hrest hrun'

/-- First steps that leave the state alone, whatever they lead to. -/
theorem meets_bind_of_idle {ε : Type} {act : CompileM α β} {act' : CompileM α ε}
    {next : β → CompileM α γ} {next' : ε → CompileM α δ} (h : ∀ s, (act.run s).2 = s)
    (h' : ∀ s, (act'.run s).2 = s) (hnext : ∀ b b', Meets R (next b) (next' b')) :
    Meets R (act >>= next) (act' >>= next') := by
  intro s c t d u hrun hrun'
  obtain ⟨b, v, hact, hrest⟩ := exists_of_run_bind hrun
  obtain ⟨b', v', hact', hrest'⟩ := exists_of_run_bind hrun'
  obtain rfl : v = s := by simpa [hact] using h s
  obtain rfl : v' = v := by simpa [hact'] using h' v
  exact hnext b b' v' c t d u hrest hrest'

theorem Meets.map {ε : Type} {S : β → ε → Prop} {act : CompileM α β} {act' : CompileM α ε}
    {f : β → γ} {g : ε → δ} (h : Meets S act act') (k : ∀ b b', S b b' → R (f b) (g b')) :
    Meets R (act >>= fun b => pure (f b)) (act' >>= fun b => pure (g b)) := by
  intro s c t d u hrun hrun'
  obtain ⟨b, v, hact, hdone⟩ := exists_of_run_bind hrun
  obtain ⟨b', v', hact', hdone'⟩ := exists_of_run_bind hrun'
  cases hdone
  cases hdone'
  exact k b b' (h s b t b' u hact hact')

/-- A step behind it that does not matter. -/
theorem Meets.followed {ε ζ ζ' : Type} {S : β → ε → Prop} {act : CompileM α β}
    {act' : CompileM α ε} {last : β → CompileM α ζ} {last' : ε → CompileM α ζ'} {f : β → ζ → γ}
    {g : ε → ζ' → δ} (h : Meets S act act') (k : ∀ b b' z z', S b b' → R (f b z) (g b' z')) :
    Meets R (act >>= fun b => last b >>= fun z => pure (f b z))
      (act' >>= fun b => last' b >>= fun z => pure (g b z)) := by
  intro s c t d u hrun hrun'
  obtain ⟨b, v, hact, hrest⟩ := exists_of_run_bind hrun
  obtain ⟨b', v', hact', hrest'⟩ := exists_of_run_bind hrun'
  obtain ⟨z, w, -, hdone⟩ := exists_of_run_bind hrest
  obtain ⟨z', w', -, hdone'⟩ := exists_of_run_bind hrest'
  cases hdone
  cases hdone'
  exact k b b' z z' (h s b v b' v' hact hact')

/-- Last steps that do not matter. -/
theorem meets_map {ε : Type} {act : CompileM α β} {act' : CompileM α ε} {f : β → γ} {g : ε → δ}
    (h : ∀ b b', R (f b) (g b')) :
    Meets R (act >>= fun b => pure (f b)) (act' >>= fun b => pure (g b)) := by
  have hany : Meets (fun _ _ => True) act act' := fun _ _ _ _ _ _ _ => trivial
  exact hany.map fun b b' _ => h b b'

/-! ## The same inside -/

/-- The content of a cell: its only child, or several in a phrase with a leading of the cell. -/
inductive SameContent (children : List Json) : Node α → Node α → Prop
  | only (hfew : children.length ≤ 1) (content : Node α) : SameContent children content content
  | phrase (hmany : 1 < children.length) (style style' : PhraseStyle α) (ns : List (Node α)) :
      SameContent children (.phrase style ns) (.phrase style' ns)

/-- The same cells, but for the span of a lone one. -/
inductive SameHeader : List (Cell α) → List (Cell α) → Prop
  | same (cells : List (Cell α)) : SameHeader cells cells
  | lone (columns columns' : Nat) (only : Cell α) :
      SameHeader [withColspan columns only] [withColspan columns' only]

/-- Two elements with the same children hold the same nodes, whatever is said of the elements
themselves; for the header of a table this is asked only under a condition. -/
inductive SameInside (children : List Json) (heads : Prop) : Node α → Node α → Prop
  | paragraph (style style' : BlockStyle α) (ns : List (Node α)) :
      SameInside children heads (.paragraph style ns) (.paragraph style' ns)
  | phrase (style style' : PhraseStyle α) (ns : List (Node α)) :
      SameInside children heads (.phrase style ns) (.phrase style' ns)
  | list (style style' : ListStyle α) (items : List (ListItem α)) :
      SameInside children heads (.list style items) (.list style' items)
  | cell (style style' : CellStyle α) {x y : Node α} (h : SameContent children x y) :
      SameInside children heads (.cell (.mk style x)) (.cell (.mk style' y))
  | gridCell (style style' : CellStyle α) {x y : Node α} (h : SameContent children x y) :
      SameInside children heads (.gridCell (.mk style x)) (.gridCell (.mk style' y))
  | table (style style' : TableStyle α) {header header' : List (Cell α)}
      (rows : List (List (Cell α))) (h : heads → SameHeader header header') :
      SameInside children heads (.table style header rows) (.table style' header' rows)
  | gridTable (style style' : TableStyle α) {header header' : List (Cell α)}
      (rows : List (List (Cell α))) (h : heads → SameHeader header header') :
      SameInside children heads (.gridTable style header rows) (.gridTable style' header' rows)
  | anchor (ends ends' : AnchorEnds) (shape shape' : AnchorShape α) (content : Node α) :
      SameInside children heads (.anchor ends shape content) (.anchor ends' shape' content)
  | chapter (number : Nat) (title : Node α) (ns : List (Node α)) :
      SameInside children heads (.chapter number title ns) (.chapter number title ns)
  | subsection (number : List Nat) (indent indent' : α) (title : Node α) (ns : List (Node α)) :
      SameInside children heads (.subsection number indent title ns)
        (.subsection number indent' title ns)

/-- Tags of elements that hold others. -/
def holdingTags : List Tag :=
  [.paragraph, .phrase, .heading, .list, .cell, .gridCell, .table, .gridTable, .anchor, .chapter,
    .subsection]

/-! ## Rules -/

variable [Scalar α] {env : Env α} {compile : Compiling α} {c d : Context} {e e' : Element}

theorem HandsOn.idle {Q : List (Node α) → β → Prop} {F : Compiling α → CompileM α β}
    (h : HandsOn [] Q F) (compile : Compiling α) (s : State α) : ((F compile).run s).2 = s :=
  h.stays (T := fun s t => t = s) (fun _ => rfl) (fun _ _ _ h k => k.trans h) nofun s

omit [Scalar α] in
theorem compileChildren_congr (h : c.inheritable = d.inheritable) (children : List Json) :
    compileChildren compile children c = compileChildren compile children d := by
  unfold compileChildren
  rw [h]

/-- The markup of the table matters only where a row is none. -/
theorem approximates_compileRow (grid : Bool) (raw raw' : Json) (context : Context)
    (row : Json) : Approximates (compileRow compile grid raw context row)
      (compileRow compile grid raw' context row) := by
  cases row with
  | array items => exact approximates_refl _
  | _ => exact approximates_throw _ _

variable (hagree : c.Agree d) (hchildren : e.children = e'.children) {heads : Prop}

include hagree hchildren

theorem meets_compileParagraph : Meets (SameInside e.children heads)
    (compileParagraph compile e c) (compileParagraph compile e' d) := by
  unfold compileParagraph
  rw [← hchildren, compileChildren_congr (hagree.without ["align"]).inheritable]
  refine (approximates_refl _).meets fun ns => meets_map fun font font' => ?_
  exact .paragraph _ _ ns

theorem meets_compilePhrase : Meets (SameInside e.children heads)
    (compilePhrase compile e c) (compilePhrase compile e' d) := by
  unfold compilePhrase
  rw [← hchildren, compileChildren_congr (hagree.without ["align"]).inheritable]
  refine (approximates_refl _).meets fun ns => meets_map fun font font' => ?_
  exact .phrase _ _ ns

theorem meets_compileHeading : Meets (SameInside e.children heads)
    (compileHeading compile e c) (compileHeading compile e' d) := by
  have hheading : (headingContext c).Agree (headingContext d) := by
    have hplain := hagree.merge headingDefaults
    unfold headingContext
    rw [hagree.fields? (by decide)]
    simp only
    split
    · exact hplain.merge _
    · exact hplain
  unfold compileHeading
  rw [← hchildren]
  simp only
  rw [compileChildren_congr (hheading.without ["align"]).inheritable]
  refine (approximates_refl _).meets fun ns => meets_map fun font font' => ?_
  exact .paragraph _ _ ns

theorem meets_compileList : Meets (SameInside e.children heads)
    (compileList compile e c) (compileList compile e' d) := by
  unfold compileList fontOf
  rw [← hchildren, hagree.inheritable, hagree.font]
  refine (approximates_refl _).meets fun font => (approximates_refl _).meets fun items => ?_
  exact meets_pure (.list _ _ items)

theorem meets_compileAnchor : Meets (SameInside e.children heads)
    (compileAnchor compile e c) (compileAnchor compile e' d) := by
  have hstyled : (anchorContext c).Agree (anchorContext d) := by
    unfold anchorContext
    rw [hagree.fields? (by decide)]
    split
    · exact hagree.merge _
    · exact hagree
  have hbody : anchorBody compile e (anchorContext c) = anchorBody compile e' (anchorContext d) := by
    unfold anchorBody fontOf
    rw [← hchildren, compileChildren_congr hstyled.inheritable, hstyled.font]
  refine meets_bind_of_idle ((handsOn_anchorShape c).idle compile)
    ((handsOn_anchorShape d).idle compile) fun shape shape' => ?_
  change Meets _ (anchorBody compile e (anchorContext c) >>= _)
    (anchorBody compile e' (anchorContext d) >>= _)
  rw [hbody]
  refine (approximates_refl _).meets fun body => ?_
  exact meets_pure (.anchor _ _ shape shape' body)

omit [Scalar α] in
theorem approximates_compileTitled :
    Approximates (compileTitled compile e c) (compileTitled compile e' d) := by
  unfold compileTitled
  rw [← hchildren]
  cases e.children with
  | nil => exact approximates_throw _ _
  | cons title rest =>
    simp only [hagree.inheritable, compileChildren_congr hagree.inheritable]
    exact approximates_refl _

omit [Scalar α] in
theorem meets_compileChapter : Meets (SameInside e.children heads)
    (compileChapter compile e c) (compileChapter compile e' d) := by
  refine (approximates_refl nextChapter).meets fun number => ?_
  have htitled : Approximates (compileTitled compile e c) (compileTitled compile e' d) :=
    approximates_compileTitled hagree hchildren
  refine (approximates_within _ _ htitled).meets fun titled => ?_
  exact meets_pure (.chapter number titled.1 titled.2)

theorem meets_compileSection : Meets (SameInside e.children heads)
    (compileSection compile e c) (compileSection compile e' d) := by
  have htitled : Approximates (compileTitled compile e c) (compileTitled compile e' d) :=
    approximates_compileTitled hagree hchildren
  refine (approximates_refl nextSection).meets fun number => ?_
  by_cases hnone : number.isEmpty
  · simp only [hnone, ↓reduceIte]
    exact htitled.meets fun titled => meets_pure (.subsection number _ _ titled.1 titled.2)
  · simp only [hnone, Bool.false_eq_true, ↓reduceIte]
    refine (approximates_within _ _ htitled).meets fun titled => ?_
    exact meets_pure (.subsection number _ _ titled.1 titled.2)

/-! ## Cells and tables -/

omit hchildren in
theorem meets_cellContent (grid : Bool) (children : List Json) : Meets (SameContent children)
    (cellContent compile grid children c) (cellContent compile grid children d) := by
  have hsame {act : CompileM α (Node α)} (hfew : children.length ≤ 1) :
      Meets (SameContent children) act act := by
    intro s n t m u hrun hrun'
    cases hrun.symm.trans hrun'
    exact .only hfew n
  unfold cellContent
  simp only [hagree.inheritable]
  split
  · exact hsame (Nat.zero_le 1)
  · exact hsame (Nat.le_refl 1)
  · next hnil hone =>
    have hmany : 1 < children.length := by
      cases children with
      | nil => exact absurd rfl hnil
      | cons first rest =>
        cases rest with
        | nil => exact absurd rfl (hone first)
        | cons second rest => simp
    rw [compileChildren_congr hagree.inheritable]
    refine (approximates_refl _).meets fun ns => meets_map fun font font' => ?_
    exact .phrase hmany _ _ ns

theorem meets_compileCell (grid : Bool) : Meets
    (fun x y => SameContent e.children x.content y.content)
    (compileCell compile grid e c) (compileCell compile grid e' d) := by
  unfold compileCell
  rw [← hchildren]
  exact (meets_cellContent hagree grid e.children).followed fun _ _ _ _ hcontent => hcontent

omit hchildren in
theorem meets_headerCells (grid : Bool) (row : HeaderRow) (columns columns' : Nat) :
    Meets SameHeader (headerCells compile grid row c columns)
      (headerCells compile grid row d columns') := by
  unfold headerCells
  simp only [hagree.inheritable]
  refine (approximates_refl _).meets fun cells => meets_pure ?_
  unfold spanned
  split
  · next only => exact .lone columns columns' only
  · exact .same cells

omit hchildren in
theorem meets_buildTable (grid : Bool) (rows : List Json) (widths widths' : Option (List α)) :
    Meets (fun t u => t.rows = u.rows ∧
        (c.get? "header" = d.get? "header" → SameHeader t.header u.header))
      (buildTable compile grid e c rows widths) (buildTable compile grid e' d rows widths') := by
  unfold buildTable
  rw [hagree.inheritable]
  cases rows.isEmpty with
  | true => exact meets_throw _ _
  | false =>
    simp only [Bool.false_eq_true, ↓reduceIte]
    refine (approximates_mapM (approximates_compileRow grid e.raw e'.raw _) rows).meets fun cells => ?_
    refine meets_bind_of_idle ((handsOn_columnCount _ _ _ _).idle compile)
      ((handsOn_columnCount _ _ _ _).idle compile) fun columns columns' => ?_
    by_cases hheads : c.get? "header" = d.get? "header"
    · rw [hheads]
      cases HeaderRow.parse? (d.get? "header") with
      | none =>
        have hnone : Meets SameHeader (pure [] : CompileM α (List (Cell α))) (pure []) :=
          meets_pure (.same [])
        exact hnone.followed fun _ _ _ _ hheader => ⟨rfl, fun _ => hheader⟩
      | some row =>
        have hheader : Meets SameHeader (headerCells compile grid row c columns)
          (headerCells compile grid row d columns') := meets_headerCells hagree grid row _ _
        exact hheader.followed fun _ _ _ _ hheader => ⟨rfl, fun _ => hheader⟩
    · have hany {first first' : CompileM α (List (Cell α))} :
          Meets (fun _ _ => True) first first' := fun _ _ _ _ _ _ _ => trivial
      cases HeaderRow.parse? (c.get? "header") with
      | none =>
        cases HeaderRow.parse? (d.get? "header") with
        | none => exact hany.followed fun _ _ _ _ _ => ⟨rfl, fun h => absurd h hheads⟩
        | some _ => exact hany.followed fun _ _ _ _ _ => ⟨rfl, fun h => absurd h hheads⟩
      | some _ =>
        cases HeaderRow.parse? (d.get? "header") with
        | none => exact hany.followed fun _ _ _ _ _ => ⟨rfl, fun h => absurd h hheads⟩
        | some _ => exact hany.followed fun _ _ _ _ _ => ⟨rfl, fun h => absurd h hheads⟩

theorem meets_compileTag {tag : Tag} (htag : tag ∈ holdingTags) :
    Meets (SameInside e.children (c.get? "header" = d.get? "header"))
      (compileTag env compile tag e c) (compileTag env compile tag e' d) := by
  cases tag with
  | paragraph => exact meets_compileParagraph hagree hchildren
  | phrase => exact meets_compilePhrase hagree hchildren
  | heading => exact meets_compileHeading hagree hchildren
  | list => exact meets_compileList hagree hchildren
  | anchor => exact meets_compileAnchor hagree hchildren
  | chapter => exact meets_compileChapter hagree hchildren
  | subsection => exact meets_compileSection hagree hchildren
  | cell =>
    refine (meets_compileCell hagree hchildren false).map fun x y hcontent => ?_
    cases x
    cases y
    exact .cell _ _ hcontent
  | gridCell =>
    refine (meets_compileCell hagree hchildren true).map fun x y hcontent => ?_
    cases x
    cases y
    exact .gridCell _ _ hcontent
  | table =>
    simp only [compileTag, compileTable, ← hchildren]
    refine (meets_buildTable hagree false e.children _ _).map fun t u ⟨hrows, hheader⟩ => ?_
    rw [← hrows]
    exact .table _ _ t.rows hheader
  | gridTable =>
    simp only [compileTag, compileGridTable, ← hchildren]
    refine (meets_buildTable hagree true _ _ _).map fun t u ⟨hrows, hheader⟩ => ?_
    rw [← hrows]
    exact .gridTable _ _ t.rows hheader
  | _ => exact absurd htag (by decide)

/-! ## Whole elements -/

omit hagree hchildren

/-- A node that compiles does so within any number of steps from some on. -/
theorem run_compileStep_of_compile {node : Json} {context : Context} {s t : State α} {n : Node α}
    (hrun : (Compile.compile env node context).run s = (.ok n, t)) {steps : Nat}
    (hsteps : stepBound env node context ≤ steps) :
    (compileStep env (compileWithin env steps) node context).run s = (.ok n, t) :=
  approximates_compileWithin env (Nat.le_succ_of_le hsteps) node context s n t hrun

/-- An element that is compiled twice from one state with the same children, in contexts that agree
on all that is not local to it: what it holds is the same. A header counts only if it is the same
header, and then but for the span of a lone cell. -/
theorem compile_insides (env : Env α) {node node' : Json} {context context' : Context} {tag : Tag}
    (hparse : Element.parse node = .ok e) (hparse' : Element.parse node' = .ok e')
    (htag : e.tag? = some tag) (htag' : e'.tag? = some tag) (hholds : tag ∈ holdingTags)
    (hchildren : e.children = e'.children)
    (hsorted : Fields.Sorted context.attrs) (hsorted' : Fields.Sorted context'.attrs)
    (hagree : ∀ key ∉ localAttributes,
      (resolve context env.sheet e.token.classes e.attrs).get? key =
        (resolve context' env.sheet e'.token.classes e'.attrs).get? key)
    {s t t' : State α} {n n' : Node α}
    (hrun : (Compile.compile env node context).run s = (.ok n, t))
    (hrun' : (Compile.compile env node' context').run s = (.ok n', t')) :
    SameInside e.children
      ((resolve context env.sheet e.token.classes e.attrs).get? "header" =
        (resolve context' env.sheet e'.token.classes e'.attrs).get? "header") n n' := by
  have hcontexts : (resolve context env.sheet e.token.classes e.attrs).Agree
      (resolve context' env.sheet e'.token.classes e'.attrs) :=
    ⟨sorted_resolve hsorted _ _ _, sorted_resolve hsorted' _ _ _, hagree⟩
  have hstep := run_compileStep_of_compile hrun
    (Nat.le_max_left _ (stepBound env node' context'))
  have hstep' := run_compileStep_of_compile hrun' (Nat.le_max_right (stepBound env node context) _)
  rw [compileStep_of_parse env _ hparse htag] at hstep
  rw [compileStep_of_parse env _ hparse' htag'] at hstep'
  exact meets_compileTag hcontexts hchildren hholds s n t n' t' hstep hstep'

/-- A list in a list, with attributes of the outer one. -/
def nestedList (attrs : Fields) : Json :=
  .array [.string "list", .object attrs, .array [.string "list", .string "A"]]

/-- Only the outer list is numbered. -/
theorem compile_insides_nestedList : ∃ style style' items t t',
    (Compile.compile bareEnv (nestedList [("numbered", .bool true)]) .empty).run .initial =
        (.ok (.list style items), t) ∧
      (Compile.compile bareEnv (nestedList []) .empty).run .initial =
        (.ok (.list style' items), t') ∧ style.kind = .numbered ∧ style'.kind = .bulleted "-" := by
  obtain ⟨style, items, t, hrun, hkind⟩ : ∃ style items t,
      (Compile.compile bareEnv (nestedList [("numbered", .bool true)]) .empty).run .initial =
        (.ok (.list style items), t) ∧ style.kind = .numbered := ⟨_, _, _, rfl, rfl⟩
  obtain ⟨style', items', t', hrun', hkind'⟩ : ∃ style items t,
      (Compile.compile bareEnv (nestedList []) .empty).run .initial =
        (.ok (.list style items), t) ∧ style.kind = .bulleted "-" := ⟨_, _, _, rfl, rfl⟩
  have hparse (attrs : Fields) : Element.parse (nestedList attrs) = .ok ⟨Token.parse "list",
      some attrs, [.array [.string "list", .string "A"]], nestedList attrs⟩ := rfl
  have hclasses : (Token.parse "list").classes = [] := by decide +kernel
  have hagree : ∀ key ∉ localAttributes,
      (resolve .empty bareEnv.sheet (Token.parse "list").classes
          (some [("numbered", Json.bool true)])).get? key =
        (resolve .empty bareEnv.sheet (Token.parse "list").classes (some [])).get? key := by
    intro key hkey
    have hne : key ≠ stripKeyword "numbered" := by
      rintro rfl
      exact hkey (by decide +kernel)
    rw [hclasses]
    exact Fields.get?_insert_of_ne hne (.bool true) []
  have hlist : Tag.parse? (Token.parse "list").primary = some .list := by decide +kernel
  have hsame := compile_insides bareEnv (hparse [("numbered", .bool true)]) (hparse []) hlist hlist
    (by decide) rfl .nil .nil hagree hrun hrun'
  cases hsame with
  | list style style' items => exact ⟨style, style', items, t, t', hrun, hrun', hkind, hkind'⟩

end Folio.Compile
