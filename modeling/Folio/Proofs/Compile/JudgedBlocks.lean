import Folio.Proofs.Compile.Judged

/-!
# What text, blocks and chapters accept

One lemma for each rule whose parts are its children: it accepts its element exactly if the children
are texts and numbers where nothing else may stand, and well-formed everywhere else.
-/
namespace Folio.Compile

open Style Markup

variable {α : Type} [Scalar α] {F : CompileError → Prop} {blame : Prop} {env : Env α}
  {compile : Compiling α}

/-- A cell is compiled to a cell that takes up the columns it asks for. -/
def CellOf (env : Env α) (context : Context) (node : Json) (n : Node α) : Prop :=
  isCell node → ∃ c : Cell α, (n = .cell c ∨ n = .gridCell c) ∧
    c.style.colspan = entrySpan env context node

/-- Parts that are accepted if they are well-formed, below every context that they hide. -/
def Judged (env : Env α) (blame : Prop) (F : CompileError → Prop) (compile : Compiling α)
    (parts : List Json) : Prop :=
  ∀ part ∈ parts, ∀ context, Blames blame context → Unseen context part →
    Judges F (WellFormed env .empty part) (CellOf env context part) (compile part context)

theorem Judged.of_subset {parts more : List Json} (h : Judged env blame F compile more)
    (hsub : ∀ part ∈ parts, part ∈ more) : Judged env blame F compile parts :=
  fun part hpart => h part (hsub part hpart)

theorem Judged.inheritable {parts : List Json} (h : Judged env blame F compile parts)
    {part : Json} (hpart : part ∈ parts) {context : Context} (hc : Blames blame context) :
    Judges F (WellFormed env .empty part) (fun _ => True) (compile part context.inheritable) :=
  (h part hpart _ hc.inheritable (.inl ⟨context, rfl⟩)).weaken fun _ _ => trivial

/-! ## Text -/

theorem isSome_leafTexts? (children : List Json) :
    (leafTexts? children).isSome ↔ ∀ child ∈ children, (leafText? child).isSome := by
  unfold leafTexts?
  rw [Option.isSome_map]
  induction children with
  | nil => simp
  | cons child children ih =>
    rw [List.mapM_cons]
    cases hchild : leafText? child with
    | none => simp [hchild]
    | some text =>
      cases hrest : children.mapM leafText? with
      | none => simpa [hchild, hrest] using ih
      | some texts => simpa [hchild, hrest] using ih

omit [Scalar α] in
theorem judges_leafText (e : Element) :
    Judges F (∀ child ∈ e.children, (leafText? child).isSome) (fun _ => True)
      (leafText e : CompileM α String) := by
  rw [← isSome_leafTexts?]
  unfold leafText
  split
  · next text h => exact judges_pure (by simp [h]) trivial
  · next h => exact judges_invalid (by simp [h])

theorem judges_textRun (hF : Forgives F blame) {context : Context} (hc : Blames blame context)
    (text : String) :
    Judges F True (fun _ => True) (textRun text context : CompileM α (TextRun α)) := by
  refine (judges_fontOf hF hc).before fun font _ => ?_
  exact (judges_colorOf? hF hc "background").map fun _ _ => trivial

theorem judges_textNode (hF : Forgives F blame) {context : Context} (hc : Blames blame context)
    (text : String) :
    Judges F True (fun _ => True) (textNode text context : CompileM α (Node α)) :=
  (judges_textRun hF hc text).map fun _ _ => trivial

theorem judges_scriptRun (hF : Forgives F blame) {context : Context} (hc : Blames blame context)
    (text : String) :
    Judges F True (fun _ => True) (scriptRun text context : CompileM α (TextRun α)) :=
  (judges_textRun hF hc text).map fun _ _ => trivial

theorem judges_compileChunk (hF : Forgives F blame) {context : Context} (hc : Blames blame context)
    (e : Element) :
    Judges F (∀ child ∈ e.children, (leafText? child).isSome) (fun _ => True)
      (compileChunk e context : CompileM α (Node α)) := by
  refine (judges_leafText e).andThen fun text _ => ?_
  split
  · exact (judges_scriptRun hF hc text).map fun _ _ => trivial
  · split
    · exact (judges_scriptRun hF hc text).map fun _ _ => trivial
    · exact judges_textNode hF hc text

theorem judges_compileSubscript (hF : Forgives F blame) {context : Context}
    (hc : Blames blame context) (e : Element) :
    Judges F (∀ child ∈ e.children, (leafText? child).isSome) (fun _ => True)
      (compileSubscript e context : CompileM α (Node α)) :=
  (judges_leafText e).andThen fun text _ =>
    (judges_scriptRun hF hc text).map fun _ _ => trivial

theorem judges_compileSuperscript (hF : Forgives F blame) {context : Context}
    (hc : Blames blame context) (e : Element) :
    Judges F (∀ child ∈ e.children, (leafText? child).isSome) (fun _ => True)
      (compileSuperscript e context : CompileM α (Node α)) :=
  (judges_leafText e).andThen fun text _ =>
    (judges_scriptRun hF hc text).map fun _ _ => trivial

/-! ## Children -/

theorem judges_compileChildren {children : List Json} (h : Judged env blame F compile children)
    {context : Context} (hc : Blames blame context) :
    Judges F (∀ child ∈ children, WellFormed env .empty child) (fun _ => True)
      (compileChildren compile children context) :=
  (judges_mapM fun _ hchild => h.inheritable hchild hc).weaken fun _ _ => trivial

theorem judges_compilePhrase (hF : Forgives F blame) {e : Element}
    (h : Judged env blame F compile e.children) {context : Context} (hc : Blames blame context) :
    Judges F (∀ child ∈ e.children, WellFormed env .empty child) (fun _ => True)
      (compilePhrase compile e context) :=
  (judges_compileChildren h (hc.without _)).andThen fun _ _ =>
    (judges_fontOf hF hc).map fun _ _ => trivial

theorem judges_compileParagraph (hF : Forgives F blame) {e : Element}
    (h : Judged env blame F compile e.children) {context : Context} (hc : Blames blame context) :
    Judges F (∀ child ∈ e.children, WellFormed env .empty child) (fun _ => True)
      (compileParagraph compile e context) :=
  (judges_compileChildren h (hc.without _)).andThen fun _ _ =>
    (judges_fontOf hF hc).map fun _ _ => trivial

theorem judges_compileHeading (hF : Forgives F blame) {e : Element}
    (h : Judged env blame F compile e.children) {context : Context} (hc : Blames blame context) :
    Judges F (∀ child ∈ e.children, WellFormed env .empty child) (fun _ => True)
      (compileHeading compile e context) :=
  (judges_compileChildren h ((blames_headingContext hc).without _)).andThen fun _ _ =>
    (judges_fontOf hF (blames_headingContext hc)).map fun _ _ => trivial

theorem wellFormed_of_leaf {context : Context} {node : Json} {text : String}
    (h : leafText? node = some text) : True ↔ WellFormed env context node :=
  iff_of_true trivial (.leaf (by simp [h]))

theorem judges_compileItem (hF : Forgives F blame) {children : List Json}
    (h : Judged env blame F compile children) (font : Font α) {context : Context}
    (hc : Blames blame context) {child : Json} (hchild : child ∈ children) :
    Judges F (WellFormed env .empty child) (fun _ => True)
      (compileItem compile font context.inheritable child) := by
  unfold compileItem
  split
  · next text hleaf =>
    exact ((judges_textNode hF hc.inheritable text).map fun _ _ => trivial).iff
      (wellFormed_of_leaf hleaf)
  · refine (h.inheritable hchild hc).andThen fun n _ => ?_
    split
    · exact judges_pure trivial trivial
    · exact judges_pure trivial trivial

theorem judges_compileList (hF : Forgives F blame) {e : Element}
    (h : Judged env blame F compile e.children) {context : Context} (hc : Blames blame context) :
    Judges F (∀ child ∈ e.children, WellFormed env .empty child) (fun _ => True)
      (compileList compile e context) := by
  refine (judges_fontOf hF hc).before fun font _ => ?_
  have hitems := judges_mapM fun child hchild => judges_compileItem hF h font hc hchild
  exact hitems.map fun _ _ => trivial

theorem judges_anchorShape (hF : Forgives F blame) {context : Context}
    (hc : Blames blame context) :
    Judges F True (fun _ => True) (anchorShape context : CompileM α (AnchorShape α)) := by
  unfold anchorShape
  split
  · next style leading hstyle _ =>
    exact (judges_fontOf hF (hc.merge (hc.fields? hstyle))).map fun _ _ => trivial
  · exact judges_pure trivial trivial
  · next style hstyle _ =>
    exact (judges_fontOf hF (hc.merge (hc.fields? hstyle))).map fun _ _ => trivial
  · exact judges_pure trivial trivial

theorem judges_anchorBody (hF : Forgives F blame) {e : Element}
    (h : Judged env blame F compile e.children) {context : Context} (hc : Blames blame context) :
    Judges F (∀ child ∈ e.children, WellFormed env .empty child) (fun _ => True)
      (anchorBody compile e context) := by
  refine (judges_compileChildren h hc).andThen fun ns _ => ?_
  split
  · exact judges_pure trivial trivial
  · exact (judges_fontOf hF hc).map fun _ _ => trivial

theorem judges_compileAnchor (hF : Forgives F blame) {e : Element}
    (h : Judged env blame F compile e.children) {context : Context} (hc : Blames blame context) :
    Judges F (∀ child ∈ e.children, WellFormed env .empty child) (fun _ => True)
      (compileAnchor compile e context) := by
  refine (judges_anchorShape hF hc).before fun shape _ => ?_
  refine (judges_anchorBody hF h ?_).map fun _ _ => trivial
  split
  · next style hstyle => exact hc.merge (hc.fields? hstyle)
  · exact hc

/-! ## Chapters and sections -/

theorem judges_compileTitled {e : Element} (h : Judged env blame F compile e.children)
    {context : Context} (hc : Blames blame context) :
    Judges F (e.children ≠ [] ∧ ∀ child ∈ e.children, WellFormed env .empty child) (fun _ => True)
      (compileTitled compile e context) := by
  unfold compileTitled
  split
  · next hchildren => exact judges_invalid fun hwell => hwell.1 hchildren
  · next title rest hchildren =>
    rw [hchildren] at h ⊢
    have hrest := h.of_subset fun child hchild => List.mem_cons_of_mem title hchild
    refine ((h.inheritable List.mem_cons_self hc).bind fun n _ =>
      (judges_compileChildren hrest hc).map fun _ _ => trivial).iff ?_
    simp

theorem judges_compileChapter {e : Element} (h : Judged env blame F compile e.children)
    {context : Context} (hc : Blames blame context) :
    Judges F (e.children ≠ [] ∧ ∀ child ∈ e.children, WellFormed env .empty child) (fun _ => True)
      (compileChapter compile e context) :=
  judges_modifyGet.before fun _ _ =>
    (judges_within (judges_compileTitled h hc)).andThen fun _ _ => judges_pure trivial trivial

theorem judges_compileSection {e : Element} (h : Judged env blame F compile e.children)
    {context : Context} (hc : Blames blame context) :
    Judges F (e.children ≠ [] ∧ ∀ child ∈ e.children, WellFormed env .empty child) (fun _ => True)
      (compileSection compile e context) := by
  refine judges_modifyGet.before fun number _ => ?_
  have htitled := judges_compileTitled h hc
  split
  · exact htitled.andThen fun _ _ => judges_pure trivial trivial
  · exact (judges_within htitled).andThen fun _ _ => judges_pure trivial trivial

end Folio.Compile
