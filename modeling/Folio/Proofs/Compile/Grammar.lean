import Folio.Proofs.Compile.JudgedTables

/-!
# The grammar of the markup

Markup without pictures, drawings and references compiles exactly if it is well-formed, whatever was
compiled before, except that a colour in it may not be readable.
-/
namespace Folio.Compile

open Style Markup Relation

variable {α : Type} [Scalar α] {F : CompileError → Prop} {blame : Prop} {env : Env α}

/-! ## What is drawn without a renderer -/

theorem judges_ruleNode (hF : Forgives F blame) {context : Context} (hc : Blames blame context) :
    Judges F True (fun _ => True) (ruleNode context : CompileM α (Node α)) :=
  (judges_colorOf? hF hc _).map fun _ _ => trivial

theorem judges_spacerNode (hF : Forgives F blame) (e : Element) {context : Context}
    (hc : Blames blame context) :
    Judges F True (fun _ => True) (spacerNode e context : CompileM α (Node α)) := by
  unfold spacerNode
  simp only
  split
  · exact judges_pure trivial trivial
  · exact (judges_fontOf hF hc).map fun _ _ => trivial

theorem judges_rectangleNode (hF : Forgives F blame) {context : Context}
    (hc : Blames blame context) :
    Judges F True (fun _ => True) (rectangleNode context : CompileM α (Node α)) :=
  (judges_firstColor? hF hc _ _).before fun _ _ =>
    (judges_colorOf? hF hc _).map fun _ _ => trivial

/-! ## One step -/

theorem judges_compileTag {compile : Compiling α} (hF : Forgives F blame) {tag : Tag}
    (hplain : tag ∉ foreignTags) {e : Element}
    {context : Context} (hc : Blames blame context)
    (h : Judged env blame F compile (tagParts env tag e context)) :
    Judges F (Shape env tag e context ∧
        ∀ part ∈ tagParts env tag e context, WellFormed env .empty part)
      (fun n => tag = .cell ∨ tag = .gridCell → ∃ c : Cell α, (n = .cell c ∨ n = .gridCell c) ∧
        c.style.colspan = spanOf context)
      (compileTag env compile tag e context) := by
  -- An element of text has no parts, what is drawn has none either.
  have htext {act : CompileM α (Node α)}
      (hact : Judges F (∀ child ∈ e.children, (leafText? child).isSome) (fun _ => True) act) :
      Judges F ((∀ child ∈ e.children, (leafText? child).isSome) ∧
        ∀ part ∈ ([] : List Json), WellFormed env .empty part) (fun _ => True) act :=
    hact.iff (by simp)
  have hdrawn {act : CompileM α (Node α)} (hact : Judges F True (fun _ => True) act) :
      Judges F (True ∧ ∀ part ∈ ([] : List Json), WellFormed env .empty part) (fun _ => True) act :=
    hact.iff (by simp)
  have hblock {T : Node α → Prop} {act : CompileM α (Node α)}
      (hact : Judges F (∀ child ∈ e.children, WellFormed env .empty child) T act) :
      Judges F (True ∧ ∀ child ∈ e.children, WellFormed env .empty child) T act :=
    hact.iff (iff_of_eq (true_and _)).symm
  cases tag with
  | chunk => exact (htext (judges_compileChunk hF hc e)).weaken nofun
  | subscript => exact (htext (judges_compileSubscript hF hc e)).weaken nofun
  | superscript => exact (htext (judges_compileSuperscript hF hc e)).weaken nofun
  | note => exact (htext ((judges_leafText e).map fun _ _ => trivial)).weaken nofun
  | heading => exact (hblock (judges_compileHeading hF h hc)).weaken nofun
  | paragraph => exact (hblock (judges_compileParagraph hF h hc)).weaken nofun
  | phrase => exact (hblock (judges_compilePhrase hF h hc)).weaken nofun
  | list => exact (hblock (judges_compileList hF h hc)).weaken nofun
  | anchor => exact (hblock (judges_compileAnchor hF h hc)).weaken nofun
  | cell =>
    exact hblock ((judges_compileCell hF false h hc).map fun c hspan _ => ⟨c, .inl rfl, hspan⟩)
  | gridCell =>
    exact hblock ((judges_compileCell hF true h hc).map fun c hspan _ => ⟨c, .inr rfl, hspan⟩)
  | chapter => exact (judges_compileChapter h hc).weaken nofun
  | subsection => exact (judges_compileSection h hc).weaken nofun
  | table => exact (judges_compileTable hF h hc).weaken nofun
  | gridTable => exact (judges_compileGridTable hF h hc).weaken nofun
  | line => exact (hdrawn (judges_ruleNode hF hc)).weaken nofun
  | spacer => exact (hdrawn (judges_spacerNode hF e hc)).weaken nofun
  | rectangle => exact (hdrawn (judges_rectangleNode hF hc)).weaken nofun
  | pageBreak | clearDoublePage => exact judges_invalid And.left
  | image | chart | svg | graphics | reference => exact absurd (by decide) hplain

theorem wellFormed_of_parse {context : Context} {node : Json} {e : Element} {tag : Tag}
    (hparse : Element.parse node = .ok e) (htag : e.tag? = some tag) (h : tag ≠ .reference) :
    (Shape env tag e (resolve context env.sheet e.token.classes e.attrs) ∧
        ∀ part ∈ tagParts env tag e (resolve context env.sheet e.token.classes e.attrs),
          WellFormed env .empty part) ↔ WellFormed env context node := by
  rw [← innerParts_of_parse hparse htag h]
  constructor
  · rintro ⟨hshape, hinside⟩
    exact .element hparse htag hshape hinside
  · intro hwell
    cases hwell with
    | leaf hleaf => cases node <;> simp_all [Element.parse, leafText?]
    | element parsed known shape inside =>
      obtain rfl := Except.ok.inj (hparse.symm.trans parsed)
      obtain rfl := Option.some.inj (htag.symm.trans known)
      exact ⟨shape, inside⟩

/-- A step accepts what is well-formed if compiling the parts does. -/
theorem judges_compileStep {compile : Compiling α} (hF : Forgives F blame) {node : Json}
    {context : Context} (hc : Blames blame context) (hnode : cutsColor node → blame)
    (hsheet : env.sheet.CutsColor → blame) (hplain : Lacks foreignTags node)
    (h : Judged env blame F compile (innerParts env context node)) :
    Judges F (WellFormed env context node) (CellOf env context node)
      (compileStep env compile node context) := by
  have hstep := dispatched_compileStep env compile node context
  generalize compileStep env compile node context = act at hstep ⊢
  cases hstep with
  | @leaf text hleaf =>
    have hnone : tagOf? node = none := by cases node <;> simp_all [leafText?, tagOf?]
    refine ((judges_textNode hF hc text).iff (wellFormed_of_leaf hleaf)).weaken fun n _ hcell => ?_
    simp [isCell, hnone] at hcell
  | malformed hleaf hparse =>
    refine judges_invalid fun hwell => ?_
    cases hwell with
    | leaf hsome => simp [hleaf] at hsome
    | element parsed _ _ _ => cases hparse.symm.trans parsed
  | unknown hleaf hparse htag =>
    refine judges_throw fun hwell => ?_
    cases hwell with
    | leaf hsome => simp [hleaf] at hsome
    | element parsed known _ _ =>
      obtain rfl := Except.ok.inj (hparse.symm.trans parsed)
      cases htag.symm.trans known
  | @element e tag hleaf hparse htag hknown =>
    have hcovered := hplain tag hknown
    have href : tag ≠ .reference := fun href => hcovered (by simp [href, foreignTags])
    have hblames := blames_resolve hc hnode hsheet hparse
    rw [innerParts_of_parse hparse htag href] at h
    refine ((judges_compileTag hF hcovered hblames h).iff
      (wellFormed_of_parse hparse htag href)).weaken fun n hn hcell => ?_
    obtain ⟨c, hc, hspan⟩ := hn (tag_of_isCell hcell hparse htag)
    refine ⟨c, hc, hspan.trans ?_⟩
    simp only [entrySpan, hparse, hcell, if_true]

/-! ## Whole nodes -/

/-- Why well-formed markup may fail all the same: a colour, or too little room for the descent. -/
def Excused (env : Env α) (blame : Prop) (steps : Nat) (context : Context) (node : Json) :
    CompileError → Prop
  | .color _ => blame
  | .endless => Deep env [] steps context node
  | _ => False

omit [Scalar α] in
theorem Excused.of_inner {steps : Nat} {context below : Context} {node part : Json}
    {e : CompileError} (h : Excused env blame steps below part e)
    (hpart : part ∈ innerParts env context node) (hides : Hides env below part) :
    Excused env blame (steps + 1) context node e := by
  cases e with
  | endless => exact .inl ⟨part, hpart, Deep.of_hides h hides⟩
  | _ => exact h

theorem compileWithin_grammar (hsheet : env.sheet.CutsColor → blame) (steps : Nat) :
    ∀ {node : Json} {context : Context}, Blames blame context → (cutsColor node → blame) →
      LacksAll env foreignTags context node →
      Judges (Excused env blame steps context node) (WellFormed env context node)
        (CellOf env context node) (compileWithin env steps node context) := by
  induction steps with
  | zero => exact fun _ _ _ => keeps_throw fun _ => trivial
  | succ steps ih =>
    intro node context hc hnode hplain
    refine judges_compileStep (fun _ hblame => hblame) hc hnode hsheet hplain.self ?_
    intro part hpart below hbelow hunseen
    have hcut : cutsColor part → blame := by
      intro hcut
      rcases hasOwnCutColor_of_mem_innerParts hpart hcut with hcut | hcut | hcut
      · exact hnode hcut
      · exact hc hcut
      · exact hsheet hcut
    have hpartPlain := hplain.part hpart hunseen.hides
    exact ((ih hbelow hcut hpartPlain).excuse fun e he =>
      he.of_inner hpart hunseen.hides).iff (wellFormed_unseen hunseen)

/-- Markup without pictures, drawings and references compiles only if it is well-formed, whatever
was compiled before. If it is, then it compiles, or a colour in the markup, its context or the
stylesheet cannot be read. -/
theorem compile_grammar (env : Env α) {node : Json} {context : Context}
    (hplain : LacksAll env foreignTags context node) (s : State α) :
    ((∃ n t, (compile env node context).run s = (.ok n, t)) → WellFormed env context node) ∧
      (WellFormed env context node →
        (∃ n t, (compile env node context).run s = (.ok n, t)) ∨
          HasOwnCutColor env context node ∧
            ∃ fault t, (compile env node context).run s = (.error (.color fault), t)) := by
  have hwithin : Judges (Excused env (HasOwnCutColor env context node) (stepBound env node context)
      context node) (WellFormed env context node) (CellOf env context node)
      (compile env node context) :=
    compileWithin_grammar (fun h => .inr (.inr h)) _ (fun h => .inr (.inl h)) .inl hplain
  have hjudges := (hwithin s trivial).2
  rcases hrun : (compile env node context).run s with ⟨r, t⟩
  rw [hrun] at hjudges
  cases r with
  | ok n => exact ⟨fun _ => hjudges.1, fun _ => .inl ⟨n, t, rfl⟩⟩
  | error e =>
    constructor
    · rintro ⟨n, t', hok⟩
      cases hok
    · intro hwell
      have hexcused := hjudges hwell
      right
      cases e with
      | color fault => exact ⟨hexcused, fault, t, rfl⟩
      | endless => exact absurd (endless_of_deep hexcused) hwell.groundedBelow.not_endless
      | _ => exact hexcused.elim

/-! ## Grids and colours -/

/-- A grid of two columns whose widths are its first child. -/
def twoColumns : Json :=
  .array [.string "grid-table",
    .array [.number (.whole 1), .number (.whole 2)], .array [.string "a", .string "b"]]

theorem compile_grammar_twoColumns : WellFormed bareEnv .empty twoColumns ∧
    ∃ n t, (compile bareEnv twoColumns .empty).run .initial = (.ok n, t) := by
  have hplain : LacksAll bareEnv foreignTags .empty twoColumns := by
    refine lacksAll_of_leaves (fun tag htag => ?_) (by decide)
    obtain rfl : Tag.gridTable = tag := Option.some.inj htag
    decide
  have hok : ∃ n t, (compile bareEnv twoColumns .empty).run .initial = (.ok n, t) := ⟨_, _, rfl⟩
  exact ⟨(compile_grammar bareEnv hplain .initial).1 hok, hok⟩

/-- A line in a colour of three bytes that are two characters. -/
def cutLine : Json := .array [.string "line", .object [("color", .string "#é1")]]

/-- A line is well-formed whatever its attributes are, but its colour may not be readable. -/
theorem compile_cutLine : LacksAll bareEnv foreignTags .empty cutLine ∧
    WellFormed bareEnv .empty cutLine ∧
      ¬∃ n t, (compile bareEnv cutLine .empty).run .initial = (.ok n, t) := by
  have hfails : ((compile bareEnv cutLine .empty).run .initial).1.isOk = false := by
    decide +kernel
  refine ⟨lacksAll_of_leaves (fun tag htag => ?_) nofun, .element rfl rfl trivial nofun, ?_⟩
  · obtain rfl : Tag.line = tag := Option.some.inj htag
    decide
  · rintro ⟨n, t, hok⟩
    rw [hok] at hfails
    cases hfails

end Folio.Compile
