import Folio.Proofs.Compile.RespeltTables
import Folio.Proofs.Compile.Transparent

/-!
# Whole nodes and the spelling of markup

A node compiles to the same whether its tags, classes, keys and ids are spelt with a colon or not,
or fails with the same error. What is drawn is stored under its markup as it is written, so this
needs that the table of content takes no two of the keys for each other.
-/
namespace Folio.Compile

open Style Markup Relation

variable {α β : Type} [Scalar α] {R : State α → State α → Prop} {env : Env α}
  {compile : Compiling α} {reference : Bool} {c d : Context} {e f : Element}

/-! ## Pictures and drawings -/

omit [Scalar α] in
theorem matches_imageSource (hchildren : e.children = f.children)
    (hc : ContextRespelt reference c d) :
    Matches R (imageSource env e c) (imageSource env f d) := by
  unfold imageSource
  rw [hchildren, hc.keyword?_eq (by decide), hc.flag_eq (by decide)]
  split
  · split
    · exact matches_pure _
    · exact matches_throw rfl
  · split
    · split
      · split
        · exact matches_pure _
        · exact matches_throw rfl
      · split
        · exact matches_pure _
        · exact matches_throw rfl
    · split
      · exact matches_pure _
      · exact matches_throw rfl
    · exact matches_throw rfl

theorem drawnSize_eq (hc : ContextRespelt reference c d) (pixels : Nat × Nat) :
    (drawnSize pixels c : α × α) = drawnSize pixels d := by
  unfold drawnSize scaled contentArea
  simp (disch := decide) only [hc.scalar?_eq]

theorem matches_readImage (hchildren : e.children = f.children)
    (hc : ContextRespelt reference c d) :
    Matches R (readImage env e c) (readImage env f d) := by
  refine (matches_imageSource hchildren hc).bind fun source => ?_
  obtain ⟨data, origin⟩ := source
  simp only [drawnSize_eq hc, hc.keyword?_eq (show "align" ∉ speltKeys by decide)]
  split
  · exact matches_throw rfl
  · split
    · exact matches_throw rfl
    · exact matches_pure _

/-- Renderers take contexts that differ only in the spelling of what they show for the same. -/
def RenderersRespelt (env : Env α) : Prop :=
  ∀ kind renderer, env.renderers kind = some renderer → ∀ children c d,
    ContextRespelt false c d → renderer children c = renderer children d

omit [Scalar α] in
theorem matches_render (hrenderers : RenderersRespelt env) (kind : RendererKind)
    (hchildren : e.children = f.children) (hc : ContextRespelt false c d)
    (hcount : ∀ s t, R s t →
      R { s with renders := s.renders + 1 } { t with renders := t.renders + 1 }) :
    Matches R (render env kind e c) (render env kind f d) := by
  unfold render
  split
  · exact matches_throw rfl
  · next renderer hrenderer =>
    refine (matches_of_related (related_modify hcount)).bind fun _ => ?_
    rw [hchildren, hrenderers kind renderer hrenderer f.children c d hc]
    split
    · exact matches_pure _
    · exact matches_throw rfl

omit [Scalar α] in
theorem eq_of_fixed {xs ys : List Json} (h : List.Forall₂ (Respelt .fixed) xs ys) : xs = ys := by
  induction h with
  | nil => rfl
  | cons hxy _ ih => rw [hxy.fixed_eq, ih]

/-- What would be computed for two spellings of a picture or a drawing. -/
theorem sameAnswer_of_drawing? (hrenderers : RenderersRespelt env) {tag : Tag}
    (h : ElementRespelt tag e f) (hc : ContextRespelt (tag == .reference) c d)
    {act act' : CompileM α (Node α)} (hact : drawing? env e c tag = some act)
    (hact' : drawing? env f d tag = some act') :
    SameAnswer (act.run .initial).1 (act'.run .initial).1 := by
  have hchildren (hfixed : childPlace (some tag) = .fixed) : e.children = f.children :=
    eq_of_fixed (hfixed ▸ h.children)
  cases tag with
  | image =>
    obtain rfl := Option.some.inj hact
    obtain rfl := Option.some.inj hact'
    exact (matches_readImage (R := fun _ _ => True) (hchildren rfl) hc _ _ trivial).1
  | chart | svg | graphics =>
    obtain rfl := Option.some.inj hact
    obtain rfl := Option.some.inj hact'
    exact (matches_render (R := fun _ _ => True) hrenderers _ (hchildren rfl) hc
      (fun _ _ _ => trivial) _ _ trivial).1
  | _ => cases hact

/-! ## References -/

omit [Scalar α] in
theorem referenceId?_eq (hitems : List.Forall₂ (Respelt .id) e.children f.children)
    (hc : ContextRespelt reference c d) : referenceId? e c = referenceId? f d := by
  have htext : Option.Rel (fun s t => stripKeyword s = stripKeyword t)
      e.textChild? f.textChild? := by
    unfold Element.textChild?
    generalize e.children = xs at hitems ⊢
    generalize f.children = ys at hitems ⊢
    cases hitems with
    | nil => exact .none
    | cons hxy hrest =>
      cases hrest with
      | cons =>
        split
        · next heq => exact absurd (List.cons.inj heq).2 (List.cons_ne_nil _ _)
        · split
          · next heq => exact absurd (List.cons.inj heq).2 (List.cons_ne_nil _ _)
          · exact .none
      | nil =>
        cases hxy with
        | same =>
          exact rel_refl (Q := fun s t => stripKeyword s = stripKeyword t) (fun _ => rfl) _
        | id hspelt => exact .some hspelt.stripKeyword_eq.symm
  unfold referenceId?
  rw [hc.keyword?_id]
  generalize e.textChild? = a at htext ⊢
  generalize f.textChild? = b at htext ⊢
  cases htext with
  | none => rfl
  | some hsame => exact congrArg some hsame

theorem matches_compileReference {K : Json × Context → Prop}
    (hitems : List.Forall₂ (Respelt .id) e.children f.children) (hc : ContextRespelt reference c d)
    (h : Paired (Parallel env K) compile
      (below ((elementParts? env .reference e c).getD []) c)
      (below ((elementParts? env .reference f d).getD []) d)) :
    Matches (Parallel env K) (compileReference env compile e c)
      (compileReference env compile f d) := by
  have hid := referenceId?_eq hitems hc
  unfold elementParts? at h
  unfold compileReference
  rw [← hid] at h ⊢
  cases hname : referenceId? e c with
  | none => exact matches_invalid _ _ _
  | some id =>
    refine (matches_memo_reference id ?_).map _
    rw [hname] at h
    cases htarget : Fields.get? id env.references with
    | none => exact matches_throw rfl
    | some raw =>
      simp only [Option.bind_some, htarget, Option.map_some, Option.getD_some] at h
      refine matches_resolving id ?_
      exact matches_child h hc List.mem_cons_self List.mem_cons_self (.same _ _)

/-! ## Chapters and sections -/

section

variable {K : Json × Context → Prop}

theorem matches_compileChapter (htoken : e.token = f.token)
    (hitems : List.Forall₂ (Respelt .node) e.children f.children)
    (hc : ContextRespelt reference c d)
    (h : Paired (Parallel env K) compile (below e.children c) (below f.children d)) :
    Matches (Parallel env K) (compileChapter compile e c) (compileChapter compile f d) :=
  matches_nextChapter.bind fun number =>
    (matches_withinFrame [number] (matches_compileTitled htoken hitems hc h)).map _

theorem matches_compileSection (htoken : e.token = f.token)
    (hitems : List.Forall₂ (Respelt .node) e.children f.children)
    (hc : ContextRespelt reference c d)
    (h : Paired (Parallel env K) compile (below e.children c) (below f.children d)) :
    Matches (Parallel env K) (compileSection compile e c) (compileSection compile f d) := by
  have htitled := matches_compileTitled htoken hitems hc h
  unfold compileSection
  rw [hc.scalar?_eq (by decide)]
  refine matches_nextSection.bind fun number => ?_
  split
  · exact htitled.map _
  · exact (matches_withinFrame number htitled).map _

/-! ## One step -/

theorem matches_spacerNode (hitems : List.Forall₂ (Respelt .node) e.children f.children)
    (hc : ContextRespelt reference c d) :
    Matches R (spacerNode e c : CompileM α (Node α)) (spacerNode f d) := by
  have hlines : e.children.head?.bind Json.asCount? = f.children.head?.bind Json.asCount? := by
    generalize e.children = xs at hitems ⊢
    generalize f.children = ys at hitems ⊢
    cases hitems with
    | nil => rfl
    | cons hxy _ => cases hxy <;> rfl
  unfold spacerNode
  rw [hlines, hc.scalar?_eq (by decide), fontOf_eq hc]
  exact matches_of_handsOn (handsOn_spacerNode f d)

theorem matches_ruleNode (hc : ContextRespelt reference c d) :
    Matches R (ruleNode c : CompileM α (Node α)) (ruleNode d) := by
  unfold ruleNode
  simp (disch := decide) only [hc.flag_eq, hc.scalar?_eq, colorOf?_eq hc]
  exact matches_of_related (related_bind (related_ofColor _) fun _ => related_pure _)

theorem matches_rectangleNode (hc : ContextRespelt reference c d) :
    Matches R (rectangleNode c : CompileM α (Node α)) (rectangleNode d) := by
  have hfirst : (firstColor? c "background" "color" : CompileM α _) =
      firstColor? d "background" "color" := by
    unfold firstColor?
    simp (disch := decide) only [colorOf?_eq hc]
  unfold rectangleNode
  simp (disch := decide) only [hfirst, hc.scalar?_eq, colorOf?_eq hc]
  exact matches_of_related (related_bind (related_firstColor? _ _ _) fun _ =>
    related_bind (related_ofColor _) fun _ => related_pure _)

theorem matches_compileTag {tag : Tag} (h : ElementRespelt tag e f)
    (hc : ContextRespelt (tag == .reference) c d)
    (hcalls : Paired (Parallel env K) compile (calls env tag e c) (calls env tag f d))
    (hmemo : ∀ act act', drawing? env e c tag = some act → drawing? env f d tag = some act' →
      Matches (Parallel env K) (memo (.ofNode e.raw c) act) (memo (.ofNode f.raw d) act')) :
    Matches (Parallel env K) (compileTag env compile tag e c)
      (compileTag env compile tag f d) := by
  cases tag with
  | chunk => exact matches_compileChunk h.children hc
  | heading => exact matches_compileHeading h.children hc hcalls
  | paragraph => exact matches_compileParagraph h.children hc hcalls
  | phrase => exact matches_compilePhrase h.children hc hcalls
  | subscript => exact matches_compileSubscript h.children hc
  | superscript => exact matches_compileSuperscript h.children hc
  | list => exact matches_compileList h.children hc hcalls
  | table => exact matches_compileTable h.token h.children hc hcalls
  | gridTable => exact matches_compileGridTable h.token h.children hc hcalls
  | cell => exact (matches_compileCell false h.children hc hcalls).map _
  | gridCell => exact (matches_compileCell true h.children hc hcalls).map _
  | image | chart | svg | graphics => exact hmemo _ _ rfl rfl
  | anchor => exact matches_compileAnchor h.children hc hcalls
  | note => exact matches_compileNote h.children hc
  | chapter => exact matches_compileChapter h.token h.children hc hcalls
  | subsection => exact matches_compileSection h.token h.children hc hcalls
  | line => exact matches_ruleNode hc
  | spacer => exact matches_spacerNode h.children hc
  | rectangle => exact matches_rectangleNode hc
  | reference => exact matches_compileReference h.children hc hcalls
  | pageBreak | clearDoublePage => exact matches_invalid _ _ _

end

section

variable {K : Json × Context → Prop}

/-- Two spellings of one element compile alike. What is drawn is compared under the keys that are
asked for, which stand under the nodes as they are written. -/
theorem matches_compileElement (hrenderers : RenderersRespelt env) (hkeys : Unconfused K)
    {node node' : Json} {tag : Tag} (hparse : Element.parse node = .ok e)
    (hparse' : Element.parse node' = .ok f) (left : e.tag? = some tag) (right : f.tag? = some tag)
    (helement : ElementRespelt tag e f) (hc : ContextRespelt false c d)
    (h : Paired (Parallel env K) compile (nodeCalls env (node, c)) (nodeCalls env (node', d)))
    (hasked : ∀ key, askedKey? env (node, c) = some key → K key)
    (hasked' : ∀ key, askedKey? env (node', d) = some key → K key) :
    Matches (Parallel env K)
      (compileTag env compile tag e (resolve c env.sheet e.token.classes e.attrs))
      (compileTag env compile tag f (resolve d env.sheet f.token.classes f.attrs)) := by
  rw [nodeCalls_of_parse hparse left, nodeCalls_of_parse hparse' right] at h
  have hresolved := hc.resolve env.sheet e.token.classes helement.attrs
  rw [helement.token] at hresolved h ⊢
  refine matches_compileTag helement hresolved h fun act act' hact hact' => ?_
  have hsame := sameAnswer_of_drawing? hrenderers helement hresolved hact hact'
  rw [← helement.token] at hact
  have hkey := hasked _ (askedKey?_of_parse hparse left hact)
  have hkey' := hasked' _ (askedKey?_of_parse hparse' right hact')
  have hguarded := (guarded?_of_parse hparse left _).trans hact
  have hguarded' := (guarded?_of_parse hparse' right _).trans hact'
  rw [helement.token] at hkey hguarded
  have hmemo := matches_memo_drawing hkeys hkey hkey' hguarded hguarded' hsame
  rwa [raw_of_parse hparse, raw_of_parse hparse']

theorem matches_compileStep (hrenderers : RenderersRespelt env) (hkeys : Unconfused K)
    {call call' : Json × Context} (hnode : Respelt .node call.1 call'.1)
    (hc : ContextRespelt false call.2 call'.2)
    (h : Paired (Parallel env K) compile (nodeCalls env call) (nodeCalls env call'))
    (hasked : ∀ key, askedKey? env call = some key → K key)
    (hasked' : ∀ key, askedKey? env call' = some key → K key) :
    Matches (Parallel env K) (compileStep env compile call.1 call.2)
      (compileStep env compile call'.1 call'.2) := by
  obtain ⟨node, context⟩ := call
  obtain ⟨node', context'⟩ := call'
  have hread := hnode.readAlike
  unfold compileStep
  simp only [← hnode.leafText?_eq]
  cases leafText? node with
  | some text => exact matches_textNode hc text
  | none =>
    simp only
    rcases hparse : Element.parse node with fault | e <;>
      rcases hparse' : Element.parse node' with fault' | f <;> rw [hparse, hparse'] at hread
    · cases hread
      exact matches_invalid _ _ _
    · cases hread
    · cases hread
    · cases hread with
      | unknown left right =>
        simp only [left, right]
        exact matches_throw rfl
      | known left right helement =>
        simp only [left, right]
        exact matches_compileElement hrenderers hkeys hparse hparse' left right helement hc h
          hasked hasked'

/-- All that is asked for below a call is one of the keys. -/
def AsksWithin (env : Env α) (K : Json × Context → Prop) (call : Json × Context) : Prop :=
  ∀ other key, Calls env call other → askedKey? env other = some key → K key

omit [Scalar α] in
theorem AsksWithin.handed [Scalar α] {call other : Json × Context} (h : AsksWithin env K call)
    (hother : other ∈ nodeCalls env call) : AsksWithin env K other :=
  fun next key hnext hkey => h next key (.head hother hnext) hkey

theorem matches_compileWithin (hrenderers : RenderersRespelt env) (hkeys : Unconfused K)
    (steps : Nat) : ∀ call call' : Json × Context, Respelt .node call.1 call'.1 →
      ContextRespelt false call.2 call'.2 → AsksWithin env K call → AsksWithin env K call' →
        Matches (Parallel env K) (compileWithin env steps call.1 call.2)
          (compileWithin env steps call'.1 call'.2) := by
  -- the calls below need one step less, and what they ask for is asked for below the node
  induction steps with
  | zero => exact fun _ _ _ _ _ _ => matches_throw rfl
  | succ steps ih =>
    intro call call' hnode hc hasks hasks'
    refine matches_compileStep hrenderers hkeys hnode hc ?_ (fun key => hasks call key .refl)
      fun key => hasks' call' key .refl
    intro other hother other' hother' hsame hcontexts
    exact ih _ _ hsame hcontexts (hasks.handed hother) (hasks'.handed hother')

/-- One node in two spellings compiles within as many steps. -/
theorem matches_compile (hrenderers : RenderersRespelt env) (hkeys : Unconfused K)
    {node node' : Json} (hnode : Respelt .node node node') {context : Context}
    (hasks : AsksWithin env K (node, context)) (hasks' : AsksWithin env K (node', context)) :
    Matches (Parallel env K) (Compile.compile env node context)
      (Compile.compile env node' context) := by
  have hbound : stepBound env node context = stepBound env node' context := by
    unfold stepBound reachableDepth
    rw [hnode.depth_eq]
  unfold Compile.compile
  rw [hbound]
  exact matches_compileWithin hrenderers hkeys _ (node, context) (node', context) hnode
    (.refl context) hasks hasks'

end

/-! ## Whole nodes -/

/-- A compiler that has compiled any nodes compiles a node in every spelling to the same, or fails
with the same error but for the markup that it quotes, as long as renderers do not look at the
spelling and no two of the keys asked for have one digest and differ only in the signs of zeros. -/
theorem compile_respelt (env : Env α) (hrenderers : RenderersRespelt env) {node node' : Json}
    (hnode : Respelt .node node node') (context : Context) (earlier : List (Json × Context))
    (hkeys : Unconfused (Asked env (earlier ++ [(node, context), (node', context)]))) :
    SameAnswer ((Compile.compile env node context).run (afterCompiling env earlier)).1
      ((Compile.compile env node' context).run (afterCompiling env earlier)).1 := by
  have hasks {call : Json × Context}
      (hcall : call ∈ earlier ++ [(node, context), (node', context)]) :
      AsksWithin env (Asked env (earlier ++ [(node, context), (node', context)])) call :=
    fun other key hother hkey => ⟨call, hcall, other, hother, hkey⟩
  have hearlier : FaithfulDrawings env
      (Asked env (earlier ++ [(node, context), (node', context)]))
      (afterCompiling env earlier) := by
    refine afterCompiling_induction nofun fun call hcall s hs => ?_
    have hsame := matches_compile hrenderers hkeys (.same _ call.1)
      (hasks (List.mem_append_left _ hcall)) (hasks (List.mem_append_left _ hcall))
    exact (hsame s s ⟨.refl s, hs, hs⟩).2.left
  have hsame := matches_compile hrenderers hkeys hnode
    (hasks (List.mem_append_right _ List.mem_cons_self))
    (hasks (List.mem_append_right _ (List.mem_cons_of_mem _ List.mem_cons_self)))
  exact (hsame _ _ ⟨.refl _, hearlier, hearlier⟩).1

/-! ## Charts -/

/-- Widths are shown as they are. -/
theorem renderersRespelt_chartEnv : RenderersRespelt chartEnv := by
  intro kind renderer hrenderer children c d hc
  obtain rfl := Option.some.inj hrenderer
  unfold bitsRenderer
  rw [hc.get?_eq (by decide)]

def keywordChartOf (width : Number) (values : List Number) : Json :=
  .array (.string ":chart" :: .object [(":width", .number width)] :: values.map .number)

theorem respelt_keywordChartOf (width : Number) (values : List Number) :
    Respelt .node (chartOf width values) (keywordChartOf width values) := by
  have hwidth : Spelt "width" ":width" := by decide
  have hkeys : SameKeys [("width", Json.number width)] [(":width", Json.number width)] := {
    left := List.nodup_singleton _
    right := List.nodup_singleton _
    forth := List.forall_mem_singleton.mpr ⟨_, List.mem_cons_self, hwidth⟩
    back := List.forall_mem_singleton.mpr ⟨_, List.mem_cons_self, hwidth⟩ }
  refine .elementWith ?_ (.attrs hkeys ?_) rfl fun x y hxy => .of_zip_self hxy
  · exact .cons (show Spelt "chart" ":chart" by decide) .nil
  · simp only [List.forall_mem_singleton]
    exact fun _ => .same _ _

/-- The whole chart in keyword spelling. -/
def keywordChart : Json := keywordChartOf (.whole 3) [.whole 1, .whole 2]

theorem unconfused_wholeChart :
    Unconfused (Asked chartEnv [(wholeChart.1, .empty), (keywordChart, .empty)]) := by
  have hasked {key : Json × Context}
      (h : Asked chartEnv [(wholeChart.1, .empty), (keywordChart, .empty)] key) :
      askedKey? chartEnv (wholeChart.1, .empty) = some key ∨
        askedKey? chartEnv (keywordChart, .empty) = some key := by
    obtain ⟨node, hnode, call, hcall, hkey⟩ := h
    rcases List.mem_cons.mp hnode with rfl | hnode
    · exact .inl (eq_of_calls hcall rfl ▸ hkey)
    · obtain rfl := List.mem_singleton.mp hnode
      exact .inr (eq_of_calls hcall rfl ▸ hkey)
  have hapart : wholeChart.1.unsignZeros ≠ keywordChart.unsignZeros := by
    simp [wholeChart, keywordChart, chartOf, keywordChartOf, Json.unsignZeros, Json.unsignItems]
  intro k l hk hl hsame
  rcases hasked hk with hk | hk <;> rcases hasked hl with hl | hl <;>
    obtain rfl := Option.some.inj hk <;> obtain rfl := Option.some.inj hl
  · rfl
  · exact absurd hsame.2.1 hapart
  · exact absurd hsame.2.1.symm hapart
  · rfl

theorem compile_respelt_wholeChart :
    Respelt .node wholeChart.1 keywordChart ∧
      SameAnswer ((Compile.compile chartEnv wholeChart.1 .empty).run .initial).1
        ((Compile.compile chartEnv keywordChart .empty).run .initial).1 := by
  have hnode : Respelt .node wholeChart.1 keywordChart := respelt_keywordChartOf _ _
  exact ⟨hnode, compile_respelt chartEnv renderersRespelt_chartEnv hnode .empty []
    unconfused_wholeChart⟩

/-- Two charts of zeros in a phrase. -/
def zeroPhrase : Json := .array [.string "phrase", upperChart.1, lowerChart.1]

/-- The same phrase with the first of the charts in keyword spelling. -/
def keywordZeroPhrase : Json :=
  .array [.string "phrase", keywordChartOf (zeroOf 0x5AA42E8441531AA6 0)
    ((List.range' 1 63).map (zeroOf 0x5AA42E8441531AA6)), lowerChart.1]

theorem respelt_zeroPhrase : Respelt .node zeroPhrase keywordZeroPhrase := by
  refine .element (.refl "phrase") rfl fun x y hxy => ?_
  rcases List.mem_cons.mp hxy with heq | hxy
  · cases heq
    exact respelt_keywordChartOf _ _
  · exact .of_zip_self hxy

def drawnInPhrase : Except CompileError (Node Single) → List (Option (List UInt8))
  | .ok (.phrase _ nodes) => nodes.map fun n => drawnBytes (.ok n)
  | _ => []

theorem SameAnswer.drawnInPhrase_eq {r r' : Except CompileError (Node Single)}
    (h : SameAnswer r r') : drawnInPhrase r = drawnInPhrase r' := by
  cases h with
  | ok n => rfl
  | error => rfl

/-- As the first chart is spelt otherwise it is no longer taken for the second, which is now drawn
by itself. -/
theorem compile_respelt_zeroCharts :
    Respelt .node zeroPhrase keywordZeroPhrase ∧ RenderersRespelt chartEnv ∧
      ¬ SameAnswer ((Compile.compile chartEnv zeroPhrase .empty).run .initial).1
        ((Compile.compile chartEnv keywordZeroPhrase .empty).run .initial).1 := by
  refine ⟨respelt_zeroPhrase, renderersRespelt_chartEnv, fun hsame => ?_⟩
  have hplain : drawnInPhrase ((Compile.compile chartEnv zeroPhrase .empty).run .initial).1 =
      [some [0, 0, 0, 0, 0, 0, 0, 0], some [0, 0, 0, 0, 0, 0, 0, 0]] := by
    decide +kernel
  have hkeyword : drawnInPhrase
      ((Compile.compile chartEnv keywordZeroPhrase .empty).run .initial).1 =
      [some [0, 0, 0, 0, 0, 0, 0, 0], some [0, 0, 0, 0, 0, 0, 0, 0x80]] := by
    decide +kernel
  have hdrawn := hsame.drawnInPhrase_eq
  rw [hplain, hkeyword] at hdrawn
  exact absurd hdrawn (by decide)

end Folio.Compile
