import Folio.Proofs.Compile.Respelt
import Folio.Proofs.Compile.SideBySide

/-!
# The rules of elements and the spelling of markup

The rule of every tag goes the same way for two elements that differ in their spelling, in contexts
that do, as soon as compiling what they hand on does.
-/
namespace Folio.Compile

open Style Markup

variable {α β : Type} [Scalar α] {R : State α → State α → Prop} {env : Env α}
  {compile : Compiling α} {reference : Bool} {c d : Context} {e f : Element}

/-! ## What is handed on -/

/-- What is handed on of either element comes out alike where it differs in nothing but spelling. -/
def Paired (R : State α → State α → Prop) (compile : Compiling α)
    (handed handed' : List (Json × Context)) : Prop :=
  ∀ call ∈ handed, ∀ call' ∈ handed', Respelt .node call.1 call'.1 →
    ContextRespelt false call.2 call'.2 →
    Matches R (compile call.1 call.2) (compile call'.1 call'.2)

omit [Scalar α] in
theorem Paired.of_subset {handed handed' more more' : List (Json × Context)}
    (h : Paired R compile more more') (hsub : handed ⊆ more) (hsub' : handed' ⊆ more') :
    Paired R compile handed handed' :=
  fun call hcall call' hcall' => h call (hsub hcall) call' (hsub' hcall')

/-! ## Texts -/

theorem fontOf_eq (hc : ContextRespelt reference c d) :
    (fontOf c : CompileM α (Font α)) = fontOf d := by
  unfold fontOf
  rw [hc.font_eq]

omit [Scalar α] in
theorem colorOf?_eq (hc : ContextRespelt reference c d) {key : String} (hkey : key ∉ speltKeys) :
    (colorOf? c key : CompileM α _) = colorOf? d key := by
  unfold colorOf?
  rw [hc.color?_eq hkey]

theorem textRun_eq (hc : ContextRespelt reference c d) (text : String) :
    (textRun text c : CompileM α (TextRun α)) = textRun text d := by
  unfold textRun
  rw [fontOf_eq hc, colorOf?_eq hc (by decide)]

theorem textNode_eq (hc : ContextRespelt reference c d) (text : String) :
    (textNode text c : CompileM α (Node α)) = textNode text d := by
  unfold textNode
  rw [textRun_eq hc]

theorem matches_fontOf (hc : ContextRespelt reference c d) :
    Matches R (fontOf c : CompileM α (Font α)) (fontOf d) := matches_ofColor hc.font_eq

theorem matches_textNode (hc : ContextRespelt reference c d) (text : String) :
    Matches R (textNode text c : CompileM α (Node α)) (textNode text d) := by
  rw [textNode_eq hc]
  exact matches_of_related (related_textNode text d)

theorem matches_scriptRun (hc : ContextRespelt reference c d) (text : String) :
    Matches R (scriptRun text c : CompileM α (TextRun α)) (scriptRun text d) := by
  unfold scriptRun
  rw [textRun_eq hc]
  exact matches_of_related (related_bind (related_textRun text d) fun _ => related_pure _)

theorem leafTexts?_eq {xs ys : List Json} (h : List.Forall₂ (Respelt .node) xs ys) :
    leafTexts? xs = leafTexts? ys := by
  have hall : xs.mapM leafText? = ys.mapM leafText? := by
    induction h with
    | nil => rfl
    | cons hxy _ ih => rw [List.mapM_cons, List.mapM_cons, hxy.leafText?_eq, ih]
  unfold leafTexts?
  rw [hall]

omit [Scalar α] in
theorem matches_leafText (h : List.Forall₂ (Respelt .node) e.children f.children) :
    Matches R (leafText e : CompileM α String) (leafText f) := by
  unfold leafText
  rw [leafTexts?_eq h]
  split
  · exact matches_pure _
  · exact matches_invalid _ _ _

theorem matches_compileChunk (h : List.Forall₂ (Respelt .node) e.children f.children)
    (hc : ContextRespelt reference c d) :
    Matches R (compileChunk e c : CompileM α (Node α)) (compileChunk f d) := by
  unfold compileChunk
  rw [hc.flag_eq (by decide), hc.flag_eq (by decide)]
  refine (matches_leafText h).bind fun text => ?_
  split
  · exact (matches_scriptRun hc text).map _
  · split
    · exact (matches_scriptRun hc text).map _
    · exact matches_textNode hc text

theorem matches_compileSubscript (h : List.Forall₂ (Respelt .node) e.children f.children)
    (hc : ContextRespelt reference c d) :
    Matches R (compileSubscript e c : CompileM α (Node α)) (compileSubscript f d) :=
  (matches_leafText h).bind fun text => (matches_scriptRun hc text).map _

theorem matches_compileSuperscript (h : List.Forall₂ (Respelt .node) e.children f.children)
    (hc : ContextRespelt reference c d) :
    Matches R (compileSuperscript e c : CompileM α (Node α)) (compileSuperscript f d) :=
  (matches_leafText h).bind fun text => (matches_scriptRun hc text).map _

omit [Scalar α] in
theorem matches_compileNote (h : List.Forall₂ (Respelt .node) e.children f.children)
    (hc : ContextRespelt reference c d) :
    Matches R (compileNote e c : CompileM α (Node α)) (compileNote f d) := by
  unfold compileNote
  rw [hc.keyword?_eq (by decide)]
  exact (matches_leafText h).map _

/-! ## Children -/

omit [Scalar α] in
theorem matches_child {xs ys : List Json} (h : Paired R compile (below xs c) (below ys d))
    (hc : ContextRespelt reference c d) {x y : Json} (hx : x ∈ xs) (hy : y ∈ ys)
    (hxy : Respelt .node x y) :
    Matches R (compile x c.inheritable) (compile y d.inheritable) :=
  h (x, c.inheritable) (List.mem_map_of_mem hx) (y, d.inheritable) (List.mem_map_of_mem hy) hxy
    hc.inheritable

omit [Scalar α] in
theorem matches_compileChildren {xs ys : List Json} (hitems : List.Forall₂ (Respelt .node) xs ys)
    (hc : ContextRespelt reference c d) (h : Paired R compile (below xs c) (below ys d)) :
    Matches R (compileChildren compile xs c) (compileChildren compile ys d) :=
  matches_mapM hitems fun _ hx _ hy hxy => matches_child h hc hx hy hxy

theorem matches_compilePhrase (hitems : List.Forall₂ (Respelt .node) e.children f.children)
    (hc : ContextRespelt reference c d)
    (h : Paired R compile (below e.children (c.without ["align"]))
      (below f.children (d.without ["align"]))) :
    Matches R (compilePhrase compile e c) (compilePhrase compile f d) := by
  unfold compilePhrase
  rw [hc.scalar?_eq (by decide)]
  refine (matches_compileChildren hitems (hc.without ["align"]) h).bind fun children => ?_
  exact (matches_fontOf hc).map _

theorem blockStyle_eq (hc : ContextRespelt reference c d) (font : Font α) :
    blockStyle font c = blockStyle font d := by
  unfold blockStyle
  simp (disch := decide) only [hc.scalar?_eq, hc.keyword?_eq, hc.flag_eq]

theorem matches_compileParagraph (hitems : List.Forall₂ (Respelt .node) e.children f.children)
    (hc : ContextRespelt reference c d)
    (h : Paired R compile (below e.children (c.without ["align"]))
      (below f.children (d.without ["align"]))) :
    Matches R (compileParagraph compile e c) (compileParagraph compile f d) := by
  unfold compileParagraph
  simp only [blockStyle_eq hc]
  refine (matches_compileChildren hitems (hc.without ["align"]) h).bind fun children => ?_
  exact (matches_fontOf hc).map _

/-- Styles are laid over contexts in every spelling. -/
theorem ContextRespelt.styled (hc : ContextRespelt false c d) {c' d' : Context}
    (hplain : ContextRespelt false c' d') :
    ContextRespelt false
      (match c.fields? "style" with
        | some style => c'.merge style
        | none => c')
      (match d.fields? "style" with
        | some style => d'.merge style
        | none => d') := by
  have hstyle := hc.fields?_rel
  generalize c.fields? "style" = a at hstyle ⊢
  generalize d.fields? "style" = b at hstyle ⊢
  cases hstyle with
  | none => exact hplain
  | some hattrs => exact hplain.merge hattrs

theorem ContextRespelt.heading (hc : ContextRespelt false c d) :
    ContextRespelt false (headingContext c) (headingContext d) :=
  hc.styled (hc.merge (.same _ _))

theorem ContextRespelt.anchor (hc : ContextRespelt false c d) :
    ContextRespelt false (anchorContext c) (anchorContext d) := hc.styled hc

theorem matches_compileHeading (hitems : List.Forall₂ (Respelt .node) e.children f.children)
    (hc : ContextRespelt false c d)
    (h : Paired R compile (below e.children ((headingContext c).without ["align"]))
      (below f.children ((headingContext d).without ["align"]))) :
    Matches R (compileHeading compile e c) (compileHeading compile f d) := by
  unfold compileHeading
  simp only [blockStyle_eq hc]
  refine (matches_compileChildren hitems (hc.heading.without ["align"]) h).bind fun children => ?_
  exact (matches_fontOf hc.heading).map _

theorem listKind_eq (hc : ContextRespelt reference c d) : listKind c = listKind d := by
  unfold listKind
  simp (disch := decide) only [hc.flag_eq, hc.count?_eq, hc.keyword?_eq]

theorem matches_compileItem (font : Font α) (hc : ContextRespelt false c d) {x y : Json}
    (hxy : Respelt .node x y) (h : Matches R (compile x c) (compile y d)) :
    Matches R (compileItem compile font c x) (compileItem compile font d y) := by
  unfold compileItem
  rw [hxy.leafText?_eq]
  split
  · exact (matches_textNode hc _).map _
  · refine h.bind fun n => ?_
    split
    · exact matches_pure _
    · exact matches_pure _

theorem matches_compileList (hitems : List.Forall₂ (Respelt .node) e.children f.children)
    (hc : ContextRespelt reference c d)
    (h : Paired R compile (below e.children c) (below f.children d)) :
    Matches R (compileList compile e c) (compileList compile f d) := by
  unfold compileList
  rw [listKind_eq hc, hc.flag_eq (by decide), hc.scalar?_eq (by decide)]
  refine (matches_fontOf hc).bind fun font => ?_
  refine (matches_mapM hitems fun x hx y hy hxy => ?_).map _
  exact matches_compileItem font hc.inheritable hxy (matches_child h hc hx hy hxy)

theorem matches_anchorBody (hitems : List.Forall₂ (Respelt .node) e.children f.children)
    (hc : ContextRespelt reference c d)
    (h : Paired R compile (below e.children c) (below f.children d)) :
    Matches R (anchorBody compile e c) (anchorBody compile f d) := by
  refine (matches_compileChildren hitems hc h).bind fun children => ?_
  split
  · exact matches_pure _
  · exact (matches_fontOf hc).map _

theorem matches_anchorShape (hc : ContextRespelt false c d) :
    Matches R (anchorShape c : CompileM α (AnchorShape α)) (anchorShape d) := by
  have hstyle := hc.fields?_rel
  unfold anchorShape
  rw [hc.scalar?_eq (by decide)]
  generalize c.fields? "style" = a at hstyle ⊢
  generalize d.fields? "style" = b at hstyle ⊢
  cases hstyle with
  | none =>
    cases (d.scalar? "leading" : Option α) with
    | none => exact matches_pure _
    | some leading => exact matches_pure _
  | some hattrs =>
    cases (d.scalar? "leading" : Option α) with
    | none => exact (matches_fontOf (hc.merge hattrs)).map _
    | some leading => exact (matches_fontOf (hc.merge hattrs)).map _

theorem matches_compileAnchor (hitems : List.Forall₂ (Respelt .node) e.children f.children)
    (hc : ContextRespelt false c d)
    (h : Paired R compile (below e.children (anchorContext c))
      (below f.children (anchorContext d))) :
    Matches R (compileAnchor compile e c) (compileAnchor compile f d) := by
  unfold compileAnchor
  rw [hc.keyword?_id, hc.text?_eq (by decide)]
  refine (matches_anchorShape hc).bind fun shape => ?_
  exact (matches_anchorBody hitems hc.anchor h).map _

/-! ## Titles -/

omit [Scalar α] in
theorem matches_compileTitled (htoken : e.token = f.token)
    (hitems : List.Forall₂ (Respelt .node) e.children f.children)
    (hc : ContextRespelt reference c d)
    (h : Paired R compile (below e.children c) (below f.children d)) :
    Matches R (compileTitled compile e c) (compileTitled compile f d) := by
  unfold compileTitled
  rw [htoken]
  generalize e.children = xs at hitems h ⊢
  generalize f.children = ys at hitems h ⊢
  cases hitems with
  | nil => exact matches_invalid _ _ _
  | @cons x y xs ys hxy hrest =>
    refine (matches_child h hc List.mem_cons_self List.mem_cons_self hxy).bind fun title => ?_
    refine (matches_compileChildren hrest hc (h.of_subset ?_ ?_)).map _
    · exact List.subset_cons_self _ _
    · exact List.subset_cons_self _ _

end Folio.Compile
