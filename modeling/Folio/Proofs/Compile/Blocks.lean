import Folio.Proofs.Compile.Keepable

/-!
# Text, blocks and chapters

Elements whose parts are their children, one lemma for each rule: if compiling the children keeps
what is to be kept, compiling the element does, and its text is put together from texts of the
children.
-/
namespace Folio.Compile

open Style Markup

variable {α : Type} [Scalar α] {G : Json → String → Prop} {blame : Prop} {I : State α → Prop}
  {E : CompileError → Prop} {env : Env α} {compile : Compiling α}

/-! ## Text -/

omit [Scalar α] in
theorem built_of_leafTexts? (keeps : Keepable blame I E G) {children : List Json} {text : String}
    (h : leafTexts? children = some text) : Built G children text := by
  induction children generalizing text with
  | nil =>
    have hempty : "" = text := Option.some.inj h
    rw [← hempty]
    exact .nil
  | cons child children ih =>
    unfold leafTexts? at h
    rw [List.mapM_cons] at h
    cases hchild : leafText? child with
    | none => simp [hchild] at h
    | some first =>
      cases hrest : children.mapM leafText? with
      | none => simp [hchild, hrest] at h
      | some texts =>
        have htext : first ++ String.join texts = text := by simpa [hchild, hrest] using h
        rw [← htext]
        refine .cons (keeps.leaf hchild) (ih ?_)
        simp [leafTexts?, hrest]

omit [Scalar α] in
theorem keeps_leafText (keeps : Keepable blame I E G) (e : Element) :
    Keeps I E (Built G e.children) (leafText e) := by
  unfold leafText
  split
  · next text h => exact keeps_pure (built_of_leafTexts? keeps h)
  · exact keeps_invalid keeps

theorem keeps_compileChunk (keeps : Keepable blame I E G) {context : Context}
    (hc : Blames blame context) (e : Element) :
    Keeps I E (fun n => Built G e.children n.textContent) (compileChunk e context) := by
  refine (keeps_leafText keeps e).bind fun text htext => ?_
  split
  · refine (keeps_scriptRun keeps hc text).map fun run hrun => ?_
    simpa only [Node.textContent, hrun] using htext
  · split
    · refine (keeps_scriptRun keeps hc text).map fun run hrun => ?_
      simpa only [Node.textContent, hrun] using htext
    · refine (keeps_textNode keeps hc text).weaken fun n hn => ?_
      rw [hn]
      exact htext

theorem keeps_compileSubscript (keeps : Keepable blame I E G) {context : Context}
    (hc : Blames blame context) (e : Element) :
    Keeps I E (fun n => Built G e.children n.textContent) (compileSubscript e context) := by
  refine (keeps_leafText keeps e).bind fun text htext => ?_
  refine (keeps_scriptRun keeps hc text).map fun run hrun => ?_
  simpa only [Node.textContent, hrun] using htext

theorem keeps_compileSuperscript (keeps : Keepable blame I E G) {context : Context}
    (hc : Blames blame context) (e : Element) :
    Keeps I E (fun n => Built G e.children n.textContent) (compileSuperscript e context) := by
  refine (keeps_leafText keeps e).bind fun text htext => ?_
  refine (keeps_scriptRun keeps hc text).map fun run hrun => ?_
  simpa only [Node.textContent, hrun] using htext

omit [Scalar α] in
theorem keeps_compileNote (keeps : Keepable blame I E G) (e : Element) (context : Context) :
    Keeps I E (fun n => Built G e.children n.textContent)
      (compileNote e context : CompileM α (Node α)) := by
  refine (keeps_leafText keeps e).map fun text htext => ?_
  simpa only [Node.textContent] using htext

/-! ## Children -/

omit [Scalar α] in
theorem keeps_compileChildren {children : List Json} (h : Handles env blame I E G compile children)
    {context : Context} (hc : Blames blame context) :
    Keeps I E (fun ns => Built G children (Node.textOfNodes ns))
      (compileChildren compile children context) := by
  have hmap := keeps_mapM (I := I) (E := E) fun child hchild => h.inheritable hchild hc
  exact hmap.weaken fun ns hns => built_nodes hns

theorem keeps_compilePhrase (keeps : Keepable blame I E G) {e : Element}
    (h : Handles env blame I E G compile e.children) {context : Context}
    (hc : Blames blame context) :
    Keeps I E (fun n => Built G e.children n.textContent) (compilePhrase compile e context) := by
  refine (keeps_compileChildren h (hc.without _)).bind fun ns hns => ?_
  refine (keeps_fontOf keeps hc).map fun font _ => ?_
  simpa only [Node.textContent] using hns

theorem keeps_compileParagraph (keeps : Keepable blame I E G) {e : Element}
    (h : Handles env blame I E G compile e.children) {context : Context}
    (hc : Blames blame context) :
    Keeps I E (fun n => Built G e.children n.textContent) (compileParagraph compile e context) := by
  refine (keeps_compileChildren h (hc.without _)).bind fun ns hns => ?_
  refine (keeps_fontOf keeps hc).map fun font _ => ?_
  simpa only [Node.textContent] using hns

/-- The defaults of a heading are readable. -/
theorem blames_headingContext {context : Context} (hc : Blames blame context) :
    Blames blame (headingContext context) := by
  have hdefaults : Blames blame (context.merge headingDefaults) := by
    refine hc.merge fun h => ?_
    have hbold : Color.ofHex "bold" = .ok none := by decide
    simp [headingDefaults, cutsColorFields, cutsColor, Json.ofNat, hbold] at h
  unfold headingContext
  simp only
  split
  · next style hstyle => exact hdefaults.merge (hc.fields? hstyle)
  · exact hdefaults

theorem keeps_compileHeading (keeps : Keepable blame I E G) {e : Element}
    (h : Handles env blame I E G compile e.children) {context : Context}
    (hc : Blames blame context) :
    Keeps I E (fun n => Built G e.children n.textContent) (compileHeading compile e context) := by
  have hstyled := blames_headingContext hc
  refine (keeps_compileChildren h (hstyled.without _)).bind fun ns hns => ?_
  refine (keeps_fontOf keeps hstyled).map fun font _ => ?_
  simpa only [Node.textContent] using hns

theorem keeps_compileItem (keeps : Keepable blame I E G) {children : List Json}
    (h : Handles env blame I E G compile children) (font : Font α) {context : Context}
    (hc : Blames blame context) {child : Json} (hchild : child ∈ children) :
    Keeps I E (fun i => G child (Node.textOfItem i))
      (compileItem compile font context.inheritable child) := by
  unfold compileItem
  split
  · next text hleaf =>
    refine (keeps_textNode keeps hc.inheritable text).map fun n hn => ?_
    simpa only [Node.textOfItem, hn] using keeps.leaf hleaf
  · refine (h.inheritable hchild hc).bind fun n hn => ?_
    split
    · exact keeps_pure (by simpa only [Node.textOfItem] using hn)
    · refine keeps_pure ?_
      simpa [Node.textOfItem, Node.textContent] using hn

theorem keeps_compileList (keeps : Keepable blame I E G) {e : Element}
    (h : Handles env blame I E G compile e.children) {context : Context}
    (hc : Blames blame context) :
    Keeps I E (fun n => Built G e.children n.textContent) (compileList compile e context) := by
  refine (keeps_fontOf keeps hc).bind fun font _ => ?_
  have hitems := keeps_mapM (I := I) (E := E) fun child hchild =>
    keeps_compileItem keeps h font hc hchild
  refine hitems.map fun items hitems => ?_
  simpa only [Node.textContent] using built_items hitems

theorem keeps_anchorShape (keeps : Keepable blame I E G) {context : Context}
    (hc : Blames blame context) : Keeps I E (fun _ => True) (anchorShape context) := by
  unfold anchorShape
  split
  · next style leading hstyle _ =>
    exact (keeps_fontOf keeps (hc.merge (hc.fields? hstyle))).map fun _ _ => trivial
  · exact keeps_pure trivial
  · next style hstyle _ =>
    exact (keeps_fontOf keeps (hc.merge (hc.fields? hstyle))).map fun _ _ => trivial
  · exact keeps_pure trivial

theorem keeps_anchorBody (keeps : Keepable blame I E G) {e : Element}
    (h : Handles env blame I E G compile e.children) {context : Context}
    (hc : Blames blame context) :
    Keeps I E (fun n => Built G e.children n.textContent) (anchorBody compile e context) := by
  refine (keeps_compileChildren h hc).bind fun ns hns => ?_
  split
  · exact keeps_pure (by simpa using hns)
  · refine (keeps_fontOf keeps hc).map fun font _ => ?_
    simpa only [Node.textContent] using hns

theorem keeps_compileAnchor (keeps : Keepable blame I E G) {e : Element}
    (h : Handles env blame I E G compile e.children) {context : Context}
    (hc : Blames blame context) :
    Keeps I E (fun n => Built G e.children n.textContent) (compileAnchor compile e context) := by
  refine (keeps_anchorShape keeps hc).bind fun shape _ => ?_
  refine Keeps.map (keeps_anchorBody keeps h ?_) fun n hn => by
    simpa only [Node.textContent] using hn
  split
  · next style hstyle => exact hc.merge (hc.fields? hstyle)
  · exact hc

/-! ## Chapters and sections -/

omit [Scalar α] in
theorem keeps_compileTitled (keeps : Keepable blame I E G) {e : Element}
    (h : Handles env blame I E G compile e.children) {context : Context}
    (hc : Blames blame context) :
    Keeps I E (fun b => Built G e.children (b.1.textContent ++ Node.textOfNodes b.2))
      (compileTitled compile e context) := by
  unfold compileTitled
  split
  · exact keeps_invalid keeps
  · next title rest hchildren =>
    rw [hchildren] at h ⊢
    refine (h.inheritable List.mem_cons_self hc).bind fun n hn => ?_
    have hrest := h.of_subset fun child hchild => List.mem_cons_of_mem title hchild
    exact (keeps_compileChildren hrest hc).map fun ns hns => .cons hn hns

omit [Scalar α] in
theorem keeps_withinFrame (keeps : Keepable blame I E G) {β : Type} {Q : β → Prop}
    {act : CompileM α β} (h : Keeps I E Q act) (number : List Nat) :
    Keeps I E Q (withinFrame number act) :=
  keeps_within h (fun _ hs => keeps.frame hs rfl rfl) fun _ hs => keeps.frame hs rfl rfl

omit [Scalar α] in
theorem keeps_compileChapter (keeps : Keepable blame I E G) {e : Element}
    (h : Handles env blame I E G compile e.children) {context : Context}
    (hc : Blames blame context) :
    Keeps I E (fun n => Built G e.children n.textContent) (compileChapter compile e context) := by
  refine Keeps.bind (P := fun _ => True)
    (keeps_modifyGet fun s hs => ⟨trivial, keeps.frame hs rfl rfl⟩) fun number _ => ?_
  refine (keeps_withinFrame keeps (keeps_compileTitled keeps h hc) [number]).bind fun b hb => ?_
  refine keeps_pure ?_
  simpa only [Node.textContent] using hb

omit [Scalar α] in
theorem keeps_nextSection (keeps : Keepable blame I E G) :
    Keeps I E (fun _ => True) (nextSection : CompileM α (List Nat)) := by
  refine keeps_modifyGet fun s hs => ⟨trivial, ?_⟩
  split
  · exact hs
  · exact keeps.frame hs rfl rfl

theorem keeps_compileSection (keeps : Keepable blame I E G) {e : Element}
    (h : Handles env blame I E G compile e.children) {context : Context}
    (hc : Blames blame context) :
    Keeps I E (fun n => Built G e.children n.textContent) (compileSection compile e context) := by
  refine (keeps_nextSection keeps).bind fun number _ => ?_
  have htitled := keeps_compileTitled keeps h hc
  split
  · refine htitled.bind fun b hb => keeps_pure ?_
    simpa only [Node.textContent] using hb
  · refine (keeps_withinFrame keeps htitled number).bind fun b hb => keeps_pure ?_
    simpa only [Node.textContent] using hb

end Folio.Compile
