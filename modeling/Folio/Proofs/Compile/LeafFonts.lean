import Folio.Proofs.Compile.Alike
import Folio.Proofs.Compile.Keeps
import Folio.Proofs.Compile.Resolution
import Folio.Proofs.Style.FontSources

/-!
# The font of leaf text

Texts and numbers directly inside an element are set in the font of the context that the element
gives them. That context is made of the element's own maps over the one around it, to which a
heading adds its defaults and, as an anchor does too, the map that `style` may be. So each attribute
of the font comes from the first of these that names it.
-/
namespace Folio.Compile

open Style Markup

variable {α : Type}

/-! ## Leaf text in a node -/

/-- The node is the text, in a font with `P`. -/
def TextIn (P : Font α → Prop) (text : String) (n : Node α) : Prop :=
  ∃ run, n = .text run ∧ run.text = text ∧ P run.font

/-- The node of a child that is a text or a number is that text, in a font with `P`. -/
def LeafIn (P : Font α → Prop) (child : Json) (n : Node α) : Prop :=
  ∀ text, leafText? child = some text → TextIn P text n

/-- An item of a list that is a text or a number is a chunk of that text, in a font with `P`. -/
def ItemIn (P : Font α → Prop) (child : Json) (item : ListItem α) : Prop :=
  (leafText? child).isSome → ∃ n, item = .chunk n ∧ LeafIn P child n

/-- What one node holds of children: none make an empty text, one stands for itself and several make
a phrase, as none may. -/
inductive BodyIn (P : Font α → Prop) : List Json → Node α → Prop
  | empty {n : Node α} (h : TextIn P "" n) : BodyIn P [] n
  | lone {child : Json} {n : Node α} (h : LeafIn P child n) : BodyIn P [child] n
  | phrase {children : List Json} {style : PhraseStyle α} {nodes : List (Node α)}
      (hmany : children.length ≠ 1) (h : List.Forall₂ (LeafIn P) children nodes) :
      BodyIn P children (.phrase style nodes)

section Leaf

variable {P Q : Font α → Prop} {child : Json} {n : Node α}

theorem leafIn_of_text {text : String} (hleaf : leafText? child = some text) (h : TextIn P text n) :
    LeafIn P child n := by
  intro other hother
  rw [hleaf] at hother
  exact Option.some.inj hother ▸ h

theorem leafIn_of_none (hleaf : leafText? child = none) (n : Node α) : LeafIn P child n := by
  intro text htext
  rw [hleaf] at htext
  cases htext

variable (hPQ : ∀ font, P font → Q font)
include hPQ

theorem TextIn.mono {text : String} (h : TextIn P text n) : TextIn Q text n := by
  obtain ⟨run, hn, htext, hfont⟩ := h
  exact ⟨run, hn, htext, hPQ _ hfont⟩

theorem LeafIn.mono (h : LeafIn P child n) : LeafIn Q child n :=
  fun text htext => (h text htext).mono hPQ

theorem ItemIn.mono {item : ListItem α} (h : ItemIn P child item) : ItemIn Q child item := by
  intro hsome
  obtain ⟨n, hn, hleaf⟩ := h hsome
  exact ⟨n, hn, hleaf.mono hPQ⟩

theorem BodyIn.mono {children : List Json} (h : BodyIn P children n) : BodyIn Q children n := by
  cases h with
  | empty h => exact .empty (h.mono hPQ)
  | lone h => exact .lone (h.mono hPQ)
  | phrase hmany h => exact .phrase hmany (h.imp fun _ _ hleaf => hleaf.mono hPQ)

end Leaf

variable [Scalar α]

/-- All leaf text directly inside an element of a tag is in its node, in fonts with `P`. Chunks are
leaf text as a whole, and when they are raised or lowered `P` holds of the font before it is
scaled. -/
inductive LeavesIn (P : Font α → Prop) (children : List Json) : Tag → Node α → Prop
  | chunk {text : String} {n : Node α} (htext : leafTexts? children = some text)
      (h : TextIn P text n) : LeavesIn P children .chunk n
  | superscript {run : TextRun α} {font : Font α} (htext : leafTexts? children = some run.text)
      (hfont : run.font = font.withSize (font.size * scriptScale)) (h : P font) :
      LeavesIn P children .chunk (.superscript run)
  | subscript {run : TextRun α} {font : Font α} (htext : leafTexts? children = some run.text)
      (hfont : run.font = font.withSize (font.size * scriptScale)) (h : P font) :
      LeavesIn P children .chunk (.subscript run)
  | phrase {style : PhraseStyle α} {nodes : List (Node α)}
      (h : List.Forall₂ (LeafIn P) children nodes) :
      LeavesIn P children .phrase (.phrase style nodes)
  | paragraph {style : BlockStyle α} {nodes : List (Node α)}
      (h : List.Forall₂ (LeafIn P) children nodes) :
      LeavesIn P children .paragraph (.paragraph style nodes)
  | heading {style : BlockStyle α} {nodes : List (Node α)}
      (h : List.Forall₂ (LeafIn P) children nodes) :
      LeavesIn P children .heading (.paragraph style nodes)
  | list {style : ListStyle α} {items : List (ListItem α)}
      (h : List.Forall₂ (ItemIn P) children items) :
      LeavesIn P children .list (.list style items)
  | anchor {ends : AnchorEnds} {shape : AnchorShape α} {body : Node α}
      (h : BodyIn P children body) : LeavesIn P children .anchor (.anchor ends shape body)
  | cell {style : CellStyle α} {body : Node α} (h : BodyIn P children body) :
      LeavesIn P children .cell (.cell (.mk style body))

theorem LeavesIn.mono {P Q : Font α → Prop} (hPQ : ∀ font, P font → Q font) {children : List Json}
    {tag : Tag} {n : Node α} (h : LeavesIn P children tag n) : LeavesIn Q children tag n := by
  have hall {nodes : List (Node α)} (h : List.Forall₂ (LeafIn P) children nodes) :
      List.Forall₂ (LeafIn Q) children nodes := h.imp fun _ _ hleaf => hleaf.mono hPQ
  cases h with
  | chunk htext h => exact .chunk htext (h.mono hPQ)
  | superscript htext hfont h => exact .superscript htext hfont (hPQ _ h)
  | subscript htext hfont h => exact .subscript htext hfont (hPQ _ h)
  | phrase h => exact .phrase (hall h)
  | paragraph h => exact .paragraph (hall h)
  | heading h => exact .heading (hall h)
  | list h => exact .list (h.imp fun _ _ hitem => hitem.mono hPQ)
  | anchor h => exact .anchor (h.mono hPQ)
  | cell h => exact .cell (h.mono hPQ)

/-! ## Runs -/

/-- A run whose result, if there is one, has `Q`. -/
abbrev Yields {β : Type} (Q : β → Prop) (act : CompileM α β) : Prop :=
  Keeps (fun _ => True) (fun _ => True) Q act

/-- The font is the one of the context. -/
def FontOf (context : Context) (font : Font α) : Prop := Font.ofContext context = .ok font

omit [Scalar α] in
theorem yields_any {β : Type} (act : CompileM α β) : Yields (fun _ => True) act := by
  intro s _
  refine ⟨trivial, ?_⟩
  split <;> trivial

theorem yields_fontOf (context : Context) :
    Yields (FontOf context) (fontOf context : CompileM α (Font α)) := by
  unfold fontOf FontOf
  cases (Font.ofContext context : Except Color.Fault (Font α)) with
  | ok font => exact keeps_pure rfl
  | error fault => exact keeps_throw trivial

theorem yields_textRun (text : String) (context : Context) :
    Yields (fun run : TextRun α => run.text = text ∧ FontOf context run.font)
      (textRun text context) :=
  (yields_fontOf context).bind fun _ hfont => (yields_any _).map fun _ _ => ⟨rfl, hfont⟩

theorem yields_textNode (text : String) (context : Context) :
    Yields (TextIn (FontOf context) text) (textNode text context : CompileM α _) :=
  (yields_textRun text context).map fun run h => ⟨run, rfl, h⟩

/-- What is not local leaves the font as it is. -/
theorem fontOf_inheritable (context : Context) (font : Font α)
    (h : FontOf context.inheritable font) : FontOf context font := by
  rwa [FontOf, Context.inheritable, Font.ofContext_without (by decide +kernel)] at h

theorem fontOf_without_align (context : Context) (font : Font α)
    (h : FontOf (context.without ["align"]) font) : FontOf context font := by
  rwa [FontOf, Font.ofContext_without (by decide +kernel)] at h

omit [Scalar α] in
theorem yields_leafText (e : Element) :
    Yields (fun text => leafTexts? e.children = some text) (leafText e : CompileM α String) := by
  unfold leafText
  cases leafTexts? e.children with
  | some text => exact keeps_pure rfl
  | none => exact keeps_throw trivial

theorem yields_scriptRun (text : String) (context : Context) :
    Yields (fun run : TextRun α => run.text = text ∧ ∃ font, FontOf context font ∧
      run.font = font.withSize (font.size * scriptScale)) (scriptRun text context) :=
  (yields_textRun text context).map fun run h => ⟨h.1, run.font, h.2, rfl⟩

theorem yields_compileChunk (e : Element) (context : Context) :
    Yields (LeavesIn (FontOf context) e.children .chunk)
      (compileChunk e context : CompileM α (Node α)) := by
  refine (yields_leafText e).bind fun text htext => ?_
  split
  · refine (yields_scriptRun text context).map fun run ⟨hrun, font, h, hfont⟩ => ?_
    exact .superscript (hrun ▸ htext) hfont h
  · split
    · refine (yields_scriptRun text context).map fun run ⟨hrun, font, h, hfont⟩ => ?_
      exact .subscript (hrun ▸ htext) hfont h
    · exact (yields_textNode text context).weaken fun n hn => .chunk htext hn

theorem yields_compileItem (compile : Compiling α) (font : Font α) (context : Context)
    (child : Json) : Yields (ItemIn (FontOf context) child)
      (compileItem compile font context.inheritable child) := by
  unfold compileItem
  cases hleaf : leafText? child with
  | none =>
    refine (yields_any _).weaken fun _ _ hsome => ?_
    rw [hleaf] at hsome
    cases hsome
  | some text =>
    refine (yields_textNode text _).map fun n hn _ => ⟨n, rfl, leafIn_of_text hleaf ?_⟩
    exact hn.mono (fontOf_inheritable context)

theorem yields_compileList (compile : Compiling α) (e : Element) (context : Context) :
    Yields (LeavesIn (FontOf context) e.children .list) (compileList compile e context) :=
  (yields_fontOf context).bind fun font _ =>
    (keeps_mapM fun child _ => yields_compileItem compile font context child).map fun _ hitems =>
      .list hitems

/-! ## Children -/

/-- Texts and numbers are set in the font of the context they are compiled in. -/
def SetsLeaves (compile : Compiling α) : Prop :=
  ∀ child context, Yields (LeafIn (FontOf context) child) (compile child context)

theorem setsLeaves_compileWithin (env : Env α) (steps : Nat) :
    SetsLeaves (compileWithin env steps) := by
  intro child context
  cases steps with
  | zero => exact keeps_throw trivial
  | succ steps =>
    cases hleaf : leafText? child with
    | none => exact (yields_any _).weaken fun n _ => leafIn_of_none hleaf n
    | some text =>
      have hstep : compileWithin env (steps + 1) child context = textNode text context := by
        simp only [compileWithin, compileStep, hleaf]
      rw [hstep]
      exact (yields_textNode text context).weaken fun _ hn => leafIn_of_text hleaf hn

section Tags

variable {compile : Compiling α} (h : SetsLeaves compile)
include h

theorem yields_compileChildren (children : List Json) (context : Context) :
    Yields (List.Forall₂ (LeafIn (FontOf context)) children)
      (compileChildren compile children context) :=
  keeps_mapM fun child _ => (h child context.inheritable).weaken fun _ hleaf =>
    hleaf.mono (fontOf_inheritable context)

theorem yields_compileInline (children : List Json) (context : Context) :
    Yields (List.Forall₂ (LeafIn (FontOf context)) children)
      (compileChildren compile children (context.without ["align"])) :=
  (yields_compileChildren h children _).weaken fun _ hnodes =>
    hnodes.imp fun _ _ hleaf => hleaf.mono (fontOf_without_align context)

theorem yields_compilePhrase (e : Element) (context : Context) :
    Yields (LeavesIn (FontOf context) e.children .phrase) (compilePhrase compile e context) :=
  (yields_compileInline h e.children context).bind fun _ hnodes =>
    (yields_any _).map fun _ _ => .phrase hnodes

theorem yields_compileParagraph (e : Element) (context : Context) :
    Yields (LeavesIn (FontOf context) e.children .paragraph) (compileParagraph compile e context) :=
  (yields_compileInline h e.children context).bind fun _ hnodes =>
    (yields_any _).map fun _ _ => .paragraph hnodes

theorem yields_compileHeading (e : Element) (context : Context) :
    Yields (LeavesIn (FontOf (headingContext context)) e.children .heading)
      (compileHeading compile e context) :=
  (yields_compileInline h e.children _).bind fun _ hnodes =>
    (yields_any _).map fun _ _ => .heading hnodes

theorem yields_anchorBody (e : Element) (context : Context) :
    Yields (BodyIn (FontOf context) e.children) (anchorBody compile e context) := by
  refine (yields_compileChildren h e.children context).bind fun nodes hnodes => ?_
  split
  · next only =>
    obtain ⟨child, hchild⟩ := List.length_eq_one_iff.mp hnodes.length_eq
    rw [hchild] at hnodes ⊢
    cases hnodes with
    | cons hleaf _ => exact keeps_pure (.lone hleaf)
  · next hmany =>
    refine (yields_any _).map fun _ _ => .phrase (fun hone => ?_) hnodes
    obtain ⟨only, honly⟩ := List.length_eq_one_iff.mp (hnodes.length_eq.symm.trans hone)
    exact hmany only honly

theorem yields_compileAnchor (e : Element) (context : Context) :
    Yields (LeavesIn (FontOf (anchorContext context)) e.children .anchor)
      (compileAnchor compile e context) :=
  (yields_any _).bind fun _ _ =>
    (yields_anchorBody h e (anchorContext context)).map fun _ hbody => .anchor hbody

theorem yields_cellContent (children : List Json) (context : Context) :
    Yields (BodyIn (FontOf context) children) (cellContent compile false children context) := by
  unfold cellContent
  match children with
  | [] =>
    exact (yields_textNode "" _).weaken fun n hn => .empty (hn.mono (fontOf_inheritable context))
  | [only] =>
    cases hleaf : leafText? only with
    | none =>
      simp only [hleaf]
      refine (h only context.inheritable).weaken fun n hn => .lone ?_
      exact hn.mono (fontOf_inheritable context)
    | some text =>
      simp only [hleaf, Bool.false_eq_true, ↓reduceIte]
      refine (yields_textNode text _).map fun n hn => .lone (leafIn_of_text hleaf ?_)
      exact hn.mono (fontOf_inheritable context)
  | first :: second :: rest =>
    refine (yields_compileChildren h _ context).bind fun nodes hnodes => ?_
    exact (yields_any _).map fun _ _ => .phrase (by simp) hnodes

theorem yields_compileCell (e : Element) (context : Context) :
    Yields (fun c => LeavesIn (FontOf context) e.children .cell (.cell c))
      (compileCell compile false e context) :=
  (yields_cellContent h e.children context).bind fun _ hbody =>
    (yields_any _).map fun _ _ => .cell hbody

end Tags

/-- The tags of elements whose own leaf text is set in their font. -/
def textTags : List Tag := [.paragraph, .phrase, .heading, .chunk, .anchor, .list, .cell]

/-- The context that the children of an element see, but for what is local. -/
def textContext (tag : Tag) (context : Context) : Context :=
  match tag with
  | .heading => headingContext context
  | .anchor => anchorContext context
  | _ => context

theorem yields_compileTag {compile : Compiling α} (h : SetsLeaves compile) (env : Env α) {tag : Tag}
    (htag : tag ∈ textTags) (e : Element) (context : Context) :
    Yields (LeavesIn (FontOf (textContext tag context)) e.children tag)
      (compileTag env compile tag e context) := by
  cases tag with
  | paragraph => exact yields_compileParagraph h e context
  | phrase => exact yields_compilePhrase h e context
  | heading => exact yields_compileHeading h e context
  | chunk => exact yields_compileChunk e context
  | anchor => exact yields_compileAnchor h e context
  | list => exact yields_compileList compile e context
  | cell => exact (yields_compileCell h e context).map fun _ hcell => hcell
  | _ => exact absurd htag (by decide)

/-! ## Sources -/

/-- May the style of an element be a map of attributes? -/
def nestsStyle : Tag → Bool
  | .heading | .anchor => true
  | _ => false

/-- The map that the style of an element is, if it is one: of the maps that the element brings along
the first one with a style decides. -/
def nestedStyle? (own : List Context) : Option Fields :=
  (own.findSome? (·.get? "style")).bind Json.asFields?

/-- What the tag of an element lays over its own maps. -/
def tagSources (tag : Tag) (own : List Context) : List Context :=
  match tag with
  | .heading => (nestedStyle? own).toList.map .ofFields ++ [.ofFields headingDefaults]
  | .anchor => (nestedStyle? own).toList.map .ofFields
  | _ => []

/-- All that leaf text inside an element takes its font from, the most specific in front. -/
def fontSources (tag : Tag) (own : List Context) (ambient : Context) : List Context :=
  tagSources tag own ++ own ++ [ambient]

/-- Is the style of the font that of the sources? The map that stands for the style of an anchor
must name a style itself, if there is one to be named at all. -/
def StyleNamed (tag : Tag) (own : List Context) (ambient : Context) : Prop :=
  tag = .anchor → ∀ nested, nestedStyle? own = some nested →
    ((Context.ofFields nested).get? "style").isSome ∨
      named "style" FontStyle.read? (fontSources tag own ambient) = none

variable {tag : Tag} {own : List Context} {ambient context : Context}

/-- The style map around an element is out of sight. -/
theorem fields?_style (hlayered : Layered context (own ++ [ambient]))
    (h : (own.findSome? (·.get? "style")).isSome ∨ ambient.fields? "style" = none) :
    context.fields? "style" = nestedStyle? own := by
  have hshown : context.get? "style" =
      (own.findSome? (·.get? "style")).or (ambient.get? "style") := by
    rw [hlayered "style" (by simp [fontKeys]), List.findSome?_append]
    simp
  unfold Context.fields? nestedStyle?
  rw [hshown]
  cases hown : own.findSome? (·.get? "style") with
  | some v => rfl
  | none =>
    rw [hown] at h
    exact h.resolve_left Bool.false_ne_true

theorem layered_textContext (hlayered : Layered context (own ++ [ambient]))
    (h : nestsStyle tag → context.fields? "style" = nestedStyle? own) :
    Layered (textContext tag context) (fontSources tag own ambient) := by
  cases tag with
  | heading =>
    have hdefaults := hlayered.merge headingDefaults
    simp only [textContext, headingContext, fontSources, tagSources, h rfl]
    cases nestedStyle? own with
    | none => exact hdefaults
    | some nested => exact hdefaults.merge nested
  | anchor =>
    simp only [textContext, anchorContext, fontSources, tagSources, h rfl]
    cases nestedStyle? own with
    | none => exact hlayered
    | some nested => exact hlayered.merge nested
  | _ => exact hlayered

/-! ## Legible sources -/

theorem legible_headingDefaults : Legible α (.ofFields headingDefaults) where
  family := by rintro v ⟨⟩
  size := by rintro v ⟨⟩; rfl
  color := by rintro v ⟨⟩
  style := by rintro v ⟨⟩; decide +kernel

/-- A style that is a map can be read as one. -/
theorem legible_nestedStyle {nests : Bool} (hown : ∀ c ∈ own, LegibleFor α nests c)
    {nested : Fields} (h : nestedStyle? own = some nested) : Legible α (.ofFields nested) := by
  obtain ⟨v, hshown, hfields⟩ := Option.bind_eq_some_iff.mp h
  obtain ⟨c, hc, hget⟩ := List.exists_of_findSome?_eq_some hshown
  rcases (hown c hc).style v hget with hname | ⟨-, other, hother, hlegible⟩
  · -- a name is no map
    cases v with
    | object fields => cases hname
    | _ => cases hfields
  · rw [hfields] at hother
    exact Option.some.inj hother ▸ hlegible

theorem legible_tagSources (tag : Tag) {nests : Bool} (hown : ∀ c ∈ own, LegibleFor α nests c) :
    ∀ c ∈ tagSources tag own, Legible α c := by
  have hnested : ∀ c ∈ (nestedStyle? own).toList.map Context.ofFields, Legible α c := by
    intro c hc
    obtain ⟨nested, hmem, rfl⟩ := List.mem_map.mp hc
    exact legible_nestedStyle hown (Option.mem_toList.mp hmem)
  unfold tagSources
  split
  · exact List.forall_mem_append.mpr
      ⟨hnested, List.forall_mem_singleton.mpr legible_headingDefaults⟩
  · exact hnested
  · exact List.forall_mem_nil _

theorem unhidden_fontSources {β : Type} {key : String} {read : Json → Option β}
    (htag : ∀ c ∈ tagSources tag own, Readable key read c) (hown : ∀ c ∈ own, Readable key read c) :
    Unhidden key read (fontSources tag own ambient) :=
  unhidden_append (isSome_of_readable (List.forall_mem_append.mpr ⟨htag, hown⟩)) ambient

/-- A style in front of an element's own maps hides theirs. -/
theorem unhidden_style_of_tagSources (hlegible : ∀ c ∈ tagSources tag own, Legible α c)
    (h : ∃ c ∈ tagSources tag own, (c.get? "style").isSome) :
    Unhidden "style" FontStyle.read? (fontSources tag own ambient) := by
  refine unhidden_append (fun v hv => ?_) ambient
  obtain ⟨c, hc, hget⟩ := h
  rw [List.findSome?_append] at hv
  cases hshown : (tagSources tag own).findSome? (·.get? "style") with
  | none =>
    rw [List.findSome?_eq_none_iff.mp hshown c hc] at hget
    cases hget
  | some w =>
    rw [hshown] at hv
    obtain ⟨d, hd, hw⟩ := List.exists_of_findSome?_eq_some hshown
    exact Option.some.inj hv ▸ (hlegible d hd).style w hw

theorem unhidden_style (hown : ∀ c ∈ own, LegibleFor α (nestsStyle tag) c)
    (hnamed : StyleNamed tag own ambient) :
    Unhidden "style" FontStyle.read? (fontSources tag own ambient) := by
  have hlegible := legible_tagSources tag hown
  -- a first style that is no map can be read
  have hplain (hmap : nestsStyle tag → nestedStyle? own = none) (v : Json)
      (hv : own.findSome? (·.get? "style") = some v) : (FontStyle.read? v).isSome := by
    obtain ⟨c, hc, hget⟩ := List.exists_of_findSome?_eq_some hv
    rcases (hown c hc).style v hget with hname | ⟨hnests, nested, hfields, -⟩
    · exact hname
    · have hsome : nestedStyle? own = some nested := by rw [nestedStyle?, hv]; exact hfields
      rw [hmap hnests] at hsome
      cases hsome
  cases tag with
  | heading =>
    refine unhidden_style_of_tagSources hlegible ⟨.ofFields headingDefaults, ?_, rfl⟩
    exact List.mem_append_right _ List.mem_cons_self
  | anchor =>
    cases hnested : nestedStyle? own with
    | none =>
      have hnone : tagSources .anchor own = [] := by rw [tagSources, hnested]; rfl
      rw [fontSources, hnone]
      exact unhidden_append (hplain fun _ => hnested) ambient
    | some nested =>
      rcases hnamed rfl nested hnested with hstyle | hnone
      · refine unhidden_style_of_tagSources hlegible ⟨.ofFields nested, ?_, hstyle⟩
        rw [tagSources, hnested]
        exact List.mem_cons_self
      · exact fun _ _ => .inr hnone
  | _ => exact unhidden_append (hplain nofun) ambient

/-- The maps that an element brings along. -/
def sourcesOf (env : Env α) (e : Element) : List Context :=
  ownSources env.sheet e.token.classes e.attrs

/-- Leaf text directly inside an element takes each attribute of its font from the first source that
names it, and from the standard font if none does: the map that the style of a heading or an anchor
is, the defaults of a heading, the element's own attributes, its classes from the last one on, and
what is around it. All that the element brings along must be readable, and a heading or an anchor
without a style of its own must not be inside one whose style is a map still. -/
theorem compileWithin_leafFonts (env : Env α) (steps : Nat) {node : Json} {e : Element}
    (hparse : Element.parse node = .ok e) (htag : e.tag? = some tag) (htext : tag ∈ textTags)
    (hlegible : ∀ c ∈ sourcesOf env e, LegibleFor α (nestsStyle tag) c)
    (hambient : nestsStyle tag →
      ((sourcesOf env e).findSome? (·.get? "style")).isSome ∨ ambient.fields? "style" = none)
    {state after : State α} {n : Node α}
    (hrun : (compileWithin env steps node ambient).run state = (.ok n, after)) :
    LeavesIn (Font.From (fontSources tag (sourcesOf env e) ambient)
      (StyleNamed tag (sourcesOf env e) ambient)) e.children tag n := by
  have hresolved : Layered (resolve ambient env.sheet e.token.classes e.attrs)
      (sourcesOf env e ++ [ambient]) := layered_resolve (layered_self ambient) _ _ _
  have hlayered := layered_textContext hresolved fun hnests =>
    fields?_style hresolved (hambient hnests)
  have htags := legible_tagSources tag hlegible
  cases steps with
  | zero => cases hrun
  | succ steps =>
    rw [compileWithin, compileStep_of_parse env _ hparse htag] at hrun
    have hyields := (yields_compileTag (setsLeaves_compileWithin env steps) env htext e
      (resolve ambient env.sheet e.token.classes e.attrs) state trivial).2
    rw [hrun] at hyields
    refine hyields.mono fun font hfont => Font.from_of_layered hlayered ?_ ?_ ?_ ?_ hfont
    · exact unhidden_fontSources (fun c hc => (htags c hc).family) fun c hc =>
        (hlegible c hc).family
    · exact unhidden_fontSources (fun c hc => (htags c hc).size) fun c hc => (hlegible c hc).size
    · exact unhidden_fontSources (fun c hc => (htags c hc).color) fun c hc => (hlegible c hc).color
    · exact unhidden_style hlegible

/-- A class for program text. -/
def codeEnv : Env Single :=
  { bareEnv with
    sheet := ⟨[("code", [("family", .string "courier"), ("style", .string "normal")])]⟩ }

/-- A heading of that class whose style is a map. -/
def codeHeading : Json :=
  .array [.string "heading.code", .object [("style", .object [("style", .string "italic")])],
    .string "Title"]

theorem compileWithin_leafFonts_codeHeading : ∃ n after,
    (compileWithin codeEnv 2 codeHeading .empty).run .initial = (.ok n, after) ∧
      LeavesIn (fun font => font.family = .courier ∧ font.style = .italic) [.string "Title"]
        .heading n := by
  obtain ⟨n, after, hrun⟩ : ∃ n after,
      (compileWithin codeEnv 2 codeHeading .empty).run .initial = (.ok n, after) := ⟨_, _, rfl⟩
  have hnested : Legible Single (.ofFields [("style", .string "italic")]) :=
    ⟨by rintro v ⟨⟩, by rintro v ⟨⟩, by rintro v ⟨⟩, by rintro v ⟨⟩; decide +kernel⟩
  have hown : LegibleFor Single true
      (.ofFields [("style", .object [("style", .string "italic")])]) :=
    ⟨by rintro v ⟨⟩, by rintro v ⟨⟩, by rintro v ⟨⟩,
      by rintro v ⟨⟩; exact .inr ⟨rfl, _, rfl, hnested⟩⟩
  have hclass : LegibleFor Single true
      (.ofFields [("family", .string "courier"), ("style", .string "normal")]) :=
    ⟨by rintro v ⟨⟩; decide +kernel, by rintro v ⟨⟩, by rintro v ⟨⟩,
      by rintro v ⟨⟩; exact .inl (by decide +kernel)⟩
  have hsources (children : List Json) : sourcesOf codeEnv ⟨Token.parse "heading.code",
        some [("style", .object [("style", .string "italic")])], children, codeHeading⟩ =
      [.ofFields [("style", .object [("style", .string "italic")])],
        .ofFields [("family", .string "courier"), ("style", .string "normal")]] := by
    have hclasses : (Token.parse "heading.code").classes = ["code"] := by decide +kernel
    unfold sourcesOf
    rw [hclasses]
    rfl
  have htag : Tag.parse? (Token.parse "heading.code").primary = some .heading := by decide +kernel
  have hleaves := compileWithin_leafFonts codeEnv 2
    (e := ⟨Token.parse "heading.code", _, _, codeHeading⟩) rfl htag (by decide)
    (by
      rw [hsources]
      exact List.forall_mem_cons.mpr ⟨hown, List.forall_mem_singleton.mpr hclass⟩)
    (fun _ => .inl (by rw [hsources]; rfl)) hrun
  rw [hsources] at hleaves
  refine ⟨n, after, hrun, hleaves.mono fun font hfont => ⟨?_, ?_⟩⟩
  · rw [hfont.family]
    decide +kernel
  · rw [hfont.style nofun]
    decide +kernel

/-- A heading with a size and a style among its own attributes. -/
def italicHeading : Json :=
  .array [.string "heading", .object [("size", Json.ofNat 12), ("style", .string "italic")],
    .string "x"]

/-- An anchor whose style is a map without a style. -/
def sizedAnchor : Json :=
  .array [.string "anchor", .object [("style", .object [("size", Json.ofNat 14)])], .string "x"]

/-- An anchor with a family among its own attributes. -/
def timesAnchor : Json :=
  .array [.string "anchor", .object [("family", .string "times")], .string "x"]

/-- Not always does the most specific source win. The defaults of a heading stand in front of its
own attributes; the map that is the style of an anchor hides the style of the text around it; and
the one of an anchor around it stands in front of what an anchor says itself. -/
theorem compile_outranked :
    (∃ style run after, (compile bareEnv italicHeading .empty).run .initial =
        (.ok (.paragraph style [.text run]), after) ∧
      Legible Single (.ofFields [("size", Json.ofNat 12), ("style", .string "italic")]) ∧
      ¬ run.font.From [.ofFields [("size", Json.ofNat 12), ("style", .string "italic")],
        .ofFields headingDefaults, .empty] True) ∧
    (∃ ends shape run after,
      (compile bareEnv sizedAnchor ⟨[("style", .string "bold")]⟩).run .initial =
        (.ok (.anchor ends shape (.text run)), after) ∧
      ¬ run.font.From [.ofFields [("size", Json.ofNat 14)],
        .ofFields [("style", .object [("size", Json.ofNat 14)])],
        ⟨[("style", .string "bold")]⟩] True) ∧
    ∃ ends shape run after, (compile bareEnv timesAnchor
          ⟨[("style", .object [("family", .string "courier")])]⟩).run .initial =
        (.ok (.anchor ends shape (.text run)), after) ∧
      ¬ run.font.From [.ofFields [("family", .string "times")],
        ⟨[("style", .object [("family", .string "courier")])]⟩] True := by
  refine ⟨?_, ?_, ?_⟩
  · obtain ⟨style, run, after, hrun, hbold⟩ : ∃ style run after,
        (compile bareEnv italicHeading .empty).run .initial =
          (.ok (.paragraph style [.text run]), after) ∧ run.font.style = .bold :=
      ⟨_, _, _, rfl, by decide +kernel⟩
    refine ⟨style, run, after, hrun, ?_, fun hfrom => ?_⟩
    · exact ⟨by rintro v ⟨⟩, by rintro v ⟨⟩; rfl, by rintro v ⟨⟩, by rintro v ⟨⟩; decide +kernel⟩
    · have hitalic := hbold.symm.trans (hfrom.style trivial)
      exact absurd hitalic (by decide +kernel)
  · obtain ⟨ends, shape, run, after, hrun, hnormal⟩ : ∃ ends shape run after,
        (compile bareEnv sizedAnchor ⟨[("style", .string "bold")]⟩).run .initial =
          (.ok (.anchor ends shape (.text run)), after) ∧ run.font.style = .normal :=
      ⟨_, _, _, _, rfl, by decide +kernel⟩
    refine ⟨ends, shape, run, after, hrun, fun hfrom => ?_⟩
    have hbold := hnormal.symm.trans (hfrom.style trivial)
    exact absurd hbold (by decide +kernel)
  · obtain ⟨ends, shape, run, after, hrun, hcourier⟩ : ∃ ends shape run after,
        (compile bareEnv timesAnchor
            ⟨[("style", .object [("family", .string "courier")])]⟩).run .initial =
          (.ok (.anchor ends shape (.text run)), after) ∧ run.font.family = .courier :=
      ⟨_, _, _, _, rfl, by decide +kernel⟩
    refine ⟨ends, shape, run, after, hrun, fun hfrom => ?_⟩
    have htimes := hcourier.symm.trans hfrom.family
    exact absurd htimes (by decide +kernel)

end Folio.Compile
