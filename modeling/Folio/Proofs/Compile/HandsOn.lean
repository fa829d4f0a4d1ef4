import Folio.Proofs.Compile.Alike
import Folio.Proofs.Compile.Tables
import Folio.Proofs.Node.Outline

/-!
# What a rule does with its parts

But for those that number, resolve or draw, the rule of a tag hands its parts on to be compiled one
after the other and puts together what comes back; for the rest it can only fail. So what compiling
the parts does to the state is all that the rule does to it, and the outline of what it builds is
made of those of its parts. There is one lemma for each rule, and every law about runs needs to be
proved only once, for all rules.
-/
namespace Folio.Compile

open Style Markup

variable {α β γ : Type} [Scalar α]

/-- A run that hands on what is in the list, in this order, and fails or comes to a result which `Q`
relates to the nodes that come back. It sees no more of how they are compiled than these nodes.
Texts and numbers may be written down instead. -/
inductive HandsOn : List (Json × Context) → (List (Node α) → β → Prop) →
    (Compiling α → CompileM α β) → Prop
  | done {Q : List (Node α) → β → Prop} {b : β} (h : Q [] b) : HandsOn [] Q fun _ => pure b
  | fail {handed : List (Json × Context)} {Q : List (Node α) → β → Prop} (e : CompileError) :
      HandsOn handed Q fun _ => throw e
  | call {node : Json} {context : Context} {handed : List (Json × Context)}
      {Q : List (Node α) → β → Prop} {next : Node α → Compiling α → CompileM α β}
      (h : ∀ n, HandsOn handed (fun ns => Q (n :: ns)) (next n)) :
      HandsOn ((node, context) :: handed) Q
        fun compile => compile node context >>= fun n => next n compile
  | leaf {node : Json} {text : String} {context : Context} {handed : List (Json × Context)}
      {Q : List (Node α) → β → Prop} {next : Node α → Compiling α → CompileM α β}
      (hleaf : leafText? node = some text)
      (h : ∀ n, HandsOn handed (fun ns => Q (n :: ns)) (next n)) :
      HandsOn ((node, context) :: handed) Q
        fun compile => textNode text context >>= fun n => next n compile

namespace HandsOn

variable {handed more : List (Json × Context)} {Q : List (Node α) → β → Prop}
  {F : Compiling α → CompileM α β}

theorem bind (h : HandsOn handed Q F) {R : List (Node α) → γ → Prop}
    {next : β → Compiling α → CompileM α γ}
    (k : ∀ ns b, Q ns b → HandsOn more (fun ms => R (ns ++ ms)) (next b)) :
    HandsOn (handed ++ more) R fun compile => F compile >>= fun b => next b compile := by
  induction h generalizing R with
  | done h =>
    simp only [pure_bind]
    exact k [] _ h
  | fail e => exact .fail e
  | call h ih =>
    simp only [bind_assoc]
    exact .call fun n => ih n fun ns b hb => k (n :: ns) b hb
  | leaf hleaf h ih =>
    simp only [bind_assoc]
    exact .leaf hleaf fun n => ih n fun ns b hb => k (n :: ns) b hb

theorem weaken (h : HandsOn handed Q F) {R : List (Node α) → β → Prop}
    (k : ∀ ns b, Q ns b → R ns b) : HandsOn handed R F := by
  induction h generalizing R with
  | done h => exact .done (k [] _ h)
  | fail e => exact .fail e
  | call h ih => exact .call fun n => ih n fun ns b hb => k (n :: ns) b hb
  | leaf hleaf h ih => exact .leaf hleaf fun n => ih n fun ns b hb => k (n :: ns) b hb

theorem map (h : HandsOn handed Q F) {R : List (Node α) → γ → Prop} {f : β → γ}
    (k : ∀ ns b, Q ns b → R ns (f b)) :
    HandsOn handed R fun compile => F compile >>= fun b => pure (f b) := by
  have hmapped : HandsOn (handed ++ []) R fun compile => F compile >>= fun b => pure (f b) :=
    h.bind fun ns b hb => .done (by simpa using k ns b hb)
  simpa using hmapped

/-- What follows hands nothing on. -/
theorem finish (h : HandsOn handed Q F) {R : List (Node α) → γ → Prop}
    {next : β → Compiling α → CompileM α γ}
    (k : ∀ ns b, Q ns b → HandsOn [] (fun ms => R (ns ++ ms)) (next b)) :
    HandsOn handed R fun compile => F compile >>= fun b => next b compile := by
  simpa using h.bind k

end HandsOn

/-- The outline of what is built is made of the outlines of the nodes that came back. -/
def Outlines (view : β → List Heading) (ns : List (Node α)) (b : β) : Prop :=
  view b = ns.flatMap Node.outline

/-- Nothing was handed on. -/
def Alone (ns : List (Node α)) (_ : β) : Prop := ns = []

theorem HandsOn.alone {F : Compiling α → CompileM α β} (h : HandsOn [] Alone F)
    {R : List (Node α) → β → Prop} (k : ∀ b, R [] b) : HandsOn [] R F :=
  h.weaken fun ns b hb => by
    rw [show ns = [] from hb]
    exact k b

/-- A step that hands nothing on, before others. -/
theorem HandsOn.before {handed : List (Json × Context)} {R : List (Node α) → γ → Prop}
    {F : Compiling α → CompileM α β} {next : β → Compiling α → CompileM α γ}
    (h : HandsOn [] Alone F) (k : ∀ b, HandsOn handed R (next b)) :
    HandsOn handed R fun compile => F compile >>= fun b => next b compile :=
  h.bind fun ns b hb => by
    rw [show ns = [] from hb]
    exact k b

/-- A step that hands nothing on, behind others. -/
theorem HandsOn.after {handed : List (Json × Context)} {δ : Type} {Q : List (Node α) → β → Prop}
    {R : List (Node α) → δ → Prop} {F : Compiling α → CompileM α β}
    {act : β → CompileM α γ} {f : β → γ → δ} (h : HandsOn handed Q F)
    (hact : ∀ b, HandsOn [] Alone fun _ => act b) (k : ∀ ns b c, Q ns b → R ns (f b c)) :
    HandsOn handed R fun compile => F compile >>= fun b => act b >>= fun c => pure (f b c) :=
  h.finish fun ns b hb => (hact b).before fun c => .done (by simpa using k ns b c hb)

/-- One node by itself. -/
theorem handsOn_compile (node : Json) (context : Context) :
    HandsOn [(node, context)] (Outlines Node.outline)
      (fun compile => compile node context : Compiling α → CompileM α (Node α)) := by
  have hcall : HandsOn [(node, context)] (Outlines Node.outline)
      fun compile : Compiling α => compile node context >>= fun n => pure n :=
    .call fun n => .done (by simp [Outlines])
  simpa using hcall

/-- One text or number, written down. -/
theorem handsOn_leaf {node : Json} {text : String} (hleaf : leafText? node = some text)
    (context : Context) : HandsOn [(node, context)] (Outlines Node.outline)
      (fun _ => textNode text context : Compiling α → CompileM α (Node α)) := by
  have hwritten : HandsOn [(node, context)] (Outlines Node.outline)
      fun _ : Compiling α => textNode text context >>= fun n => pure n :=
    .leaf hleaf fun n => .done (by simp [Outlines])
  simpa using hwritten

/-- Each in turn. -/
theorem handsOn_mapM {f : γ → Compiling α → CompileM α β} {calls : γ → List (Json × Context)}
    {view : β → List Heading} (xs : List γ)
    (h : ∀ x, HandsOn (calls x) (Outlines view) (f x)) :
    HandsOn (xs.flatMap calls) (Outlines fun bs => bs.flatMap view)
      fun compile => xs.mapM fun x => f x compile := by
  induction xs with
  | nil => exact .done rfl
  | cons x xs ih =>
    simp only [List.mapM_cons, List.flatMap_cons]
    refine (h x).bind fun ns b hb => ih.map fun ms bs hbs => ?_
    simp only [Outlines, List.flatMap_cons, List.flatMap_append] at hb hbs ⊢
    rw [hb, hbs]

/-- Each in turn, with one node for each. -/
theorem handsOn_each {f : γ → Compiling α → CompileM α β} {call : γ → Json × Context}
    {view : β → List Heading} (xs : List γ) (h : ∀ x, HandsOn [call x] (Outlines view) (f x)) :
    HandsOn (xs.map call) (Outlines fun bs => bs.flatMap view)
      fun compile => xs.mapM fun x => f x compile := by
  have hone : xs.flatMap (fun x => [call x]) = xs.map call := List.flatMap_pure_eq_map call xs
  rw [← hone]
  exact handsOn_mapM xs h

/-! ## Colours, fonts and text -/

theorem handsOn_ofColor (r : Except Color.Fault β) :
    HandsOn [] Alone (fun _ => ofColor r : Compiling α → CompileM α β) := by
  cases r with
  | ok b => exact .done rfl
  | error fault => exact .fail _

theorem handsOn_firstColor? (context : Context) (first second : String) :
    HandsOn [] Alone
      (fun _ => firstColor? context first second : Compiling α → CompileM α (Option Color)) := by
  refine (handsOn_ofColor _).before fun color => ?_
  cases color with
  | some color => exact .done rfl
  | none => exact handsOn_ofColor _

theorem handsOn_leafText (e : Element) :
    HandsOn [] Alone (fun _ => leafText e : Compiling α → CompileM α String) := by
  unfold leafText
  cases leafTexts? e.children with
  | some text => exact .done rfl
  | none => exact .fail _

theorem handsOn_textRun (text : String) (context : Context) :
    HandsOn [] Alone (fun _ => textRun text context : Compiling α → CompileM α (TextRun α)) :=
  (handsOn_ofColor _).before fun _ => (handsOn_ofColor _).before fun _ => .done rfl

theorem handsOn_scriptRun (text : String) (context : Context) :
    HandsOn [] Alone (fun _ => scriptRun text context : Compiling α → CompileM α (TextRun α)) :=
  (handsOn_textRun text context).before fun _ => .done rfl

theorem handsOn_textNode (text : String) (context : Context) :
    HandsOn [] (Outlines Node.outline)
      (fun _ => textNode text context : Compiling α → CompileM α (Node α)) :=
  (handsOn_textRun text context).before fun _ => .done (by simp [Outlines])

theorem handsOn_compileChunk (e : Element) (context : Context) :
    HandsOn [] (Outlines Node.outline)
      (fun _ => compileChunk e context : Compiling α → CompileM α (Node α)) := by
  refine (handsOn_leafText e).before fun text => ?_
  split
  · exact (handsOn_scriptRun text context).before fun _ => .done (by simp [Outlines])
  · split
    · exact (handsOn_scriptRun text context).before
        fun _ => .done (by simp [Outlines])
    · exact handsOn_textNode text context

theorem handsOn_compileSubscript (e : Element) (context : Context) :
    HandsOn [] (Outlines Node.outline)
      (fun _ => compileSubscript e context : Compiling α → CompileM α (Node α)) :=
  (handsOn_leafText e).before fun text => (handsOn_scriptRun text context).before
    fun _ => .done (by simp [Outlines])

theorem handsOn_compileSuperscript (e : Element) (context : Context) :
    HandsOn [] (Outlines Node.outline)
      (fun _ => compileSuperscript e context : Compiling α → CompileM α (Node α)) :=
  (handsOn_leafText e).before fun text => (handsOn_scriptRun text context).before
    fun _ => .done (by simp [Outlines])

theorem handsOn_compileNote (e : Element) (context : Context) :
    HandsOn [] (Outlines Node.outline)
      (fun _ => compileNote e context : Compiling α → CompileM α (Node α)) :=
  (handsOn_leafText e).before fun _ => .done (by simp [Outlines])

/-! ## Blocks -/

theorem handsOn_compileChildren (children : List Json) (context : Context) :
    HandsOn (below children context) (Outlines Node.outlineOfNodes)
      (fun compile => compileChildren compile children context :
        Compiling α → CompileM α (List (Node α))) := by
  have hall := handsOn_each (α := α) children fun child =>
    handsOn_compile child context.inheritable
  refine hall.weaken fun ns b hb => ?_
  rwa [Outlines, Node.outlineOfNodes_eq]

theorem handsOn_compilePhrase (e : Element) (context : Context) :
    HandsOn (below e.children (context.without ["align"])) (Outlines Node.outline)
      (fun compile => compilePhrase compile e context : Compiling α → CompileM α (Node α)) := by
  refine (handsOn_compileChildren _ _).after (fun _ => handsOn_ofColor _) fun ns b font hb => ?_
  simpa [Outlines] using hb

theorem handsOn_compileParagraph (e : Element) (context : Context) :
    HandsOn (below e.children (context.without ["align"])) (Outlines Node.outline)
      (fun compile => compileParagraph compile e context : Compiling α → CompileM α (Node α)) := by
  refine (handsOn_compileChildren _ _).after (fun _ => handsOn_ofColor _) fun ns b font hb => ?_
  simpa [Outlines] using hb

theorem handsOn_compileHeading (e : Element) (context : Context) :
    HandsOn (below e.children ((headingContext context).without ["align"])) (Outlines Node.outline)
      (fun compile => compileHeading compile e context : Compiling α → CompileM α (Node α)) := by
  refine (handsOn_compileChildren _ _).after (fun _ => handsOn_ofColor _) fun ns b font hb => ?_
  simpa [Outlines] using hb

theorem handsOn_compileItem (font : Font α) (child : Json) (context : Context) :
    HandsOn [(child, context)] (Outlines Node.outlineOfItem)
      (fun compile => compileItem compile font context child :
        Compiling α → CompileM α (ListItem α)) := by
  unfold compileItem
  cases hleaf : leafText? child with
  | some text =>
    exact (handsOn_leaf hleaf context).map fun ns b hb => by
      simpa [Outlines] using hb
  | none =>
    refine (handsOn_compile child context).finish fun ns n hn => ?_
    split
    · exact .done (by simpa [Outlines] using hn)
    · refine .done ?_
      simpa [Outlines] using hn

theorem handsOn_compileList (e : Element) (context : Context) :
    HandsOn (below e.children context) (Outlines Node.outline)
      (fun compile => compileList compile e context : Compiling α → CompileM α (Node α)) := by
  refine (handsOn_ofColor _).before fun font => ?_
  have hitems := handsOn_each e.children fun child =>
    handsOn_compileItem font child context.inheritable
  refine hitems.map fun ns items hns => ?_
  simpa [Outlines, Node.outlineOfItems_eq] using hns

theorem handsOn_anchorShape (context : Context) :
    HandsOn [] Alone
      (fun _ => anchorShape context : Compiling α → CompileM α (AnchorShape α)) := by
  unfold anchorShape
  split
  · exact (handsOn_ofColor _).before fun _ => .done rfl
  · exact .done rfl
  · exact (handsOn_ofColor _).before fun _ => .done rfl
  · exact .done rfl

theorem handsOn_anchorBody (e : Element) (context : Context) :
    HandsOn (below e.children context) (Outlines Node.outline)
      (fun compile => anchorBody compile e context : Compiling α → CompileM α (Node α)) := by
  refine (handsOn_compileChildren _ _).finish fun ns b hb => ?_
  split
  · exact .done (by simpa [Outlines] using hb)
  · exact (handsOn_ofColor _).before fun _ => .done (by simpa [Outlines] using hb)

theorem handsOn_compileAnchor (e : Element) (context : Context) :
    HandsOn (below e.children (anchorContext context)) (Outlines Node.outline)
      (fun compile => compileAnchor compile e context : Compiling α → CompileM α (Node α)) := by
  refine (handsOn_anchorShape context).before fun shape => ?_
  refine (handsOn_anchorBody e (anchorContext context)).map fun ns b hb => ?_
  simpa [Outlines] using hb

/-- A title and what follows it. -/
theorem handsOn_compileTitled (e : Element) (context : Context) :
    HandsOn (below e.children context)
      (Outlines fun b => b.1.outline ++ Node.outlineOfNodes b.2)
      (fun compile => compileTitled compile e context :
        Compiling α → CompileM α (Node α × List (Node α))) := by
  unfold compileTitled
  cases e.children with
  | nil => exact .fail _
  | cons title rest =>
    refine (handsOn_compile title context.inheritable).bind fun ns n hn => ?_
    refine (handsOn_compileChildren rest context).map fun ms b hb => ?_
    simp only [Outlines, List.flatMap_append] at hn hb ⊢
    rw [hn, hb]

/-! ## Tables -/

theorem handsOn_cellStyle (context : Context) :
    HandsOn [] Alone (fun _ => cellStyle context : Compiling α → CompileM α (CellStyle α)) :=
  (handsOn_firstColor? _ _ _).before fun _ => .done rfl

theorem handsOn_cellContent (grid : Bool) (children : List Json) (context : Context) :
    HandsOn (below children context) (Outlines Node.outline)
      (fun compile => cellContent compile grid children context :
        Compiling α → CompileM α (Node α)) := by
  unfold cellContent
  simp only
  split
  · exact handsOn_textNode "" context.inheritable
  · next only =>
    cases hleaf : leafText? only with
    | some text =>
      refine (handsOn_leaf hleaf context.inheritable).finish fun ns run hrun => ?_
      split
      · refine (handsOn_ofColor _).before fun _ => .done ?_
        simpa [Outlines] using hrun
      · exact .done (by simpa using hrun)
    | none => exact handsOn_compile only context.inheritable
  · refine (handsOn_compileChildren _ _).after (fun _ => handsOn_ofColor _) fun ns b font hb => ?_
    simpa [Outlines] using hb

theorem handsOn_compileCell (grid : Bool) (e : Element) (context : Context) :
    HandsOn (below e.children context) (Outlines Node.outlineOfCell)
      (fun compile => compileCell compile grid e context :
        Compiling α → CompileM α (Cell α)) := by
  refine (handsOn_cellContent grid e.children context).after (fun _ => handsOn_cellStyle context)
    fun ns b style hb => ?_
  simpa [Outlines] using hb

theorem handsOn_rowCell (grid : Bool) (context : Context) (entry : Json) :
    HandsOn [entryCall context entry] (Outlines Node.outlineOfCell)
      (fun compile => rowCell compile grid context entry :
        Compiling α → CompileM α (Cell α)) := by
  unfold rowCell entryCall
  split
  · refine (handsOn_compile entry context).finish fun ns n hn => ?_
    split
    · exact .done (by simpa [Outlines] using hn)
    · exact .done (by simpa [Outlines] using hn)
    · exact .fail _
  · refine (handsOn_cellContent grid [entry] context).after (fun _ => handsOn_cellStyle _)
      fun ns b style hb => ?_
    simpa [Outlines] using hb

theorem handsOn_headerCell (grid : Bool) (context : Context) (entry : Json) :
    HandsOn (headerCalls context entry) (Outlines Node.outlineOfCell)
      (fun compile => headerCell compile grid context entry :
        Compiling α → CompileM α (Cell α)) := by
  by_cases htagged : ∀ items, entry = .array items → tagOf? entry ≠ none
  · have hrow : (fun compile : Compiling α => headerCell compile grid context entry) =
        fun compile => rowCell compile grid context entry := by
      funext compile
      have hentry := headerEntry_headerCell compile grid context entry
      generalize headerCell compile grid context entry = act at hentry ⊢
      cases hentry with
      | styled htag => exact absurd htag (htagged _ rfl)
      | untagged htag => exact absurd htag (htagged _ rfl)
      | row => rfl
    rw [hrow, headerCalls_of_tagged htagged]
    exact handsOn_rowCell grid context entry
  · push Not at htagged
    obtain ⟨items, rfl, htag⟩ := htagged
    unfold headerCalls
    split
    · next content inlined hshape _ =>
      obtain rfl := Json.array.inj hshape
      simp only [headerCell, htag]
      refine (handsOn_cellContent grid [content] (context.merge inlined)).after
        (fun _ => handsOn_cellStyle _) fun ns b style hb => ?_
      simpa [Outlines] using hb
    · next hshape heq _ =>
      obtain rfl := Json.array.inj heq
      have hrefused : (fun compile : Compiling α =>
          headerCell compile grid context (.array items)) =
            fun _ => invalid .headerEntry (.array items) := by
        funext compile
        unfold headerCell
        split
        · next heq _ => exact (hshape _ _ (Json.array.inj heq)).elim
        · rfl
        · next harray => exact (harray _ rfl htag).elim
      rw [hrefused]
      exact .fail _
    · next harray => exact (harray items rfl htag).elim

omit [Scalar α] in
theorem outlineOfCells_spanned (columns : Nat) (cells : List (Cell α)) :
    Node.outlineOfCells (spanned columns cells) = Node.outlineOfCells cells := by
  unfold spanned
  split
  · next only =>
    cases only
    simp [withColspan]
  · rfl

theorem handsOn_headerCells (grid : Bool) (row : HeaderRow) (context : Context) (columns : Nat) :
    HandsOn (headerRowCalls row context) (Outlines Node.outlineOfCells)
      (fun compile => headerCells compile grid row context columns :
        Compiling α → CompileM α (List (Cell α))) := by
  refine (handsOn_mapM row.entries (handsOn_headerCell grid _)).map fun ns cells hns => ?_
  rwa [Outlines, outlineOfCells_spanned, Node.outlineOfCells_eq]

theorem handsOn_compileRow (grid : Bool) (raw row : Json) (context : Context) :
    HandsOn ((row.asItems?.getD []).map (entryCall context)) (Outlines Node.outlineOfCells)
      (fun compile => compileRow compile grid raw context row :
        Compiling α → CompileM α (List (Cell α))) := by
  unfold compileRow
  split
  · next items =>
    have hcells := handsOn_each (α := α) items (handsOn_rowCell grid context)
    refine hcells.weaken fun ns cells hns => ?_
    rwa [Outlines, Node.outlineOfCells_eq]
  · exact .fail _

theorem handsOn_columnCount (tag : String) (context : Context) (header : Option HeaderRow)
    (rows : List (List (Cell α))) :
    HandsOn [] Alone
      (fun _ => columnCount tag context header rows : Compiling α → CompileM α Nat) := by
  unfold columnCount
  simp only
  split
  · split
    · exact .fail _
    · split
      · exact .done rfl
      · exact .done rfl
  · exact .done rfl

theorem handsOn_checkedWidths (grid : Bool) (columns : Nat) (widths : Option (List α)) :
    HandsOn [] Alone
      (fun _ => checkedWidths grid columns widths :
        Compiling α → CompileM α (Option (List α))) := by
  unfold checkedWidths
  split
  · split
    · exact .done rfl
    · split
      · exact .fail _
      · exact .done rfl
  · split
    · exact .fail _
    · exact .done rfl

/-- The rows of a table in their context, then the header in its own. -/
def tableHanded (rows : List Json) (context : Context) : List (Json × Context) :=
  (rowParts rows).map (entryCall context.inheritable) ++
    ((HeaderRow.parse? (context.get? "header")).map (headerRowCalls · context)).getD []

theorem handsOn_buildTable (grid : Bool) (e : Element) (rows : List Json) (context : Context)
    (widths : Option (List α)) :
    HandsOn (tableHanded rows context)
      (Outlines fun t => Node.outlineOfRows t.rows ++ Node.outlineOfCells t.header)
      (fun compile => buildTable compile grid e context rows widths :
        Compiling α → CompileM α (CompiledTable α)) := by
  have hrows := handsOn_mapM (α := α) rows fun row =>
    handsOn_compileRow grid e.raw row context.inheritable
  unfold buildTable tableHanded
  split
  · exact .fail _
  · rw [rowParts, List.map_flatMap]
    refine hrows.bind fun ns cells hcells => ?_
    have htable {ms : List (Node α)} {header : List (Cell α)}
        (hheader : Outlines Node.outlineOfCells ms header) :
        Node.outlineOfRows cells ++ Node.outlineOfCells header = (ns ++ ms).flatMap Node.outline := by
      rw [Node.outlineOfRows_eq, List.flatMap_append, hheader]
      exact congrArg (· ++ _) hcells
    refine (handsOn_columnCount _ context _ cells).before fun columns => ?_
    cases HeaderRow.parse? (context.get? "header") with
    | none =>
      refine (handsOn_checkedWidths grid columns widths).before fun ws => .done ?_
      exact htable rfl
    | some row =>
      exact (handsOn_headerCells grid row context columns).after
        (fun _ => handsOn_checkedWidths grid columns widths) fun ms header ws hheader =>
          htable hheader

/-! ## Every rule -/

theorem handsOn_spacerNode (e : Element) (context : Context) :
    HandsOn [] (Outlines Node.outline)
      (fun _ => spacerNode e context : Compiling α → CompileM α (Node α)) := by
  unfold spacerNode
  simp only
  split
  · exact .done (by simp [Outlines])
  · exact (handsOn_ofColor _).before fun _ => .done (by simp [Outlines])

/-- What an element hands on, in the order in which it is compiled. -/
def handed (env : Env α) (tag : Tag) (e : Element) (context : Context) : List (Json × Context) :=
  match tag with
  | .table => tableHanded e.children context
  | .gridTable => tableHanded (gridRows e.children) context
  | _ => calls env tag e context

omit [Scalar α] in
theorem handed_subset_calls (env : Env α) (tag : Tag) (e : Element) (context : Context) :
    handed env tag e context ⊆ calls env tag e context := by
  have htable (rows : List Json) : tableHanded rows context ⊆ tableCalls rows context :=
    fun call hcall => List.mem_append.mpr (List.mem_append.mp hcall).symm
  cases tag with
  | table => exact htable _
  | gridTable => exact htable _
  | _ => exact List.Subset.refl _

/-- Tags whose rules number, resolve or draw. -/
def ownTags : List Tag := [.chapter, .subsection, .reference, .image, .chart, .svg, .graphics]

theorem handsOn_compileTag (env : Env α) {tag : Tag} (hplain : tag ∉ ownTags) (e : Element)
    (context : Context) :
    HandsOn (handed env tag e context) (Outlines Node.outline)
      (fun compile => compileTag env compile tag e context) := by
  cases tag with
  | chunk => exact handsOn_compileChunk e context
  | subscript => exact handsOn_compileSubscript e context
  | superscript => exact handsOn_compileSuperscript e context
  | note => exact handsOn_compileNote e context
  | heading => exact handsOn_compileHeading e context
  | paragraph => exact handsOn_compileParagraph e context
  | phrase => exact handsOn_compilePhrase e context
  | list => exact handsOn_compileList e context
  | anchor => exact handsOn_compileAnchor e context
  | cell =>
    exact (handsOn_compileCell false e context).map fun ns c hc => by
      simpa [Outlines] using hc
  | gridCell =>
    exact (handsOn_compileCell true e context).map fun ns c hc => by
      simpa [Outlines] using hc
  | table =>
    exact (handsOn_buildTable false e e.children context _).map fun ns t ht => by
      simpa [Outlines] using ht
  | gridTable =>
    rw [handed, ← leadingWidths_snd (α := α)]
    exact (handsOn_buildTable true e _ context _).map fun ns t ht => by
      simpa [Outlines] using ht
  | line => exact (handsOn_ofColor _).before fun _ => .done (by simp [Outlines])
  | spacer => exact handsOn_spacerNode e context
  | rectangle =>
    exact (handsOn_firstColor? context _ _).before fun _ =>
      (handsOn_ofColor _).before fun _ => .done (by simp [Outlines])
  | pageBreak | clearDoublePage => exact .fail _
  | chapter | subsection | reference | image | chart | svg | graphics =>
    exact absurd (by decide) hplain

/-! ## Runs -/

omit [Scalar α] in
theorem run_ofColor (r : Except Color.Fault β) (s : State α) :
    ((ofColor r : CompileM α β).run s).2 = s := by
  cases r <;> rfl

/-- Writing a text down leaves the state alone. -/
theorem run_textNode (text : String) (context : Context) (s : State α) :
    ((textNode text context : CompileM α (Node α)).run s).2 = s := by
  have hfont := run_ofColor (Font.ofContext context : Except Color.Fault (Font α)) s
  have hcolor := run_ofColor (context.color? "background") s
  rw [textNode, textRun, fontOf, colorOf?, run_bind, run_bind]
  rcases hread : (ofColor (Font.ofContext context) : CompileM α (Font α)).run s with ⟨r, t⟩
  obtain rfl : t = s := by simpa [hread] using hfont
  cases r with
  | error e => rfl
  | ok font =>
    simp only [run_bind]
    rcases hshown : (ofColor (context.color? "background") : CompileM α _).run t with ⟨q, u⟩
    obtain rfl : u = t := by simpa [hshown] using hcolor
    cases q <;> rfl

/-- The runs of parts that are compiled with success one after the other, with what they come to. -/
inductive Compiles (compile : Compiling α) :
    State α → List (Json × Context) → List (Node α) → State α → Prop
  | nil (s : State α) : Compiles compile s [] [] s
  | call {node : Json} {context : Context} {handed : List (Json × Context)} {n : Node α}
      {ns : List (Node α)} {s t u : State α} (hrun : (compile node context).run s = (.ok n, t))
      (hrest : Compiles compile t handed ns u) :
      Compiles compile s ((node, context) :: handed) (n :: ns) u
  | leaf {node : Json} {text : String} {context : Context} {handed : List (Json × Context)}
      {n : Node α} {ns : List (Node α)} {s t u : State α} (hleaf : leafText? node = some text)
      (hrun : (textNode text context).run s = (.ok n, t))
      (hrest : Compiles compile t handed ns u) :
      Compiles compile s ((node, context) :: handed) (n :: ns) u

section

variable {handed : List (Json × Context)} {Q : List (Node α) → β → Prop}
  {F : Compiling α → CompileM α β}

/-- A rule that succeeds has compiled all its parts with success. -/
theorem HandsOn.compiles (h : HandsOn handed Q F) {compile : Compiling α} {s t : State α} {b : β}
    (hrun : (F compile).run s = (.ok b, t)) : ∃ ns, Compiles compile s handed ns t ∧ Q ns b := by
  induction h generalizing s with
  | done h =>
    cases hrun
    exact ⟨[], .nil _, h⟩
  | fail e => cases hrun
  | call h ih =>
    obtain ⟨n, u, hfirst, hnext⟩ := exists_of_run_bind hrun
    obtain ⟨ns, hrest, hq⟩ := ih n hnext
    exact ⟨n :: ns, .call hfirst hrest, hq⟩
  | leaf hleaf h ih =>
    obtain ⟨n, u, hfirst, hnext⟩ := exists_of_run_bind hrun
    obtain ⟨ns, hrest, hq⟩ := ih n hnext
    exact ⟨n :: ns, .leaf hleaf hfirst hrest, hq⟩

/-- A rule comes out alike from related states if its parts do. -/
theorem HandsOn.related (h : HandsOn handed Q F) {R : State α → State α → Prop}
    {compile : Compiling α} (hcalls : Alike R compile handed) : Related R (F compile) := by
  induction h with
  | done h => exact related_pure _
  | fail e => exact related_throw e
  | call h ih =>
    refine related_bind (hcalls _ List.mem_cons_self) fun n => ih n fun call hcall => ?_
    exact hcalls call (.tail _ hcall)
  | leaf hleaf h ih =>
    refine related_bind (related_textNode _ _) fun n => ih n fun call hcall => ?_
    exact hcalls call (.tail _ hcall)

/-- Whatever the parts do to the state in any case, the rule does. -/
theorem HandsOn.stays (h : HandsOn handed Q F) {T : State α → State α → Prop}
    (hrefl : ∀ s, T s s) (htrans : ∀ s t u, T s t → T t u → T s u) {compile : Compiling α}
    (hcalls : ∀ call ∈ handed, ∀ s, T s ((compile call.1 call.2).run s).2) (s : State α) :
    T s ((F compile).run s).2 := by
  induction h generalizing s with
  | done h => exact hrefl s
  | fail e => exact hrefl s
  | call h ih =>
    have hfirst := hcalls _ List.mem_cons_self s
    rw [run_bind]
    split
    · next n t hrun =>
      rw [hrun] at hfirst
      exact htrans s t _ hfirst (ih n (fun call hcall => hcalls call (.tail _ hcall)) t)
    · next e t hrun =>
      rw [hrun] at hfirst
      exact hfirst
  | @leaf _ text context _ _ _ _ _ ih =>
    have hfirst := run_textNode (α := α) text context s
    rw [run_bind]
    split
    · next n t hrun =>
      obtain rfl : t = s := by simpa [hrun] using hfirst
      exact ih n (fun call hcall => hcalls call (.tail _ hcall)) t
    · next e t hrun =>
      obtain rfl : t = s := by simpa [hrun] using hfirst
      exact hrefl t

end

end Folio.Compile
