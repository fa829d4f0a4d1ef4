import Folio.Compile.Compiler
import Folio.Proofs.Style.Contexts

/-!
# What stands inside an element

The parts of an element, in reading order: the target of a reference, the header entries and then
the row entries of a table, nothing for what is drawn, and the children of everything else. The text
of markup is the text of its parts. Of the context around it an element uses only a header and an id
for this, and neither of them is ever inherited.
-/
namespace Folio.Compile

open Style Markup

variable {α : Type}

/-- What a header entry contributes: an untagged entry with attributes has its content in front. -/
def headerContent (entry : Json) : Json :=
  match entry, tagOf? entry with
  | .array [content, .object _], none => content
  | _, _ => entry

def headerParts (header : Option Json) : List Json :=
  ((HeaderRow.parse? header).map fun row => row.entries.map headerContent).getD []

theorem headerParts_of_none {header : Option Json} (h : HeaderRow.parse? header = none) :
    headerParts header = [] := by
  simp [headerParts, h]

theorem headerParts_of_some {header : Option Json} {row : HeaderRow}
    (h : HeaderRow.parse? header = some row) :
    headerParts header = row.entries.map headerContent := by
  simp [headerParts, h]

def rowParts (rows : List Json) : List Json := rows.flatMap fun row => row.asItems?.getD []

/-- The rows of a grid, behind a first child of numbers alone. -/
def gridRows : List Json → List Json
  | .array (x :: xs) :: rest =>
    if (x :: xs).all Json.isNumber then rest else .array (x :: xs) :: rest
  | children => children

/-- The parts of an element in its own context; none for a reference that leads nowhere and for a
directive. -/
def elementParts? (env : Env α) (tag : Tag) (e : Element) (context : Context) :
    Option (List Json) :=
  match tag with
  | .reference =>
    (referenceId? e context).bind fun id => (Fields.get? id env.references).map ([·])
  | .table => some (headerParts (context.get? "header") ++ rowParts e.children)
  | .gridTable => some (headerParts (context.get? "header") ++ rowParts (gridRows e.children))
  | .image | .chart | .svg | .graphics | .line | .spacer | .rectangle => some []
  | .pageBreak | .clearDoublePage => none
  | _ => some e.children

/-- Is text all that an element of the tag may hold? -/
def holdsText : Tag → Bool
  | .chunk | .subscript | .superscript | .note => true
  | _ => false

/-- What `f` makes of an element in the context that it has below another one. -/
def resolved {β : Type} (env : Env α) (f : Tag → Element → Context → Option β) (context : Context)
    (node : Json) : Option β :=
  (Element.parse node).toOption.bind fun e => e.tag?.bind fun tag =>
    f tag e (resolve context env.sheet e.token.classes e.attrs)

theorem resolved_of_parse {β : Type} {env : Env α} {f : Tag → Element → Context → Option β}
    {context : Context} {node : Json} {e : Element} {tag : Tag} (h : Element.parse node = .ok e)
    (htag : e.tag? = some tag) : resolved env f context node =
      f tag e (resolve context env.sheet e.token.classes e.attrs) := by
  simp [resolved, h, Except.toOption, htag]

theorem exists_of_resolved {β : Type} {env : Env α} {f : Tag → Element → Context → Option β}
    {context : Context} {node : Json} {b : β} (h : resolved env f context node = some b) :
    ∃ e tag, Element.parse node = .ok e ∧ e.tag? = some tag ∧
      f tag e (resolve context env.sheet e.token.classes e.attrs) = some b := by
  obtain ⟨e, hparse, hrest⟩ := Option.bind_eq_some_iff.mp h
  obtain ⟨tag, htag, hb⟩ := Option.bind_eq_some_iff.mp hrest
  cases hresult : Element.parse node with
  | error fault =>
    rw [hresult] at hparse
    cases hparse
  | ok found =>
    rw [hresult] at hparse
    have hsame : found = e := Option.some.inj hparse
    exact ⟨e, tag, congrArg _ hsame, htag, hb⟩

/-- The parts of a node below a context; none if it is not an element. -/
def parts? (env : Env α) (context : Context) (node : Json) : Option (List Json) :=
  resolved env (elementParts? env) context node

/-- The parts of a node that stand in its own markup and are compiled. -/
def innerParts (env : Env α) (context : Context) (node : Json) : List Json :=
  (resolved env (fun tag e c => if holdsText tag || tag == .reference then none
    else elementParts? env tag e c) context node).getD []

/-- The parts of an element in its own context that are compiled as nodes. -/
def tagParts (env : Env α) (tag : Tag) (e : Element) (context : Context) : List Json :=
  if holdsText tag then [] else (elementParts? env tag e context).getD []

theorem innerParts_of_parse {env : Env α} {context : Context} {node : Json} {e : Element}
    {tag : Tag} (hparse : Element.parse node = .ok e) (htag : e.tag? = some tag)
    (h : tag ≠ .reference) : innerParts env context node =
      tagParts env tag e (resolve context env.sheet e.token.classes e.attrs) := by
  have hne : (tag == .reference) = false := by simpa using h
  unfold innerParts tagParts
  rw [resolved_of_parse hparse htag, hne, Bool.or_false]
  split
  · rfl
  · rfl

/-- The id that a node names if it is a reference. -/
def namedId? (env : Env α) (context : Context) (node : Json) : Option String :=
  resolved env (fun tag e c => if tag = .reference then referenceId? e c else none) context node

/-- The target that a node leads to if it is a reference. -/
def target? (env : Env α) (context : Context) (node : Json) : Option Json :=
  (namedId? env context node).bind fun id => Fields.get? id env.references

/-- All raw nodes that are compiled for a node, one level down. -/
def positions (env : Env α) (context : Context) (node : Json) : List Json :=
  innerParts env context node ++ (target? env context node).toList

/-- What one step does with a node: it writes a text or a number down, refuses what is no element or
has none of the tags, and leaves every other element to the rule of its tag. -/
inductive Dispatched [Scalar α] (env : Env α) (compile : Compiling α) (node : Json)
    (context : Context) : CompileM α (Node α) → Prop
  | leaf {text : String} (hleaf : leafText? node = some text) :
      Dispatched env compile node context (textNode text context)
  | malformed {fault : Malformed} (hleaf : leafText? node = none)
      (hparse : Element.parse node = .error fault) :
      Dispatched env compile node context (invalid (.malformed fault) node)
  | unknown {e : Element} (hleaf : leafText? node = none) (hparse : Element.parse node = .ok e)
      (htag : e.tag? = none) :
      Dispatched env compile node context (throw (.unknownTag e.token.primary node))
  | element {e : Element} {tag : Tag} (hleaf : leafText? node = none)
      (hparse : Element.parse node = .ok e) (htag : e.tag? = some tag)
      (hknown : tagOf? node = some tag) : Dispatched env compile node context
        (compileTag env compile tag e (resolve context env.sheet e.token.classes e.attrs))

theorem dispatched_compileStep [Scalar α] (env : Env α) (compile : Compiling α) (node : Json)
    (context : Context) :
    Dispatched env compile node context (compileStep env compile node context) := by
  unfold compileStep
  split
  · next hleaf => exact .leaf hleaf
  · next hleaf =>
    split
    · next hparse => exact .malformed hleaf hparse
    · next e hparse =>
      split
      · next htag => exact .unknown hleaf hparse htag
      · next tag htag =>
        refine .element hleaf hparse htag ?_
        rw [tagOf?_eq, hparse]
        exact htag

theorem compileStep_of_parse [Scalar α] (env : Env α) (compile : Compiling α) {node : Json}
    {e : Element} {tag : Tag} (hparse : Element.parse node = .ok e) (htag : e.tag? = some tag)
    (context : Context) : compileStep env compile node context =
      compileTag env compile tag e (resolve context env.sheet e.token.classes e.attrs) := by
  have hleaf : leafText? node = none := by
    cases node with
    | array items => rfl
    | _ => cases hparse
  simp only [compileStep, hleaf, hparse, htag]

/-- What becomes of a header entry: attributes of its own are laid over the context, any other
untagged array is refused, and everything else is treated as an entry of a row. -/
inductive HeaderEntry [Scalar α] (compile : Compiling α) (grid : Bool) (context : Context) :
    Json → CompileM α (Cell α) → Prop
  | styled {content : Json} {inlined : Fields}
      (htag : tagOf? (.array [content, .object inlined]) = none) :
      HeaderEntry compile grid context (.array [content, .object inlined]) (do
        let compiled ← cellContent compile grid [content] (context.merge inlined)
        return .mk (← cellStyle (context.merge inlined)) compiled)
  | untagged {items : List Json} (htag : tagOf? (.array items) = none)
      (hcontent : headerContent (.array items) = .array items) :
      HeaderEntry compile grid context (.array items) (invalid .headerEntry (.array items))
  | row {entry : Json} (htagged : ∀ items, entry = .array items → tagOf? entry ≠ none) :
      HeaderEntry compile grid context entry (rowCell compile grid context entry)

theorem headerEntry_headerCell [Scalar α] (compile : Compiling α) (grid : Bool)
    (context : Context) (entry : Json) :
    HeaderEntry compile grid context entry (headerCell compile grid context entry) := by
  unfold headerCell
  split
  · next htag => exact .styled htag
  · next items hshape htag =>
    refine .untagged htag ?_
    unfold headerContent
    split
    · next content inlined heq _ => exact (hshape content inlined (Json.array.inj heq)).elim
    · rfl
  · next hstyled harray =>
    refine .row fun items hitems htag => ?_
    exact harray items hitems htag

theorem headerContent_of_styled {content : Json} {inlined : Fields}
    (h : tagOf? (.array [content, .object inlined]) = none) :
    headerContent (.array [content, .object inlined]) = content := by
  simp [headerContent, h]

theorem headerContent_of_tagged {entry : Json}
    (h : ∀ items, entry = .array items → tagOf? entry ≠ none) : headerContent entry = entry := by
  unfold headerContent
  split
  · next htag => exact absurd htag (h _ rfl)
  · rfl

/-! ## What stands in the markup of a node -/

theorem inside_of_mem_children {node : Json} {e : Element} (h : Element.parse node = .ok e)
    {child : Json} (hchild : child ∈ e.children) : Inside child node := by
  unfold Element.parse at h
  split at h
  · rw [← Except.ok.inj h] at hchild
    exact .item (List.mem_cons_of_mem _ (List.mem_cons_of_mem _ hchild))
  · rw [← Except.ok.inj h] at hchild
    exact .item (List.mem_cons_of_mem _ hchild)
  · cases h
  · cases h
  · cases h

theorem inside_of_mem_attrs {node : Json} {e : Element} (h : Element.parse node = .ok e)
    {entry : String × Json} (hentry : entry ∈ e.attrs.getD []) : Inside entry.2 node := by
  unfold Element.parse at h
  split at h
  · rw [← Except.ok.inj h] at hentry
    exact .trans (.field hentry rfl) (.item (List.mem_cons_of_mem _ List.mem_cons_self))
  · rw [← Except.ok.inj h] at hentry
    cases hentry
  · cases h
  · cases h
  · cases h

theorem inside_of_mem_entries {value : Json} {row : HeaderRow}
    (h : HeaderRow.parse? (some value) = some row) {entry : Json} (hentry : entry ∈ row.entries) :
    Inside entry value := by
  unfold HeaderRow.parse? at h
  split at h
  · next style entries hvalue =>
    rw [Option.some.inj hvalue]
    rw [← Option.some.inj h] at hentry
    exact .item (List.mem_cons_of_mem _ hentry)
  · next entries _ hvalue =>
    rw [Option.some.inj hvalue]
    rw [← Option.some.inj h] at hentry
    exact .item hentry
  · cases h

theorem inside_of_style {value : Json} {row : HeaderRow}
    (h : HeaderRow.parse? (some value) = some row) {style : Fields}
    (hstyle : row.style = some style) : Inside (.object style) value := by
  unfold HeaderRow.parse? at h
  split at h
  · next attrs entries hvalue =>
    rw [← Option.some.inj h] at hstyle
    rw [Option.some.inj hvalue, ← Option.some.inj hstyle]
    exact .item List.mem_cons_self
  · rw [← Option.some.inj h] at hstyle
    cases hstyle
  · cases h

/-- A header row is always read from a value. -/
theorem exists_header_of_parse {header : Option Json} {row : HeaderRow}
    (h : HeaderRow.parse? header = some row) : ∃ value, header = some value := by
  refine Option.ne_none_iff_exists'.mp fun hnone => ?_
  rw [hnone] at h
  cases h

theorem headerContent_eq_or_inside (entry : Json) :
    headerContent entry = entry ∨ Inside (headerContent entry) entry := by
  unfold headerContent
  split
  · exact .inr (.item List.mem_cons_self)
  · exact .inl rfl

theorem inside_of_mem_headerParts {value part : Json} (h : part ∈ headerParts (some value)) :
    Inside part value := by
  cases hrow : HeaderRow.parse? (some value) with
  | none =>
    rw [headerParts_of_none hrow] at h
    cases h
  | some row =>
    rw [headerParts_of_some hrow] at h
    obtain ⟨entry, hentry, hpart⟩ := List.mem_map.mp h
    have hinside := inside_of_mem_entries hrow hentry
    rw [← hpart]
    rcases headerContent_eq_or_inside entry with hsame | hcontent
    · rw [hsame]
      exact hinside
    · exact hcontent.trans hinside

/-! ## Contexts that make no difference -/

/-- Contexts that show the same header and the same id. -/
def SameView (c d : Context) : Prop := c.get? "header" = d.get? "header" ∧ c.get? "id" = d.get? "id"

theorem inheritable_sameView (c : Context) : SameView c.inheritable .empty :=
  ⟨Context.get?_without_of_mem (by decide) c, Context.get?_without_of_mem (by decide) c⟩

theorem referenceId?_congr {c d : Context} (h : SameView c d) (e : Element) :
    referenceId? e c = referenceId? e d := by
  simp only [referenceId?, Context.keyword?, h.2]

theorem elementParts?_congr {c d : Context} (h : SameView c d) (env : Env α) (tag : Tag)
    (e : Element) : elementParts? env tag e c = elementParts? env tag e d := by
  cases tag <;> simp only [elementParts?, h.1, referenceId?_congr h]

theorem SameView.resolve {c d : Context} (h : SameView c d) (sheet : Sheet) (classes : List String)
    (inlined : Option Fields) :
    SameView (Style.resolve c sheet classes inlined) (Style.resolve d sheet classes inlined) :=
  ⟨get?_resolve_congr h.1 sheet classes inlined, get?_resolve_congr h.2 sheet classes inlined⟩

/-- A context that hides what is around a node from it. -/
structure Hides (env : Env α) (context : Context) (node : Json) : Prop where
  parts : parts? env context node = parts? env .empty node
  inner : innerParts env context node = innerParts env .empty node
  named : namedId? env context node = namedId? env .empty node

theorem Hides.positions {env : Env α} {context : Context} {node : Json}
    (h : Hides env context node) : positions env context node = positions env .empty node := by
  simp only [Compile.positions, target?, h.inner, h.named]

theorem resolved_congr {β : Type} {env : Env α} {f : Tag → Element → Context → Option β}
    {c d : Context} {node : Json}
    (h : ∀ e tag, Element.parse node = .ok e → e.tag? = some tag →
      f tag e (resolve c env.sheet e.token.classes e.attrs) =
        f tag e (resolve d env.sheet e.token.classes e.attrs)) :
    resolved env f c node = resolved env f d node := by
  unfold resolved
  cases hparse : Element.parse node with
  | error fault => rfl
  | ok e =>
    cases htag : e.tag? with
    | none => simp [Except.toOption, htag]
    | some tag => simp [Except.toOption, htag, h e tag hparse htag]

theorem hides_inheritable (env : Env α) (c : Context) (node : Json) :
    Hides env c.inheritable node := by
  have hview (e : Element) := (inheritable_sameView c).resolve env.sheet e.token.classes e.attrs
  refine ⟨?_, ?_, ?_⟩
  · exact resolved_congr fun e tag _ _ => elementParts?_congr (hview e) env tag e
  · refine congrArg (Option.getD · []) (resolved_congr fun e tag _ _ => ?_)
    rw [elementParts?_congr (hview e)]
  · refine resolved_congr fun e tag _ _ => ?_
    rw [referenceId?_congr (hview e)]

/-- A cell uses neither header nor id. -/
theorem hides_cell (env : Env α) (c : Context) {node : Json} (h : isCell node) :
    Hides env c node := by
  have hcell {e : Element} {tag : Tag} (hparse : Element.parse node = .ok e)
      (htag : e.tag? = some tag) : tag = .cell ∨ tag = .gridCell := by
    have hnode : tagOf? node = some tag := by
      rw [tagOf?_eq, hparse]
      exact htag
    simp only [isCell, hnode] at h
    cases tag <;> simp_all
  refine ⟨?_, ?_, ?_⟩
  · refine resolved_congr fun e tag hparse htag => ?_
    rcases hcell hparse htag with rfl | rfl <;> rfl
  · refine congrArg (Option.getD · []) (resolved_congr fun e tag hparse htag => ?_)
    rcases hcell hparse htag with rfl | rfl <;> rfl
  · refine resolved_congr fun e tag hparse htag => ?_
    rcases hcell hparse htag with rfl | rfl <;> rfl

/-! ## The text of raw markup -/

/-- The text of raw nodes below a context, one after the other. A text or a number stands for
itself, an element for its parts; inside an element nothing is seen of the context around it. -/
inductive RawText (env : Env α) : Context → List Json → String → Prop
  | nil (c : Context) : RawText env c [] ""
  | leaf {c : Context} {node : Json} {nodes : List Json} {text rest : String}
      (hleaf : leafText? node = some text) (h : RawText env c nodes rest) :
      RawText env c (node :: nodes) (text ++ rest)
  | element {c : Context} {node : Json} {nodes parts : List Json} {text rest : String}
      (hleaf : leafText? node = none) (hparts : parts? env c node = some parts)
      (hinside : RawText env .empty parts text) (h : RawText env c nodes rest) :
      RawText env c (node :: nodes) (text ++ rest)

/-- Raw markup has one text at most. -/
theorem RawText.unique {env : Env α} {c : Context} {nodes : List Json} {text other : String}
    (h : RawText env c nodes text) (k : RawText env c nodes other) : text = other := by
  induction h generalizing other with
  | nil c =>
    cases k
    rfl
  | leaf hleaf _ ih =>
    cases k with
    | leaf hother hrest =>
      rw [hleaf] at hother
      rw [Option.some.inj hother, ih hrest]
    | element hother _ _ _ =>
      rw [hleaf] at hother
      cases hother
  | element hleaf hparts _ _ ihinside ih =>
    cases k with
    | leaf hother _ =>
      rw [hleaf] at hother
      cases hother
    | element _ hother hinside hrest =>
      rw [hparts] at hother
      rw [← Option.some.inj hother] at hinside
      rw [ihinside hinside, ih hrest]

theorem RawText.append {env : Env α} {c : Context} {nodes more : List Json} {text rest : String}
    (h : RawText env c nodes text) (k : RawText env c more rest) :
    RawText env c (nodes ++ more) (text ++ rest) := by
  induction h with
  | nil c => simpa using k
  | leaf hleaf _ ih =>
    rw [String.append_assoc]
    exact .leaf hleaf (ih k)
  | element hleaf hparts hinside _ _ ih =>
    rw [String.append_assoc]
    exact .element hleaf hparts hinside (ih k)

/-- Where the context is hidden from a node, its text is what it would be by itself. -/
theorem RawText.of_hides {env : Env α} {c : Context} {node : Json} {text : String}
    (h : RawText env c [node] text) (hides : Hides env c node) :
    RawText env .empty [node] text := by
  cases h with
  | leaf hleaf hrest =>
    cases hrest
    exact .leaf hleaf (.nil _)
  | element hleaf hparts hinside hrest =>
    cases hrest
    exact .element hleaf (hides.parts.symm.trans hparts) hinside (.nil _)

end Folio.Compile
