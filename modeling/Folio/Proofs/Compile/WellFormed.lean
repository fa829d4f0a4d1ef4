import Folio.Proofs.Compile.Resolution

/-!
# Well-formed markup

What markup has to look like to compile: what each tag asks of its own element, and the same of
every node inside. Of the context around an element only three attributes count, all of them for
tables, and none of the three is ever inherited. Pictures, drawings and references are left out;
whether they compile is not a matter of their form.
-/
namespace Folio.Compile

open Style Markup Relation

variable {α : Type} [Scalar α]

/-! ## Columns -/

/-- Columns that a cell takes up. -/
def spanOf (context : Context) : Nat := max 1 ((context.count? "colspan").getD 1)

/-- Columns that an entry of a row takes up; only a cell can say how many. -/
def entrySpan (env : Env α) (context : Context) (item : Json) : Nat :=
  match Element.parse item with
  | .ok e =>
    if isCell item then spanOf (resolve context env.sheet e.token.classes e.attrs) else 1
  | .error _ => 1

/-- Columns that the entries of a row take up. -/
def rowSpan (env : Env α) (items : List Json) : Nat :=
  items.foldl (fun n item => n + entrySpan env .empty item) 0

/-- Number of columns that a table asks for. -/
def askedColumns? (context : Context) : Option Nat := (context.get? "num-cols").bind Json.asCount?

/-- The columns asked for, or else as many as the widest row needs. -/
def columnsOf (env : Env α) (context : Context) (rows : List Json) : Nat :=
  match askedColumns? context with
  | some (n + 1) => n + 1
  | _ => rows.foldl (fun n row => max n (rowSpan env (row.asItems?.getD [])))
      (((HeaderRow.parse? (context.get? "header")).map fun h => h.entries.length).getD 0)

/-- The widths of a grid: those of its context, or else those of its first child. -/
def gridWidths? (context : Context) (children : List Json) : Option (List α) :=
  ((context.get? "widths").bind scalars?).or (leadingWidths children).1

/-! ## Well-formed nodes -/

/-- What a table has besides well-formed entries: rows, and no more columns than there may be. -/
structure TableShape (context : Context) (rows : List Json) : Prop where
  nonempty : rows ≠ []
  arrays : ∀ row ∈ rows, ∃ items, row = .array items
  columns : ∀ n, askedColumns? context = some n → n ≤ maxColumns

/-- What a tag asks of its element in the element's own context. -/
def Shape (env : Env α) (tag : Tag) (e : Element) (context : Context) : Prop :=
  match tag with
  | .chunk | .subscript | .superscript | .note => ∀ child ∈ e.children, (leafText? child).isSome
  | .heading | .paragraph | .phrase | .list | .anchor | .cell | .gridCell => True
  | .chapter | .subsection => e.children ≠ []
  | .line | .spacer | .rectangle => True
  | .table => TableShape context e.children
  | .gridTable => TableShape context (gridRows e.children) ∧
      ∃ widths : List α, gridWidths? context e.children = some widths ∧
        widths.length = columnsOf env context (gridRows e.children)
  | .image | .chart | .svg | .graphics | .reference | .pageBreak | .clearDoublePage => False

/-- Markup with the shape that it has to have at every place. -/
inductive WellFormed (env : Env α) : Context → Json → Prop
  | leaf {context : Context} {node : Json} (h : (leafText? node).isSome) :
      WellFormed env context node
  | element {context : Context} {node : Json} {e : Element} {tag : Tag}
      (parsed : Element.parse node = .ok e) (known : e.tag? = some tag)
      (shape : Shape env tag e (resolve context env.sheet e.token.classes e.attrs))
      (inside : ∀ part ∈ innerParts env context node, WellFormed env .empty part) :
      WellFormed env context node

/-- Tags of pictures, of drawings and of references. -/
def foreignTags : List Tag := [.image, .chart, .svg, .graphics, .reference]

/-! ## Contexts that make no difference -/

/-- The attributes of a context that the shape of an element can depend on. -/
def shapeKeys : List String := ["header", "num-cols", "widths"]

theorem shape_congr {env : Env α} {tag : Tag} {e : Element} {c d : Context}
    (h : ∀ key ∈ shapeKeys, c.get? key = d.get? key) : Shape env tag e c ↔ Shape env tag e d := by
  have hheader := h "header" (by decide)
  have hcolumns := h "num-cols" (by decide)
  have hwidths := h "widths" (by decide)
  have hasked : askedColumns? c = askedColumns? d := by simp only [askedColumns?, hcolumns]
  have htable (rows : List Json) : TableShape c rows ↔ TableShape d rows :=
    ⟨fun k => ⟨k.nonempty, k.arrays, hasked ▸ k.columns⟩,
      fun k => ⟨k.nonempty, k.arrays, hasked.symm ▸ k.columns⟩⟩
  cases tag <;>
    simp only [Shape, htable, gridWidths?, columnsOf, hasked, hheader, hwidths]

/-- A context of which the shape of a node shows nothing. -/
def Unseen (context : Context) (node : Json) : Prop :=
  (∃ c : Context, context = c.inheritable) ∨ isCell node

omit [Scalar α] in
theorem Unseen.hides {env : Env α} {context : Context} {node : Json} (h : Unseen context node) :
    Hides env context node := by
  rcases h with ⟨c, rfl⟩ | hcell
  · exact hides_inheritable env c node
  · exact hides_cell env context hcell

theorem tag_of_isCell {node : Json} (h : isCell node) {e : Element} {tag : Tag}
    (hparse : Element.parse node = .ok e) (htag : e.tag? = some tag) :
    tag = .cell ∨ tag = .gridCell := by
  have hnode : tagOf? node = some tag := by
    rw [tagOf?_eq, hparse]
    exact htag
  simp only [isCell, hnode] at h
  cases tag <;> simp_all

theorem wellFormed_unseen {env : Env α} {context : Context} {node : Json}
    (h : Unseen context node) : WellFormed env context node ↔ WellFormed env .empty node := by
  have hinner : innerParts env context node = innerParts env .empty node := h.hides.inner
  have hshape {e : Element} {tag : Tag} (hparse : Element.parse node = .ok e)
      (htag : e.tag? = some tag) :
      Shape env tag e (resolve context env.sheet e.token.classes e.attrs) ↔
        Shape env tag e (resolve .empty env.sheet e.token.classes e.attrs) := by
    rcases h with ⟨c, rfl⟩ | hcell
    · refine shape_congr fun key hkey => get?_resolve_congr ?_ _ _ _
      have hlocal : key ∈ localAttributes := by
        revert key
        decide
      exact Context.get?_without_of_mem hlocal c
    · rcases tag_of_isCell hcell hparse htag with rfl | rfl <;> exact Iff.rfl
  constructor
  · intro hwell
    cases hwell with
    | leaf hleaf => exact .leaf hleaf
    | element parsed known shape inside =>
      exact .element parsed known ((hshape parsed known).mp shape) (hinner ▸ inside)
  · intro hwell
    cases hwell with
    | leaf hleaf => exact .leaf hleaf
    | element parsed known shape inside =>
      exact .element parsed known ((hshape parsed known).mpr shape) (hinner.symm ▸ inside)

/-! ## Well-formed markup comes to an end -/

omit [Scalar α] in
theorem namedId?_of_parse {env : Env α} {context : Context} {node : Json} {e : Element} {tag : Tag}
    (hparse : Element.parse node = .ok e) (htag : e.tag? = some tag) (h : tag ≠ .reference) :
    namedId? env context node = none := by
  rw [namedId?, resolved_of_parse hparse htag, if_neg h]

/-- Well-formed markup has no references. -/
theorem WellFormed.unnamed {env : Env α} {context : Context} {node : Json}
    (h : WellFormed env context node) : namedId? env context node = none := by
  cases h with
  | leaf hleaf =>
    obtain ⟨text, htext⟩ := Option.isSome_iff_exists.mp hleaf
    simp [namedId?, resolved_of_leaf htext]
  | element parsed known shape inside =>
    refine namedId?_of_parse parsed known fun href => ?_
    subst href
    exact shape

/-- All that is compiled for well-formed markup is grounded. -/
theorem WellFormed.groundedBelow {env : Env α} {context : Context} {node : Json}
    (h : WellFormed env context node) : GroundedBelow env context node := by
  induction h with
  | leaf hleaf =>
    obtain ⟨text, htext⟩ := Option.isSome_iff_exists.mp hleaf
    exact groundedBelow_of_leaf htext
  | element parsed known shape inside ih =>
    have hnone := (WellFormed.element parsed known shape inside).unnamed
    refine ⟨fun id hid => ?_, fun part hpart => ?_⟩
    · rw [hnone] at hid
      cases hid
    · simp only [positions, target?, hnone, Option.bind_none, Option.toList_none,
        List.append_nil] at hpart
      exact .intro (ih part hpart).named (ih part hpart).inside

end Folio.Compile
