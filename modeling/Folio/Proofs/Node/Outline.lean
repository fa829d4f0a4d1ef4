import Folio.Node.Basic
import Mathlib.Data.List.Basic

/-!
# The outline of a document

The chapters and sections of a node, each with those that stand below it, in the order in which they
are compiled: a chapter before what it contains, a title before what follows it, and the rows of a
table before its header. Chapters are numbered through, and sections within the chapter or section
that is next around them.
-/
namespace Folio

inductive Heading where
  | chapter (number : Nat) (inside : List Heading)
  | subsection (number : List Nat) (inside : List Heading)

namespace Node

variable {α : Type}

mutual

/-- The outermost chapters and sections of a node. -/
@[simp] def outline : Node α → List Heading
  | paragraph _ children | phrase _ children => outlineOfNodes children
  | list _ items => outlineOfItems items
  | table _ header rows | gridTable _ header rows => outlineOfRows rows ++ outlineOfCells header
  | cell c | gridCell c => outlineOfCell c
  | anchor _ _ content => outline content
  | chapter number title children => [.chapter number (outline title ++ outlineOfNodes children)]
  | subsection number _ title children =>
    [.subsection number (outline title ++ outlineOfNodes children)]
  | reference _ target => outline target
  | text _ | subscript _ | superscript _ | image _ | chart _ | vectorGraphic _ | note .. | rule _
  | spacer .. | rectangle _ => []

@[simp] def outlineOfNodes : List (Node α) → List Heading
  | [] => []
  | n :: ns => outline n ++ outlineOfNodes ns

@[simp] def outlineOfCell : Cell α → List Heading
  | .mk _ content => outline content

@[simp] def outlineOfCells : List (Cell α) → List Heading
  | [] => []
  | c :: cs => outlineOfCell c ++ outlineOfCells cs

@[simp] def outlineOfRows : List (List (Cell α)) → List Heading
  | [] => []
  | r :: rs => outlineOfCells r ++ outlineOfRows rs

@[simp] def outlineOfItem : ListItem α → List Heading
  | .chunk node | .phrase node => outline node

@[simp] def outlineOfItems : List (ListItem α) → List Heading
  | [] => []
  | i :: is => outlineOfItem i ++ outlineOfItems is

end

theorem outlineOfNodes_eq (ns : List (Node α)) : outlineOfNodes ns = ns.flatMap outline := by
  induction ns with
  | nil => simp
  | cons n ns ih => simp [ih]

theorem outlineOfCells_eq (cs : List (Cell α)) : outlineOfCells cs = cs.flatMap outlineOfCell := by
  induction cs with
  | nil => simp
  | cons c cs ih => simp [ih]

theorem outlineOfRows_eq (rs : List (List (Cell α))) :
    outlineOfRows rs = rs.flatMap outlineOfCells := by
  induction rs with
  | nil => simp
  | cons r rs ih => simp [ih]

theorem outlineOfItems_eq (is : List (ListItem α)) :
    outlineOfItems is = is.flatMap outlineOfItem := by
  induction is with
  | nil => simp
  | cons i is ih => simp [ih]

end Node

namespace Heading

def inside : Heading → List Heading
  | chapter _ inside | subsection _ inside => inside

mutual

/-- The numbers of all chapters, each before those that stand below it. -/
def chapters : Heading → List Nat
  | chapter number inside => number :: chaptersOf inside
  | subsection _ inside => chaptersOf inside

def chaptersOf : List Heading → List Nat
  | [] => []
  | h :: hs => chapters h ++ chaptersOf hs

end

/-- The numbers of the sections that stand at the top. -/
def sections : List Heading → List (List Nat)
  | [] => []
  | chapter _ _ :: hs => sections hs
  | subsection number _ :: hs => number :: sections hs

def IsSection : Heading → Prop
  | chapter _ _ => False
  | subsection _ _ => True

/-- A heading stands among others or, at any depth, below one of them; all that are around it have
the property. -/
inductive Under (around : Heading → Prop) (h : Heading) : List Heading → Prop
  | top {hs : List Heading} (hmem : h ∈ hs) : Under around h hs
  | deeper {g : Heading} {hs : List Heading} (hmem : g ∈ hs) (haround : around g)
      (hdeeper : Under around h g.inside) : Under around h hs

abbrev Among (h : Heading) (hs : List Heading) : Prop := Under (fun _ => True) h hs

/-- The heading stands among the others without a chapter around it. -/
abbrev Loose (h : Heading) (hs : List Heading) : Prop := Under IsSection h hs

/-- The numbers `number.start`, `number.(start + 1)` and so on. -/
def countFrom (number : List Nat) (start count : Nat) : List (List Nat) :=
  (List.range' start count).map fun j => number ++ [j]

/-- Below a heading of the number the sections count from one, and so at any depth do the sections
below each of them. -/
inductive Counted : List Nat → List Heading → Prop
  | intro {number : List Nat} {hs : List Heading}
      (hcount : sections hs = countFrom number 1 (sections hs).length)
      (hdeeper : ∀ other inside, subsection other inside ∈ hs → Counted other inside) :
      Counted number hs

@[simp] theorem chaptersOf_append (hs gs : List Heading) :
    chaptersOf (hs ++ gs) = chaptersOf hs ++ chaptersOf gs := by
  induction hs with
  | nil => simp [chaptersOf]
  | cons h hs ih => simp [chaptersOf, ih]

@[simp] theorem sections_append (hs gs : List Heading) :
    sections (hs ++ gs) = sections hs ++ sections gs := by
  induction hs with
  | nil => simp [sections]
  | cons h hs ih => cases h <;> simp [sections, ih]

theorem under_append {around : Heading → Prop} {h : Heading} {hs gs : List Heading} :
    Under around h (hs ++ gs) ↔ Under around h hs ∨ Under around h gs := by
  constructor
  · intro hall
    cases hall with
    | top hmem => exact (List.mem_append.mp hmem).imp .top .top
    | deeper hmem haround hdeeper =>
      exact (List.mem_append.mp hmem).imp (.deeper · haround hdeeper) (.deeper · haround hdeeper)
  · rintro (hleft | hright)
    · cases hleft with
      | top hmem => exact .top (List.mem_append_left _ hmem)
      | deeper hmem haround hdeeper => exact .deeper (List.mem_append_left _ hmem) haround hdeeper
    · cases hright with
      | top hmem => exact .top (List.mem_append_right _ hmem)
      | deeper hmem haround hdeeper => exact .deeper (List.mem_append_right _ hmem) haround hdeeper

theorem under_singleton {around : Heading → Prop} {h g : Heading} :
    Under around h [g] ↔ h = g ∨ around g ∧ Under around h g.inside := by
  constructor
  · intro hall
    cases hall with
    | top hmem => exact .inl (List.mem_singleton.mp hmem)
    | deeper hmem haround hdeeper =>
      rw [List.mem_singleton.mp hmem] at haround hdeeper
      exact .inr ⟨haround, hdeeper⟩
  · rintro (rfl | ⟨haround, hdeeper⟩)
    · exact .top List.mem_cons_self
    · exact .deeper List.mem_cons_self haround hdeeper

theorem countFrom_append (number : List Nat) (start count more : Nat) :
    countFrom number start count ++ countFrom number (start + count) more =
      countFrom number start (count + more) := by
  rw [countFrom, countFrom, ← List.map_append, List.range'_append_1]
  rfl

end Heading

end Folio
