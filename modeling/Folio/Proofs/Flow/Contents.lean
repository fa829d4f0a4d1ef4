import Folio.Proofs.Flow.Laid

/-!
# The contents of pages

Every page is painted by a row of paints and covered once, when it is finished. Each of them saves
and restores the graphics state in pairs, begins and ends text in pairs with no path between, writes
text only in fonts that it adds to the page, and draws an image right behind adding it. The
operations of drawings are the only ones that come from outside, so nothing is said of them.
-/
namespace Folio.Flow

open Style Pdf

variable {α : Type}

/-! ## Saved states and open text -/

inductive Role where
  | save | restore | beginText | endText | path | other
  deriving DecidableEq, Repr

/-- Operators that begin, go on with, paint or clip to a path. -/
def pathOperators : List String :=
  ["m", "l", "c", "v", "y", "h", "re", "S", "s", "f", "F", "f*", "B", "B*", "b", "b*", "n", "W",
    "W*"]

def roleOf (operator : String) : Role :=
  if operator == "q" then .save
  else if operator == "Q" then .restore
  else if operator == "BT" then .beginText
  else if operator == "ET" then .endText
  else if pathOperators.contains operator then .path
  else .other

/-- How many states are saved, and is text open? -/
structure Pen where
  saved : Nat
  text : Bool
  deriving DecidableEq, Repr

/-- What an operator comes to; there is nothing to restore if nothing is saved, and where text is
open it can only be ended. -/
def Pen.step (p : Pen) : Role → Option Pen
  | .save => if p.text then none else some { p with saved := p.saved + 1 }
  | .restore => if p.text || p.saved == 0 then none else some { p with saved := p.saved - 1 }
  | .beginText => if p.text then none else some { p with text := true }
  | .endText => if p.text then some { p with text := false } else none
  | .path => if p.text then none else some p
  | .other => some p

def Pen.follow (p : Pen) : List (Operation α) → Option Pen
  | [] => some p
  | op :: ops => (p.step (roleOf op.operator)).bind fun p => p.follow ops

/-- However many states are saved before, as many are saved behind, and no text is open. -/
def Balanced (ops : List (Operation α)) : Prop :=
  ∀ saved, Pen.follow ⟨saved, false⟩ ops = some ⟨saved, false⟩

theorem follow_append (ops more : List (Operation α)) (p : Pen) :
    p.follow (ops ++ more) = (p.follow ops).bind fun p => p.follow more := by
  induction ops generalizing p with
  | nil => rfl
  | cons op ops ih =>
    simp only [List.cons_append, Pen.follow]
    cases p.step (roleOf op.operator) with
    | none => rfl
    | some q => exact ih q

theorem balanced_nil : Balanced ([] : List (Operation α)) := fun _ => rfl

theorem Balanced.append {ops more : List (Operation α)} (h : Balanced ops) (k : Balanced more) :
    Balanced (ops ++ more) := by
  intro saved
  rw [follow_append, h saved]
  exact k saved

/-- Between saving and restoring anything balanced may stand. -/
theorem Balanced.saved {ops : List (Operation α)} (h : Balanced ops) :
    Balanced (saveState :: ops ++ [restoreState]) := by
  intro saved
  have hsave : (⟨saved, false⟩ : Pen).step (roleOf "q") = some ⟨saved + 1, false⟩ := rfl
  rw [List.cons_append, Pen.follow]
  change ((⟨saved, false⟩ : Pen).step (roleOf "q")).bind _ = _
  rw [hsave, Option.bind_some, follow_append, h (saved + 1)]
  rfl

/-! ## Fonts and images -/

/-- Text is written only in the fonts, under their resource names. -/
def Writes (fonts : List String) (ops : List (Operation α)) : Prop :=
  ∀ op ∈ ops, op.operator = "Tf" →
    ∃ font ∈ fonts, ∃ size, op.operands = [Obj.nameOf (fontResourceName font), .real size]

theorem Writes.append {fonts : List String} {ops more : List (Operation α)} (h : Writes fonts ops)
    (k : Writes fonts more) : Writes fonts (ops ++ more) := by
  intro op hop
  rcases List.mem_append.mp hop with hop | hop
  · exact h op hop
  · exact k op hop

theorem Writes.mono {fonts more : List String} {ops : List (Operation α)} (h : Writes fonts ops)
    (hfonts : fonts ⊆ more) : Writes more ops := by
  intro op hop htf
  obtain ⟨font, hfont, hop⟩ := h op hop htf
  exact ⟨font, hfonts hfont, hop⟩

/-- The operations that draw images. -/
def imageDraws (ops : List (Operation α)) : List (Operation α) := ops.filter (·.operator == "Do")

@[simp] theorem imageDraws_append (ops more : List (Operation α)) :
    imageDraws (ops ++ more) = imageDraws ops ++ imageDraws more := by
  simp [imageDraws]

def drawImage (index : Nat) : Operation α := operation "Do" [Obj.nameOf (Canvas.imageName index)]

/-- Operations that leave everything as they find it, write in the fonts only and draw no image. -/
structure Plain (fonts : List String) (ops : List (Operation α)) : Prop where
  balanced : Balanced ops
  writes : Writes fonts ops
  images : imageDraws ops = []

namespace Plain

variable {fonts more : List String} {ops rest : List (Operation α)}

theorem nil : Plain fonts ([] : List (Operation α)) := ⟨balanced_nil, nofun, rfl⟩

theorem append (h : Plain fonts ops) (k : Plain fonts rest) : Plain fonts (ops ++ rest) :=
  ⟨h.balanced.append k.balanced, h.writes.append k.writes, by simp [h.images, k.images]⟩

theorem mono (h : Plain fonts ops) (hfonts : fonts ⊆ more) : Plain more ops :=
  ⟨h.balanced, h.writes.mono hfonts, h.images⟩

theorem saved (h : Plain fonts ops) : Plain fonts (saveState :: ops ++ [restoreState]) := by
  refine ⟨h.balanced.saved, ?_, ?_⟩
  · have hends (op : Operation α) (hop : op = saveState ∨ op = restoreState) :
        op.operator ≠ "Tf" := by
      rcases hop with rfl | rfl <;> simp [saveState, restoreState, operation]
    intro op hop htf
    rw [List.cons_append, List.mem_cons, List.mem_append, List.mem_singleton] at hop
    rcases hop with hop | hop | hop
    · exact absurd htf (hends op (.inl hop))
    · exact h.writes op hop htf
    · exact absurd htf (hends op (.inr hop))
  · have hsplit : saveState :: ops ++ [restoreState] = [saveState] ++ ops ++ [restoreState] := rfl
    rw [hsplit, imageDraws_append, imageDraws_append, h.images]
    rfl

theorem text (words baseFont : String) (size x y : α) (color : Rgb α) (h : baseFont ∈ fonts) :
    Plain fonts (textOperations words baseFont size x y color) := by
  refine ⟨fun _ => rfl, fun op hop htf => ?_, rfl⟩
  simp only [textOperations, List.mem_cons, List.not_mem_nil, or_false] at hop
  rcases hop with rfl | rfl | rfl | rfl | rfl | rfl
  · simp [operation] at htf
  · exact ⟨baseFont, h, size, rfl⟩
  all_goals simp [operation] at htf

/-- Operations none of which sets a font or draws an image. -/
theorem of_operators (hbalanced : Balanced ops)
    (hnone : (ops.all fun op => op.operator != "Tf" && op.operator != "Do") = true) :
    Plain fonts ops := by
  have hboth (op : Operation α) (hop : op ∈ ops) : op.operator ≠ "Tf" ∧ op.operator ≠ "Do" := by
    simpa using List.all_eq_true.mp hnone op hop
  refine ⟨hbalanced, fun op hop htf => absurd htf (hboth op hop).1, ?_⟩
  refine List.filter_eq_nil_iff.mpr fun op hop => ?_
  simpa using (hboth op hop).2

theorem line (start finish : α × α) (width : α) (color : Rgb α) (dash : Option (α × α)) :
    Plain fonts (lineOperations start finish width color dash) := by
  cases dash with
  | none => exact of_operators (fun _ => rfl) rfl
  | some dash => exact of_operators (fun _ => rfl) rfl

theorem box (x y width height : α) (fill stroke : Option (Rgb α)) :
    Plain fonts (boxOperations x y width height fill stroke) := by
  cases fill <;> cases stroke
  · exact nil
  all_goals exact of_operators (fun _ => rfl) rfl

end Plain

theorem mem_insertName {name other : String} {names : List String} :
    other ∈ insertName name names ↔ other = name ∨ other ∈ names := by
  induction names with
  | nil => simp [insertName]
  | cons k rest ih => grind [insertName]

/-- A page whose operations fit its fonts and its images. -/
structure Neat (c : Canvas α) : Prop where
  balanced : Balanced c.operations
  writes : Writes c.fonts c.operations
  /-- The first image that is drawn is the first one of the page, and so on. -/
  images : imageDraws c.operations = (List.range c.images.length).map fun i => drawImage (i + 1)

namespace Neat

variable {c : Canvas α}

theorem blank (number : Nat) : Neat (.blank number : Canvas α) := ⟨balanced_nil, nofun, rfl⟩

theorem draw (h : Neat c) {ops : List (Operation α)} (hops : Plain c.fonts ops) :
    Neat (c.draw ops) := by
  refine ⟨h.balanced.append hops.balanced, h.writes.append hops.writes, ?_⟩
  simpa [Canvas.draw, hops.images] using h.images

theorem useFont (h : Neat c) (name : String) : Neat (c.useFont name) :=
  ⟨h.balanced, h.writes.mono fun _ hfont => mem_insertName.mpr (.inr hfont), h.images⟩

theorem image (h : Neat c) (picture : EmbeddedImage) (b : Layout.Box α) :
    Neat ((c.addImage picture).2.draw (Layout.imageOperations (c.addImage picture).1 b)) := by
  refine ⟨h.balanced.append fun _ => rfl, h.writes.append ?_, ?_⟩
  · intro op hop htf
    simp only [Layout.imageOperations, List.mem_cons, List.not_mem_nil, or_false] at hop
    rcases hop with rfl | rfl | rfl | rfl <;> simp [saveState, restoreState, operation] at htf
  · simp only [Canvas.addImage, Canvas.draw, imageDraws_append, List.length_append,
      List.length_singleton, List.range_succ, List.map_append, List.map_singleton, h.images]
    rfl

theorem foldl_useFont (h : Neat c) (names : List String) : Neat (names.foldl Canvas.useFont c) :=
  List.foldlRecOn names _ h fun _ hc name _ => hc.useFont name

end Neat

theorem fonts_foldl_useFont (names : List String) (c : Canvas α) :
    names ⊆ (names.foldl Canvas.useFont c).fonts ∧
      c.fonts ⊆ (names.foldl Canvas.useFont c).fonts := by
  induction names generalizing c with
  | nil => exact ⟨List.nil_subset _, List.Subset.refl _⟩
  | cons name names ih =>
    obtain ⟨hnames, hfonts⟩ := ih (c.useFont name)
    refine ⟨List.cons_subset.mpr ⟨hfonts (mem_insertName.mpr (.inl rfl)), hnames⟩, ?_⟩
    exact fun font hfont => hfonts (mem_insertName.mpr (.inr hfont))

theorem foldl_useFont_draw (names : List String) (c : Canvas α) (ops : List (Operation α)) :
    names.foldl Canvas.useFont (c.draw ops) = (names.foldl Canvas.useFont c).draw ops := by
  induction names generalizing c with
  | nil => rfl
  | cons name names ih => exact ih (c.useFont name)

/-! ## Overlays -/

/-- What is drawn through the interface of overlays. -/
inductive Overlaid : Overlay α → Overlay α → Prop
  | refl (o : Overlay α) : Overlaid o o
  | text {o p : Overlay α} (h : Overlaid o p) (words baseFont : String) (size x y : α)
      (color : Rgb α) : Overlaid o (p.text words baseFont size x y color)
  | line {o p : Overlay α} (h : Overlaid o p) (start finish : α × α) (width : α) (color : Rgb α)
      (dash : Option (α × α)) : Overlaid o (p.line start finish width color dash)
  | box {o p : Overlay α} (h : Overlaid o p) (x y width height : α)
      (fill stroke : Option (Rgb α)) : Overlaid o (p.box x y width height fill stroke)

namespace Overlaid

variable {o p q : Overlay α}

theorem trans (h : Overlaid o p) (k : Overlaid p q) : Overlaid o q := by
  induction k with
  | refl => exact h
  | text _ words baseFont size x y color ih => exact ih.text words baseFont size x y color
  | line _ start finish width color dash ih => exact ih.line start finish width color dash
  | box _ x y width height fill stroke ih => exact ih.box x y width height fill stroke

theorem plain (h : Overlaid o p) (ho : Plain o.fonts o.operations) :
    Plain p.fonts p.operations := by
  induction h with
  | refl => exact ho
  | @text q h words baseFont size x y color ih =>
    refine (ih.mono fun font hfont => mem_insertName.mpr (.inr hfont)).append ?_
    exact .text words baseFont size x y color (mem_insertName.mpr (.inl rfl))
  | line _ start finish width color dash ih => exact ih.append (.line start finish width color dash)
  | box _ x y width height fill stroke ih => exact ih.append (.box x y width height fill stroke)

end Overlaid

theorem Neat.cover {c : Canvas α} (h : Neat c) {o : Overlay α} (ho : Overlaid .empty o) :
    Neat (c.cover o) := by
  have hplain : Plain o.fonts o.wrapped := (ho.plain .nil).saved
  unfold Canvas.cover
  split
  · exact h
  · rw [foldl_useFont_draw]
    exact (h.foldl_useFont o.fonts).draw (hplain.mono (fonts_foldl_useFont o.fonts c).1)

/-! ## Pages without drawings -/

/-- `bare` is the page without the operations that come from drawings: such may stand behind each of
its parts. -/
structure Apart (drawn : List (Operation α) → Prop) (c bare : Canvas α) : Prop where
  operations : ∃ parts : List (List (Operation α) × List (Operation α)),
    c.operations = parts.flatMap (fun part => part.1 ++ part.2) ∧
      bare.operations = parts.flatMap (·.1) ∧ ∀ part ∈ parts, part.2 = [] ∨ drawn part.2
  fonts : c.fonts = bare.fonts
  images : c.images = bare.images

namespace Apart

variable {drawn : List (Operation α) → Prop} {c bare : Canvas α}

theorem blank (number : Nat) : Apart drawn (.blank number : Canvas α) (.blank number) :=
  ⟨⟨[], rfl, rfl, nofun⟩, rfl, rfl⟩

/-- Operations of a drawing, between others. -/
theorem drawing (h : Apart drawn c bare) (front back : List (Operation α))
    {ops : List (Operation α)} (hops : ops = [] ∨ drawn ops) :
    Apart drawn (c.draw (front ++ ops ++ back)) (bare.draw (front ++ back)) := by
  obtain ⟨parts, hc, hbare, hparts⟩ := h.operations
  refine ⟨⟨parts ++ [(front, ops), (back, [])], ?_, ?_, fun part hpart => ?_⟩, h.fonts, h.images⟩
  · simp [Canvas.draw, hc]
  · simp [Canvas.draw, hbare]
  · simp only [List.mem_append, List.mem_cons, List.not_mem_nil, or_false] at hpart
    rcases hpart with hpart | rfl | rfl
    · exact hparts part hpart
    · exact hops
    · exact .inl rfl

theorem draw (h : Apart drawn c bare) (ops : List (Operation α)) :
    Apart drawn (c.draw ops) (bare.draw ops) := by
  simpa using h.drawing ops [] (.inl rfl)

theorem useFont (h : Apart drawn c bare) (name : String) :
    Apart drawn (c.useFont name) (bare.useFont name) :=
  ⟨h.operations, congrArg (insertName name) h.fonts, h.images⟩

theorem foldl_useFont (h : Apart drawn c bare) (names : List String) :
    Apart drawn (names.foldl Canvas.useFont c) (names.foldl Canvas.useFont bare) := by
  induction names generalizing c bare with
  | nil => exact h
  | cons name names ih => exact ih (h.useFont name)

theorem cover (h : Apart drawn c bare) (o : Overlay α) :
    Apart drawn (c.cover o) (bare.cover o) := by
  unfold Canvas.cover
  split
  · exact h
  · exact (h.draw o.wrapped).foldl_useFont o.fonts

end Apart

/-- A page that is neat when the operations that come from drawings are left out. -/
def Consistent (drawn : List (Operation α) → Prop) (c : Canvas α) : Prop :=
  ∃ bare, Apart drawn c bare ∧ Neat bare

namespace Consistent

variable {drawn : List (Operation α) → Prop} {c : Canvas α}

theorem blank (number : Nat) : Consistent drawn (.blank number : Canvas α) :=
  ⟨_, .blank number, .blank number⟩

/-- Links, notes and whether a page is used make no difference. -/
theorem congr (h : Consistent drawn c) {d : Canvas α} (hoperations : d.operations = c.operations)
    (hfonts : d.fonts = c.fonts) (himages : d.images = c.images) : Consistent drawn d := by
  obtain ⟨bare, hbare, hneat⟩ := h
  exact ⟨bare, ⟨hoperations ▸ hbare.operations, hfonts.trans hbare.fonts,
    himages.trans hbare.images⟩, hneat⟩

theorem cover (h : Consistent drawn c) {o : Overlay α} (ho : Overlaid .empty o) :
    Consistent drawn (c.cover o) := by
  obtain ⟨bare, hbare, hneat⟩ := h
  exact ⟨bare.cover o, hbare.cover o, hneat.cover ho⟩

end Consistent

/-! ## Paints -/

variable [Scalar α] {drawn : List (Operation α) → Prop}

/-- The paint without the operations that come from a drawing. -/
def Paint.bare : Paint α → Paint α
  | .drawing x y _ => .drawing x y []
  | p => p

theorem Neat.paint {c : Canvas α} (h : Neat c) (p : Paint α) : Neat (p.bare.on c) := by
  have htext (words : String) (font : Font α) (x y : α) : Neat (c.text words font x y) :=
    (h.useFont font.baseName).draw (.text words font.baseName font.size x y _
      (mem_insertName.mpr (.inl rfl)))
  cases p with
  | text words font x y => exact htext words font x y
  | fillBox b color => exact h.draw (.of_operators (fun _ => rfl) rfl)
  | strokeBox b color lineWidth => exact h.draw (.of_operators (fun _ => rfl) rfl)
  | line start finish width color dash => exact h.draw (.line start finish width _ dash)
  | image picture b => exact h.image picture b
  | drawing x y ops => exact h.draw (.of_operators (fun _ => rfl) rfl)
  | note remark => exact ⟨h.balanced, h.writes, h.images⟩

theorem Apart.on {c bare : Canvas α} (h : Apart drawn c bare) {p : Paint α}
    (hp : ∀ x y ops, p = .drawing x y ops → drawn ops) :
    Apart drawn (p.on c) (p.bare.on bare) := by
  cases p with
  | text words font x y => exact (h.useFont font.baseName).draw _
  | fillBox b color => exact h.draw _
  | strokeBox b color lineWidth => exact h.draw _
  | line start finish width color dash => exact h.draw _
  | image picture b =>
    have hname : (c.addImage picture).1 = (bare.addImage picture).1 := by
      simp [Canvas.addImage, h.images]
    have hadded : Apart drawn (c.addImage picture).2 (bare.addImage picture).2 :=
      ⟨h.operations, h.fonts, congrArg (· ++ [picture]) h.images⟩
    simp only [Paint.on, Paint.bare, hname]
    exact hadded.draw _
  | drawing x y ops =>
    have hops := hp x y ops rfl
    exact h.drawing [saveState, operation "cm" [.integer 1, .integer 0, .integer 0, .integer 1,
      .real x, .real y]] [restoreState] (.inr hops)
  | note remark => exact ⟨h.operations, h.fonts, h.images⟩

theorem runPaints_not_drawing {style : RunStyle α} {words : String} {left baseline width : α}
    {p : Paint α} (hp : p ∈ runPaints style words left baseline width) (x y : α)
    (ops : List (Operation α)) : p ≠ .drawing x y ops := by
  rintro rfl
  revert hp
  simp only [runPaints]
  cases style.background <;> cases style.font.style <;> simp

namespace Consistent

variable {c : Canvas α}

theorem on (h : Consistent drawn c) {p : Paint α}
    (hp : ∀ x y ops, p = .drawing x y ops → drawn ops) : Consistent drawn (p.on c) := by
  obtain ⟨bare, hbare, hneat⟩ := h
  exact ⟨p.bare.on bare, hbare.on hp, hneat.paint p⟩

theorem drawRun (h : Consistent drawn c) (style : RunStyle α) (words : String)
    (x baseline width : α) : Consistent drawn (c.drawRun style words x baseline width) := by
  have hpainted : Consistent drawn
      ((runPaints style words x baseline width).foldl (fun c p => p.on c) c) :=
    List.foldlRecOn _ _ h fun c hc p hp =>
      hc.on fun x y ops hdrawing => absurd hdrawing (runPaints_not_drawing hp x y ops)
  refine hpainted.congr ?_ ?_ ?_ <;>
    · unfold Canvas.drawRun
      cases runLink style x baseline width <;> rfl

end Consistent

end Folio.Flow
