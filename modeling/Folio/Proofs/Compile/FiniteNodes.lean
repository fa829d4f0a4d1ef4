import Folio.Proofs.Compile.Keeps
import Folio.Proofs.Compile.Parts
import Folio.Proofs.Flow.Measured

/-!
# Finite markup compiles to finite nodes

Every size of a node is read from a number or a text in the context, is one of the defaults, or is
calculated from such. If no number and no text of the markup, the classes and the references writes
anything but a finite number, all measures of the nodes are finite. Two divisions need an argument:
an image is scaled by the area it overflows, and a size that is said for one axis goes for the other
in proportion.
-/
namespace Folio

open Style Markup

/-- Neither a number inside the value nor a text that can be read as a number is anything but a
finite number. -/
inductive Json.Finite : Json → Prop
  | null : Finite .null
  | bool (b : Bool) : Finite (.bool b)
  | number {n : Number} (h : ∀ x ∈ (scalarOf? (.number n) : Option Extended), x.Finite) :
      Finite (.number n)
  | string {s : String} (h : ∀ x ∈ (scalarOf? (.string s) : Option Extended), x.Finite) :
      Finite (.string s)
  | array {items : List Json} (h : ∀ item ∈ items, Finite item) : Finite (.array items)
  | object {fields : Fields} (h : ∀ entry ∈ fields, Finite entry.2) : Finite (.object fields)

theorem Json.Finite.scalar {v : Json} (h : v.Finite) : ∀ x ∈ (scalarOf? v : Option Extended),
    x.Finite := by
  cases h with
  | number h => exact h
  | string h => exact h
  | null | bool _ | array _ | object _ => exact nofun

theorem Json.Finite.inside {v w : Json} (h : v.Finite) (hw : Inside w v) : w.Finite := by
  induction hw with
  | item hmem =>
    cases h with
    | array h => exact h _ hmem
  | field hmem hx =>
    cases h with
    | object h => exact hx ▸ h _ hmem
  | trans _ _ ih ik => exact ih (ik h)

/-! ## Contexts -/

def Style.Context.Finite (c : Context) : Prop := ∀ entry ∈ c.attrs, entry.2.Finite

namespace Style.Context.Finite

variable {c : Context}

theorem get? (h : c.Finite) {key : String} {v : Json} (hv : c.get? key = some v) : v.Finite :=
  h _ (mem_of_get? hv)

theorem scalar? (h : c.Finite) (key : String) : ∀ x ∈ (c.scalar? key : Option Extended),
    x.Finite := by
  intro x hx
  obtain ⟨v, hv, hread⟩ := Option.bind_eq_some_iff.mp hx
  exact (h.get? hv).scalar x hread

theorem fields? (h : c.Finite) {key : String} {fs : Fields} (hfs : c.fields? key = some fs) :
    ∀ entry ∈ fs, entry.2.Finite := by
  obtain ⟨v, hv, hread⟩ := Option.bind_eq_some_iff.mp hfs
  have hvalue := h.get? hv
  cases hvalue with
  | object hentries => exact Option.some.inj hread ▸ hentries
  | _ => cases hread

theorem merge (h : c.Finite) {overlay : Fields} (hoverlay : ∀ entry ∈ overlay, entry.2.Finite) :
    (c.merge overlay).Finite := forall_mem_merge h hoverlay

theorem without (h : c.Finite) (keys : List String) : (c.without keys).Finite :=
  fun e he => h e (mem_without he)

theorem inheritable (h : c.Finite) : c.inheritable.Finite := h.without _

theorem resolve (h : c.Finite) {sheet : Sheet}
    (hsheet : ∀ named ∈ sheet.classes, ∀ entry ∈ named.2, entry.2.Finite) (classes : List String)
    {inlined : Option Fields} (hinlined : ∀ entry ∈ inlined.getD [], entry.2.Finite) :
    (Style.resolve c sheet classes inlined).Finite :=
  forall_mem_resolve h hsheet classes hinlined

theorem font (h : c.Finite) {font : Font Extended} (hfont : Font.ofContext c = .ok font) :
    font.size.Finite := by
  have hsize := Extended.finite_getD (h.scalar? "size") Font.finite_standard
  unfold Font.ofContext Font.overriddenBy at hfont
  simp only at hfont
  cases hcolor : Context.color? c "color" with
  | error fault =>
    simp only [hcolor] at hfont
    cases hfont
  | ok color =>
    simp only [hcolor] at hfont
    exact Except.ok.inj hfont ▸ hsize

end Style.Context.Finite

namespace Compile

/-! ## Runs that keep the table finite -/

/-- Everything that is stored is finite. -/
def HoldsFinite (s : State Extended) : Prop := ∀ entry ∈ s.cache.entries, entry.2.Finite

/-- A run that keeps the table finite and whose result, if there is one, has `Q`. -/
abbrev Delivers {β : Type} (Q : β → Prop) (act : CompileM Extended β) : Prop :=
  Keeps HoldsFinite (fun _ => True) Q act

variable {c : Context}

theorem delivers_invalid {β : Type} {Q : β → Prop} {fault : NodeFault} {node : Json} :
    Delivers Q (invalid fault node) := keeps_throw trivial

theorem delivers_memo {key : Cache.Key} {compute : CompileM Extended (Node Extended)}
    (h : Delivers Node.Finite compute) : Delivers Node.Finite (memo key compute) := by
  refine keeps_memo (fun s n hs hfind => ?_) (fun _ _ _ hs => hs) (fun s n hs hn => ?_) h
  · obtain ⟨found, hmem, -⟩ := mem_of_find? hfind
    exact hs _ hmem
  · exact List.forall_mem_append.mpr ⟨hs, List.forall_mem_singleton.mpr hn⟩

theorem delivers_ofColor {β : Type} {Q : β → Prop} {r : Except Color.Fault β}
    (h : ∀ b, r = .ok b → Q b) : Delivers Q (ofColor r) := by
  cases r with
  | ok b => exact keeps_pure (h b rfl)
  | error fault => exact keeps_throw trivial

theorem delivers_colorOf? (c : Context) (key : String) :
    Delivers (fun _ => True) (colorOf? c key : CompileM Extended (Option Color)) :=
  delivers_ofColor fun _ _ => trivial

theorem delivers_firstColor? (c : Context) (first second : String) :
    Delivers (fun _ => True) (firstColor? c first second : CompileM Extended (Option Color)) := by
  refine (delivers_colorOf? c first).bind fun color _ => ?_
  cases color with
  | some color => exact keeps_pure trivial
  | none => exact delivers_colorOf? c second

theorem delivers_fontOf (hc : c.Finite) :
    Delivers (fun font : Font Extended => font.size.Finite) (fontOf c) :=
  delivers_ofColor fun _ hfont => hc.font hfont

/-- Elements of a list that are computed one after the other. -/
theorem delivers_mapM {β γ : Type} {Q : β → Prop} {f : γ → CompileM Extended β} {xs : List γ}
    (h : ∀ x ∈ xs, Delivers Q (f x)) : Delivers (fun ys => ∀ y ∈ ys, Q y) (xs.mapM f) := by
  refine (keeps_mapM (Q := fun _ y => Q y) h).weaken fun ys hys => ?_
  induction hys with
  | nil => exact List.forall_mem_nil _
  | cons hy _ ih =>
    exact List.forall_mem_cons.mpr ⟨hy, ih fun x hx => h x (List.mem_cons_of_mem _ hx)⟩

/-! ## Text -/

theorem delivers_textRun (hc : c.Finite) (text : String) :
    Delivers (fun run : TextRun Extended => run.font.size.Finite) (textRun text c) := by
  refine (delivers_fontOf hc).bind fun font hfont => ?_
  exact (delivers_colorOf? c "background").map fun _ _ => hfont

theorem delivers_textNode (hc : c.Finite) (text : String) :
    Delivers Node.Finite (textNode text c) :=
  (delivers_textRun hc text).map fun _ hrun => .text hrun

theorem delivers_scriptRun (hc : c.Finite) (text : String) :
    Delivers (fun run : TextRun Extended => run.font.size.Finite) (scriptRun text c) :=
  (delivers_textRun hc text).map fun run hrun => by simp [Font.withSize, scriptScale, hrun]

theorem delivers_leafText (e : Element) :
    Delivers (fun _ => True) (leafText e : CompileM Extended String) := by
  unfold leafText
  split
  · exact keeps_pure trivial
  · exact delivers_invalid

theorem delivers_compileSubscript (hc : c.Finite) (e : Element) :
    Delivers Node.Finite (compileSubscript e c) :=
  (delivers_leafText e).bind fun text _ =>
    (delivers_scriptRun hc text).map fun _ hrun => .subscript hrun

theorem delivers_compileSuperscript (hc : c.Finite) (e : Element) :
    Delivers Node.Finite (compileSuperscript e c) :=
  (delivers_leafText e).bind fun text _ =>
    (delivers_scriptRun hc text).map fun _ hrun => .superscript hrun

theorem delivers_compileChunk (hc : c.Finite) (e : Element) :
    Delivers Node.Finite (compileChunk e c) := by
  refine (delivers_leafText e).bind fun text _ => ?_
  split
  · exact (delivers_scriptRun hc text).map fun _ hrun => .superscript hrun
  · split
    · exact (delivers_scriptRun hc text).map fun _ hrun => .subscript hrun
    · exact delivers_textNode hc text

theorem delivers_compileNote (e : Element) (c : Context) :
    Delivers Node.Finite (compileNote e c : CompileM Extended (Node Extended)) :=
  (delivers_leafText e).map fun _ _ => .note ..

/-! ## Blocks -/

/-- Finite markup is compiled to finite nodes. -/
def KeepsFinite (compile : Compiling Extended) : Prop :=
  ∀ node context, node.Finite → context.Finite → Delivers Node.Finite (compile node context)

variable {compile : Compiling Extended} {e : Element}

theorem delivers_compileChildren (h : KeepsFinite compile) {children : List Json}
    (hchildren : ∀ child ∈ children, child.Finite) (hc : c.Finite) :
    Delivers (fun ns => ∀ n ∈ ns, n.Finite) (compileChildren compile children c) :=
  delivers_mapM fun child hchild => h child _ (hchildren child hchild) hc.inheritable

theorem delivers_compilePhrase (h : KeepsFinite compile)
    (hchildren : ∀ child ∈ e.children, child.Finite) (hc : c.Finite) :
    Delivers Node.Finite (compilePhrase compile e c) := by
  refine (delivers_compileChildren h hchildren (hc.without _)).bind fun ns hns => ?_
  exact (delivers_fontOf hc).map fun _ hfont => .phrase hfont hns

theorem finite_blockStyle (hc : c.Finite) {font : Font Extended} (hfont : font.size.Finite) :
    (blockStyle font c).Finite := by
  have hmeasure (key : String) : ((c.scalar? key).getD 0 : Extended).Finite :=
    Extended.finite_getD (hc.scalar? key) (Extended.finite_ofNat 0)
  exact ⟨hfont, hc.scalar? "leading", hmeasure _, hmeasure _, hmeasure _, hmeasure _⟩

theorem delivers_compileParagraph (h : KeepsFinite compile)
    (hchildren : ∀ child ∈ e.children, child.Finite) (hc : c.Finite) :
    Delivers Node.Finite (compileParagraph compile e c) := by
  refine (delivers_compileChildren h hchildren (hc.without _)).bind fun ns hns => ?_
  exact (delivers_fontOf hc).map fun _ hfont => .paragraph (finite_blockStyle hc hfont) hns

theorem finite_headingDefaults : ∀ entry ∈ headingDefaults, entry.2.Finite := by
  have hsize : (Json.ofNat 18).Finite := .number fun x hx => Option.some.inj hx ▸ ⟨_, rfl⟩
  have hstyle : (Json.string "bold").Finite := .string (by decide +kernel)
  exact List.forall_mem_cons.mpr ⟨hsize, List.forall_mem_singleton.mpr hstyle⟩

theorem finite_headingContext (hc : c.Finite) : (headingContext c).Finite := by
  have hdefaults := hc.merge finite_headingDefaults
  unfold headingContext
  simp only
  split
  · next style hstyle => exact hdefaults.merge (hc.fields? hstyle)
  · exact hdefaults

theorem delivers_compileHeading (h : KeepsFinite compile)
    (hchildren : ∀ child ∈ e.children, child.Finite) (hc : c.Finite) :
    Delivers Node.Finite (compileHeading compile e c) := by
  have hstyled := finite_headingContext hc
  refine (delivers_compileChildren h hchildren (hstyled.without _)).bind fun ns hns => ?_
  exact (delivers_fontOf hstyled).map fun _ hfont => .paragraph (finite_blockStyle hc hfont) hns

theorem delivers_compileItem (h : KeepsFinite compile) {font : Font Extended}
    (hfont : font.size.Finite) (hc : c.Finite) {child : Json} (hchild : child.Finite) :
    Delivers (fun item : ListItem Extended => item.node.Finite)
      (compileItem compile font c child) := by
  unfold compileItem
  split
  · next text _ => exact (delivers_textNode hc text).map fun _ hn => hn
  · refine (h child c hchild hc).bind fun n hn => ?_
    split
    · exact keeps_pure hn
    · exact keeps_pure (.phrase hfont (List.forall_mem_singleton.mpr hn))

theorem delivers_compileList (h : KeepsFinite compile)
    (hchildren : ∀ child ∈ e.children, child.Finite) (hc : c.Finite) :
    Delivers Node.Finite (compileList compile e c) := by
  refine (delivers_fontOf hc).bind fun font hfont => ?_
  have hitems := delivers_mapM fun child hchild =>
    delivers_compileItem h hfont hc.inheritable (hchildren child hchild)
  refine hitems.map fun items hitems => .list hfont ?_ hitems
  exact Extended.finite_getD (hc.scalar? "indent") (Extended.finite_ofNat 0)

theorem delivers_anchorShape (hc : c.Finite) :
    Delivers (fun _ => True) (anchorShape c : CompileM Extended (AnchorShape Extended)) := by
  unfold anchorShape
  split
  · next style _ hstyle _ =>
    exact (delivers_fontOf (hc.merge (hc.fields? hstyle))).map fun _ _ => trivial
  · exact keeps_pure trivial
  · next style hstyle _ =>
    exact (delivers_fontOf (hc.merge (hc.fields? hstyle))).map fun _ _ => trivial
  · exact keeps_pure trivial

theorem delivers_anchorBody (h : KeepsFinite compile)
    (hchildren : ∀ child ∈ e.children, child.Finite) (hc : c.Finite) :
    Delivers Node.Finite (anchorBody compile e c) := by
  refine (delivers_compileChildren h hchildren hc).bind fun ns hns => ?_
  split
  · exact keeps_pure (hns _ List.mem_cons_self)
  · exact (delivers_fontOf hc).map fun _ hfont => .phrase hfont hns

theorem delivers_compileAnchor (h : KeepsFinite compile)
    (hchildren : ∀ child ∈ e.children, child.Finite) (hc : c.Finite) :
    Delivers Node.Finite (compileAnchor compile e c) := by
  refine (delivers_anchorShape hc).bind fun shape _ => ?_
  refine (delivers_anchorBody h hchildren ?_).map fun _ hn => .anchor hn
  split
  · next style hstyle => exact hc.merge (hc.fields? hstyle)
  · exact hc

/-! ## Chapters and sections -/

theorem delivers_compileTitled (h : KeepsFinite compile)
    (hchildren : ∀ child ∈ e.children, child.Finite) (hc : c.Finite) :
    Delivers (fun titled : Node Extended × List (Node Extended) =>
      titled.1.Finite ∧ ∀ n ∈ titled.2, n.Finite) (compileTitled compile e c) := by
  unfold compileTitled
  split
  · exact delivers_invalid
  · next title rest hall =>
    rw [hall] at hchildren
    refine (h title _ (hchildren title List.mem_cons_self) hc.inheritable).bind fun n hn => ?_
    have hrest := delivers_compileChildren h
      (fun child hchild => hchildren child (List.mem_cons_of_mem title hchild)) hc
    exact hrest.map fun ns hns => ⟨hn, hns⟩

theorem delivers_withinFrame {β : Type} {Q : β → Prop} {act : CompileM Extended β}
    (h : Delivers Q act) (number : List ℕ) : Delivers Q (withinFrame number act) :=
  keeps_within h (fun _ hs => hs) fun _ hs => hs

theorem delivers_compileChapter (h : KeepsFinite compile)
    (hchildren : ∀ child ∈ e.children, child.Finite) (hc : c.Finite) :
    Delivers Node.Finite (compileChapter compile e c) := by
  refine Keeps.bind (P := fun _ => True) (keeps_modifyGet fun _ hs => ⟨trivial, hs⟩)
    fun number _ => ?_
  refine (delivers_withinFrame (delivers_compileTitled h hchildren hc) [number]).bind
    fun titled ht => ?_
  exact keeps_pure (.chapter ht.1 ht.2)

theorem delivers_compileSection (h : KeepsFinite compile)
    (hchildren : ∀ child ∈ e.children, child.Finite) (hc : c.Finite) :
    Delivers Node.Finite (compileSection compile e c) := by
  have hnumber : Delivers (fun _ => True) (nextSection : CompileM Extended (List ℕ)) := by
    refine keeps_modifyGet fun s hs => ⟨trivial, ?_⟩
    split
    · exact hs
    · exact hs
  have hindent := Extended.finite_getD (hc.scalar? "indent") (Extended.finite_ofNat 0)
  have htitled := delivers_compileTitled h hchildren hc
  refine hnumber.bind fun number _ => ?_
  split
  · exact htitled.bind fun _ ht => keeps_pure (.subsection hindent ht.1 ht.2)
  · exact (delivers_withinFrame htitled number).bind fun _ ht =>
      keeps_pure (.subsection hindent ht.1 ht.2)

end Compile

end Folio
