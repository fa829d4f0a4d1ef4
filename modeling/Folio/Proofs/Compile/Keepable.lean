import Folio.Proofs.Compile.Keeps
import Folio.Proofs.Compile.Parts

/-!
# What the compiler is to keep

Whatever the compiler is to keep of its state and its errors, texts of elements are put together
from texts of their parts. Every colour and every font that is read comes from the context, so an
unreadable one is to be blamed on it.
-/
namespace Folio.Compile

open Style Markup

variable {α : Type}

/-! ## Texts put together -/

/-- A text put together from texts of parts, each of which is one that its part may have. -/
inductive Built (G : Json → String → Prop) : List Json → String → Prop
  | nil : Built G [] ""
  | cons {part : Json} {parts : List Json} {text rest : String} (h : G part text)
      (hrest : Built G parts rest) : Built G (part :: parts) (text ++ rest)

variable {G : Json → String → Prop}

theorem built_singleton {part : Json} {text : String} : Built G [part] text ↔ G part text := by
  constructor
  · intro h
    cases h with
    | cons h hrest =>
      cases hrest
      simpa using h
  · intro h
    simpa using Built.cons h .nil

theorem Built.append {parts more : List Json} {text rest : String} (h : Built G parts text)
    (k : Built G more rest) : Built G (parts ++ more) (text ++ rest) := by
  induction h with
  | nil => simpa using k
  | cons h _ ih =>
    rw [String.append_assoc]
    exact .cons h ih

theorem Built.forall {parts : List Json} {text : String} (h : Built G parts text) :
    ∀ part ∈ parts, ∃ text, G part text := by
  induction h with
  | nil => nofun
  | cons h _ ih =>
    intro part hpart
    rcases List.mem_cons.mp hpart with rfl | hpart
    · exact ⟨_, h⟩
    · exact ih part hpart

theorem built_nodes {children : List Json} {nodes : List (Node α)}
    (h : List.Forall₂ (fun child n => G child n.textContent) children nodes) :
    Built G children (Node.textOfNodes nodes) := by
  induction h with
  | nil => exact .nil
  | cons h _ ih =>
    rw [Node.textOfNodes_cons]
    exact .cons h ih

theorem built_items {children : List Json} {items : List (ListItem α)}
    (h : List.Forall₂ (fun child i => G child (Node.textOfItem i)) children items) :
    Built G children (Node.textOfItems items) := by
  induction h with
  | nil => exact .nil
  | cons h _ ih =>
    simp only [Node.textOfItems]
    exact .cons h ih

theorem built_cells {entries : List Json} {cells : List (Cell α)} {f : Json → Json}
    (h : List.Forall₂ (fun entry c => G (f entry) (Node.textOfCell c)) entries cells) :
    Built G (entries.map f) (Node.textOfCells cells) := by
  induction h with
  | nil => exact .nil
  | cons h _ ih =>
    simp only [Node.textOfCells]
    exact .cons h ih

theorem built_rows {rows : List Json} {cells : List (List (Cell α))}
    (h : List.Forall₂ (fun row cs => Built G (row.asItems?.getD []) (Node.textOfCells cs))
      rows cells) : Built G (rowParts rows) (Node.textOfRows cells) := by
  induction h with
  | nil => exact .nil
  | cons h _ ih =>
    simp only [Node.textOfRows]
    exact h.append ih

/-! ## What a step may rely on -/

/-- Errors that one element makes by itself; `blame` says where an unreadable colour comes from. -/
def OwnError (blame : Prop) : CompileError → Prop
  | .endless | .referenceCycle _ _ => False
  | .color _ => blame
  | _ => True

/-- What the compiler is to keep: a property of its state, of its errors, and of a raw node with its
text. -/
structure Keepable (blame : Prop) (I : State α → Prop) (E : CompileError → Prop)
    (G : Json → String → Prop) : Prop where
  own : ∀ {e}, OwnError blame e → E e
  leaf : ∀ {node text}, leafText? node = some text → G node text
  frame : ∀ {s t}, I s → t.cache.entries = s.cache.entries → t.resolving = s.resolving → I t
  stored : ∀ {s digest node context n}, I s →
    s.cache.find? (.structural digest node context) = some n → n.textContent = ""
  store : ∀ {s digest node context n}, I s → n.textContent = "" →
    I { s with cache := { s.cache with
      entries := s.cache.entries ++ [(.structural digest node context, n)] } }

/-- A context holds an unreadable colour only if `blame` says so. -/
def Blames (blame : Prop) (context : Context) : Prop := cutsColorFields context.attrs → blame

theorem Blames.without {blame : Prop} {c : Context} (h : Blames blame c) (keys : List String) :
    Blames blame (c.without keys) := fun hc => h (cutsColorFields_without hc)

theorem Blames.inheritable {blame : Prop} {c : Context} (h : Blames blame c) :
    Blames blame c.inheritable := h.without _

theorem Blames.merge {blame : Prop} {c : Context} (h : Blames blame c) {overlay : Fields}
    (k : cutsColorFields overlay → blame) : Blames blame (c.merge overlay) := by
  intro hc
  rcases cutsColorFields_merge hc with hc | hc
  · exact h hc
  · exact k hc

/-- The attributes of a header entry stand in the entry. -/
theorem Blames.mergeEntry {blame : Prop} {c : Context} (h : Blames blame c) {content : Json}
    {inlined : Fields} (k : cutsColor (.array [content, .object inlined]) → blame) :
    Blames blame (c.merge inlined) := by
  refine h.merge fun hcut => k ?_
  simp [cutsColor, cutsColorItems, hcut]

theorem Blames.fields? {blame : Prop} {c : Context} (h : Blames blame c) {key : String}
    {fields : Fields} (k : c.fields? key = some fields) : cutsColorFields fields → blame := by
  intro hc
  obtain ⟨v, hv, hfields⟩ := Option.bind_eq_some_iff.mp k
  refine h (cutsColorFields_of_get? hv ?_)
  cases v with
  | object fs =>
    rw [Option.some.inj hfields]
    exact hc
  | _ => cases hfields

section

variable {blame : Prop} {I : State α → Prop} {E : CompileError → Prop}

/-- Parts that compile as they are to do below every context that is hidden from them. -/
def Handles (env : Env α) (blame : Prop) (I : State α → Prop) (E : CompileError → Prop)
    (G : Json → String → Prop) (compile : Compiling α) (parts : List Json) : Prop :=
  ∀ part ∈ parts, ∀ context, Blames blame context → Hides env context part →
    Keeps I E (fun n => G part n.textContent) (compile part context)

variable {env : Env α} {compile : Compiling α}

theorem Handles.of_subset {parts more : List Json} (h : Handles env blame I E G compile more)
    (hsub : ∀ part ∈ parts, part ∈ more) : Handles env blame I E G compile parts :=
  fun part hpart => h part (hsub part hpart)

theorem Handles.singleton {parts : List Json} (h : Handles env blame I E G compile parts)
    {part : Json} (hpart : part ∈ parts) : Handles env blame I E G compile [part] :=
  h.of_subset fun other hother => by
    rw [List.mem_singleton.mp hother]
    exact hpart

theorem Handles.inheritable {parts : List Json} (h : Handles env blame I E G compile parts)
    {part : Json} (hpart : part ∈ parts) {context : Context} (hc : Blames blame context) :
    Keeps I E (fun n => G part n.textContent) (compile part context.inheritable) :=
  h part hpart _ hc.inheritable (hides_inheritable env context part)

theorem keeps_invalid (keeps : Keepable blame I E G) {β : Type} {Q : β → Prop} {fault : NodeFault}
    {node : Json} : Keeps I E Q (invalid fault node) := keeps_throw (keeps.own trivial)

/-! ## Colours and fonts -/

theorem keeps_ofColor (keeps : Keepable blame I E G) {β : Type} {r : Except Color.Fault β}
    (h : ∀ fault, r = .error fault → blame) : Keeps I E (fun _ => True) (ofColor r) := by
  cases r with
  | ok b => exact keeps_pure trivial
  | error fault => exact keeps_throw (keeps.own (h fault rfl))

theorem keeps_colorOf? (keeps : Keepable blame I E G) {context : Context}
    (hc : Blames blame context) (key : String) :
    Keeps I E (fun _ => True) (colorOf? context key) :=
  keeps_ofColor keeps fun _ h => hc (cutsColorFields_of_color? h)

theorem keeps_firstColor? (keeps : Keepable blame I E G) {context : Context}
    (hc : Blames blame context) (first second : String) :
    Keeps I E (fun _ => True) (firstColor? context first second) := by
  refine (keeps_colorOf? keeps hc first).bind fun color _ => ?_
  cases color with
  | some color => exact keeps_pure trivial
  | none => exact keeps_colorOf? keeps hc second

variable [Scalar α]

theorem keeps_fontOf (keeps : Keepable blame I E G) {context : Context}
    (hc : Blames blame context) : Keeps I E (fun _ => True) (fontOf context) :=
  keeps_ofColor keeps fun _ h => hc (cutsColorFields_of_font h)

theorem keeps_textRun (keeps : Keepable blame I E G) {context : Context}
    (hc : Blames blame context) (text : String) :
    Keeps I E (fun run => run.text = text) (textRun text context) := by
  refine (keeps_fontOf keeps hc).bind fun font _ => ?_
  exact (keeps_colorOf? keeps hc "background").map fun _ _ => rfl

theorem keeps_textNode (keeps : Keepable blame I E G) {context : Context}
    (hc : Blames blame context) (text : String) :
    Keeps I E (fun n => n.textContent = text) (textNode text context) := by
  refine (keeps_textRun keeps hc text).map fun run hrun => ?_
  rw [Node.textContent_text]
  exact hrun

theorem keeps_scriptRun (keeps : Keepable blame I E G) {context : Context}
    (hc : Blames blame context) (text : String) :
    Keeps I E (fun run => run.text = text) (scriptRun text context) :=
  (keeps_textRun keeps hc text).map fun _ hrun => hrun

end

end Folio.Compile
