import Folio.Proofs.Compile.Keepable
import Folio.Proofs.Compile.WellFormed

/-!
# What a rule accepts

Each rule of the compiler accepts its element exactly if the element has the right shape and the
parts are accepted; there is one lemma for each. What is accepted may still fail, but only with an
excuse, as a colour that cannot be read is one.
-/
namespace Folio.Compile

open Style Markup

variable {α β γ : Type} {F : CompileError → Prop} {P R : Prop} {Q : β → Prop}

/-- A run that succeeds only if `P` holds, and then with `Q`; if `P` holds it fails only with an
excuse. -/
def Judges (F : CompileError → Prop) (P : Prop) (Q : β → Prop) (act : CompileM α β) : Prop :=
  Keeps (fun _ => True) (fun e => P → F e) (fun b => P ∧ Q b) act

theorem judges_pure {b : β} (hp : P) (h : Q b) : Judges F P Q (pure b : CompileM α β) :=
  keeps_pure ⟨hp, h⟩

theorem judges_throw {e : CompileError} (h : ¬P) : Judges F P Q (throw e : CompileM α β) :=
  keeps_throw fun hp => absurd hp h

theorem judges_invalid {fault : NodeFault} {node : Json} (h : ¬P) :
    Judges F P Q (invalid fault node : CompileM α β) := judges_throw h

theorem Judges.iff {act : CompileM α β} (h : Judges F P Q act) (hiff : P ↔ R) : Judges F R Q act :=
  Keeps.mono h (fun _ he hr => he (hiff.mpr hr)) fun _ hb => ⟨hiff.mp hb.1, hb.2⟩

theorem Judges.weaken {T : β → Prop} {act : CompileM α β} (h : Judges F P Q act)
    (hvalue : ∀ b, Q b → T b) : Judges F P T act :=
  Keeps.weaken h fun b hb => ⟨hb.1, hvalue b hb.2⟩

theorem Judges.excuse {G : CompileError → Prop} {act : CompileM α β} (h : Judges F P Q act)
    (hexcuse : ∀ e, F e → G e) : Judges G P Q act :=
  Keeps.mono h (fun e he hp => hexcuse e (he hp)) fun _ hb => hb

theorem Judges.bind {T : γ → Prop} {act : CompileM α β} {next : β → CompileM α γ}
    (h : Judges F P Q act) (k : ∀ b, Q b → Judges F R T (next b)) :
    Judges F (P ∧ R) T (act >>= next) := by
  have hfirst : Keeps (fun _ => True) (fun e => P ∧ R → F e) (fun b => P ∧ Q b) act :=
    Keeps.mono h (fun _ he hpr => he hpr.1) fun _ hb => hb
  exact hfirst.bind fun b hb =>
    Keeps.mono (k b hb.2) (fun _ he hpr => he hpr.2) fun _ hc => ⟨⟨hb.1, hc.1⟩, hc.2⟩

/-- What runs afterwards is always accepted. -/
theorem Judges.andThen {T : γ → Prop} {act : CompileM α β} {next : β → CompileM α γ}
    (h : Judges F P Q act) (k : ∀ b, Q b → Judges F True T (next b)) :
    Judges F P T (act >>= next) := (h.bind k).iff (iff_of_eq (and_true P))

/-- What runs before is always accepted. -/
theorem Judges.before {T : γ → Prop} {act : CompileM α β} {next : β → CompileM α γ}
    (h : Judges F True Q act) (k : ∀ b, Q b → Judges F P T (next b)) :
    Judges F P T (act >>= next) := (h.bind k).iff (iff_of_eq (true_and P))

theorem Judges.map {T : γ → Prop} {act : CompileM α β} {f : β → γ} (h : Judges F P Q act)
    (hf : ∀ b, Q b → T (f b)) : Judges F P T (act >>= fun b => pure (f b)) :=
  h.andThen fun b hb => judges_pure trivial (hf b hb)

theorem judges_mapM {p : γ → Prop} {q : γ → β → Prop} {f : γ → CompileM α β} {xs : List γ}
    (h : ∀ x ∈ xs, Judges F (p x) (q x) (f x)) :
    Judges F (∀ x ∈ xs, p x) (List.Forall₂ q xs) (xs.mapM f) := by
  induction xs with
  | nil => exact judges_pure nofun .nil
  | cons x xs ih =>
    rw [List.mapM_cons]
    have hrest := ih fun z hz => h z (List.mem_cons_of_mem x hz)
    refine ((h x List.mem_cons_self).bind fun y hy =>
      hrest.map fun ys hys => List.Forall₂.cons hy hys).iff ?_
    simp

theorem judges_modifyGet {f : State α → β × State α} :
    Judges F True (fun _ => True) (modifyGet f : CompileM α β) :=
  keeps_modifyGet fun _ _ => ⟨⟨trivial, trivial⟩, trivial⟩

theorem judges_within {enter leave : State α → State α} {act : CompileM α β}
    (h : Judges F P Q act) : Judges F P Q (within enter leave act) :=
  keeps_within h (fun _ _ => trivial) fun _ _ => trivial

/-! ## Colours and fonts -/

/-- A colour that cannot be read is an excuse as far as it can be blamed on something. -/
def Forgives (F : CompileError → Prop) (blame : Prop) : Prop := ∀ fault, blame → F (.color fault)

variable {blame : Prop}

theorem judges_ofColor (hF : Forgives F blame) {r : Except Color.Fault β}
    (h : ∀ fault, r = .error fault → blame) :
    Judges F True (fun _ => True) (ofColor r : CompileM α β) := by
  cases r with
  | ok b => exact judges_pure trivial trivial
  | error fault => exact keeps_throw fun _ => hF fault (h fault rfl)

theorem judges_colorOf? (hF : Forgives F blame) {context : Context} (hc : Blames blame context)
    (key : String) :
    Judges F True (fun _ => True) (colorOf? context key : CompileM α (Option Color)) :=
  judges_ofColor hF fun _ h => hc (cutsColorFields_of_color? h)

theorem judges_firstColor? (hF : Forgives F blame) {context : Context} (hc : Blames blame context)
    (first second : String) :
    Judges F True (fun _ => True) (firstColor? context first second : CompileM α _) := by
  refine (judges_colorOf? hF hc first).before fun color _ => ?_
  cases color with
  | some color => exact judges_pure trivial trivial
  | none => exact judges_colorOf? hF hc second

variable [Scalar α]

theorem judges_fontOf (hF : Forgives F blame) {context : Context} (hc : Blames blame context) :
    Judges F True (fun _ => True) (fontOf context : CompileM α (Font α)) :=
  judges_ofColor hF fun _ h => hc (cutsColorFields_of_font h)

end Folio.Compile
