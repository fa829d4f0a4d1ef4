import Folio.Proofs.Compile.Step

/-!
# Compiling keeps the text

The text of a compiled node is the text of its markup. A reference may be answered with a target
that was compiled elsewhere, so what is stored has to have the text of what it was compiled from;
this holds as long as nothing else is stored, in particular after any earlier nodes of the document.
-/
namespace Folio.Compile

open Style Markup

variable {α : Type}

/-- A node by itself has the text. -/
abbrev HasText (env : Env α) (node : Json) (text : String) : Prop :=
  RawText env .empty [node] text

/-- Everything stored has the text of what it is stored for. -/
abbrev TextsStored (env : Env α) (s : State α) : Prop := AllStored env (HasText env) s

theorem textKeepable (env : Env α) :
    Keepable True (TextsStored env) (fun _ => True) (HasText env) where
  own _ := trivial
  leaf h := by simpa using RawText.leaf h (.nil Context.empty)
  frame hs hentries _ := hs.congr hentries
  stored hs h := hs.drawn h
  store hs hn := hs.append hn

theorem rawText_of_built {env : Env α} {parts : List Json} {text : String}
    (h : Built (HasText env) parts text) : RawText env .empty parts text := by
  induction h with
  | nil => exact .nil _
  | cons h _ ih => exact h.append ih

variable [Scalar α]

theorem compileWithin_text (env : Env α) (steps : Nat) (node : Json) (context : Context) :
    Keeps (TextsStored env) (fun _ => True) (fun n => RawText env context [node] n.textContent)
      (compileWithin env steps node context) := by
  induction steps generalizing node context with
  | zero => exact keeps_throw trivial
  | succ steps ih =>
    have hparts (parts : List Json) : Handles env True (TextsStored env) (fun _ => True)
        (HasText env) (compileWithin env steps) parts :=
      fun part _ c _ hides => (ih part c).weaken fun n hn => hn.of_hides hides
    refine (keeps_compileStep (textKeepable env) (fun _ => trivial) (fun _ => trivial)
      (fun _ => trivial) (hparts _) fun e hparse htag => ?_).weaken fun n hn => ?_
    · refine keeps_compileReference (textKeepable env) (fun id s n hs hfind => hs.targets hfind)
        (fun id s n hs hn => hs.append hn) fun id raw _ hraw => ?_
      have hblames : Blames True (resolve context env.sheet e.token.classes e.attrs) :=
        fun _ => trivial
      have hinside := (hparts [raw]).inheritable List.mem_cons_self hblames
      exact keeps_resolving (fun _ _ _ => trivial) (fun s hs _ => hs) (fun s hs => hs) hinside
    · rcases hn with hleaf | ⟨hleaf, parts, hp, hbuilt⟩
      · simpa using RawText.leaf hleaf (.nil context)
      · simpa using RawText.element hleaf hp (rawText_of_built hbuilt) (.nil context)

/-- Whatever was compiled before, a node that compiles has the text of its markup and no other. -/
theorem compile_textContent (env : Env α) (earlier : List (Json × Context)) (node : Json)
    (context : Context) {n : Node α} {s : State α}
    (h : (compile env node context).run (afterCompiling env earlier) = (.ok n, s)) :
    RawText env context [node] n.textContent ∧
      ∀ text, RawText env context [node] text → text = n.textContent := by
  have hkeeps (node : Json) (context : Context) := compileWithin_text env
    (stepBound env node context) node context
  have hearlier : TextsStored env (afterCompiling env earlier) :=
    afterCompiling_keeps (allStored_initial env _) hkeeps earlier
  have hrun := (hkeeps node context _ hearlier).2
  have hresult : ((compileWithin env (stepBound env node context) node context).run
      (afterCompiling env earlier)).1 = .ok n := congrArg Prod.fst h
  rw [hresult] at hrun
  exact ⟨hrun, fun text htext => htext.unique hrun⟩

/-- A document with one target. -/
def greetingEnv : Env Single :=
  ⟨.empty, [("name", .string "reader")], Resource.Memory.empty.provider, fun _ => none, .empty⟩

def nameReference : Json := .array [.string "reference", .string "name"]

def greeting : Json := .array [.string "phrase", .string "Dear ", nameReference]

/-- The target of the greeting was compiled before. -/
theorem compile_textContent_greeting :
    ∃ n s, (compile greetingEnv greeting .empty).run
        (afterCompiling greetingEnv [(nameReference, .empty)]) = (.ok n, s) ∧
      RawText greetingEnv .empty [greeting] n.textContent ∧
        ∀ text, RawText greetingEnv .empty [greeting] text → text = n.textContent := by
  obtain ⟨n, s, h⟩ : ∃ n s, (compile greetingEnv greeting .empty).run
      (afterCompiling greetingEnv [(nameReference, .empty)]) = (.ok n, s) := ⟨_, _, rfl⟩
  exact ⟨n, s, h, compile_textContent greetingEnv [(nameReference, .empty)] greeting .empty h⟩

end Folio.Compile
