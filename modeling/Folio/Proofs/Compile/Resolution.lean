import Folio.Proofs.Compile.Descent
import Folio.Proofs.Compile.Step
import Mathlib.Data.List.Chain
import Mathlib.Data.List.TakeWhile

/-!
# Resolving references

A reference leads from the target it stands in to the target it names. An error about a cycle shows
the cycle, each of its ids standing in the target of the one before it; markup that compiles leads
to no cycle and to no missing target. A target that is stored is not looked into again, so what is
stored has to be grounded already.
-/
namespace Folio.Compile

open Style Markup Relation

variable {α : Type} {env : Env α}

/-! ## Edges between targets -/

/-- The target of `a` holds a reference to `b` in its own markup. -/
def Edge (env : Env α) (a b : String) : Prop :=
  ∃ raw n, Fields.get? a env.references = some raw ∧ ReflTransGen (HoldsInner env) raw n ∧
    namedId? env .empty n = some b

/-- A chain of references that begins and ends with an id. -/
structure CycleChain (env : Env α) (id : String) (chain : List String) : Prop where
  first : chain.head? = some id
  last : chain.getLast? = some id
  long : 2 ≤ chain.length
  edges : chain.IsChain (Edge env)

/-- An id that is named in the node or anywhere that compiling it leads to. -/
def NamesBelow (env : Env α) (context : Context) (node : Json) (id : String) : Prop :=
  namedId? env context node = some id ∨
    ∃ part ∈ positions env context node, ∃ n, Reaches env part n ∧ namedId? env .empty n = some id

/-! ## Grounded markup -/

/-- Markup that comes to an end and names only targets that are there. -/
inductive Grounded (env : Env α) : Json → Prop
  | intro {node : Json}
      (named : ∀ id, namedId? env .empty node = some id → (Fields.get? id env.references).isSome)
      (inside : ∀ part ∈ positions env .empty node, Grounded env part) : Grounded env node

theorem Grounded.named {node : Json} (h : Grounded env node) {id : String}
    (hid : namedId? env .empty node = some id) : (Fields.get? id env.references).isSome := by
  cases h with
  | intro named _ => exact named id hid

theorem Grounded.reaches {node n : Json} (h : Grounded env node) (hn : Reaches env node n) :
    Grounded env n := by
  induction hn with
  | refl => exact h
  | tail _ hstep ih =>
    cases ih with
    | intro _ inside => exact inside _ hstep

/-- Nothing that is compiled for grounded markup leads back to it. -/
theorem Grounded.not_holds_self {node : Json} (h : Grounded env node) :
    ¬ TransGen (Holds env) node node := by
  induction h with
  | intro _ _ ih =>
    intro hself
    obtain ⟨part, hpart, hback⟩ := TransGen.head'_iff.mp hself
    exact ih part hpart (TransGen.tail' hback hpart)

theorem Grounded.not_insideItself {node : Json} (h : Grounded env node) :
    ¬ InsideItself env node :=
  fun hself => h.not_holds_self (hself.lift id fun _ _ => holds_of_holdsInner)

/-- An edge out of a grounded target goes down to another target. -/
theorem exists_target_of_edge {a b : String} {raw : Json} (h : Edge env a b)
    (hraw : Fields.get? a env.references = some raw) (hground : Grounded env raw) :
    ∃ next, Fields.get? b env.references = some next ∧ TransGen (Holds env) raw next := by
  obtain ⟨found, n, hfound, hreach, hname⟩ := h
  have hsame : found = raw := Option.some.inj (hfound.symm.trans hraw)
  rw [hsame] at hreach
  have hholds : Reaches env raw n := hreach.lift id fun _ _ => holds_of_holdsInner
  obtain ⟨next, hnext⟩ := Option.isSome_iff_exists.mp ((hground.reaches hholds).named hname)
  exact ⟨next, hnext, TransGen.tail' hholds (mem_positions_of_target hname hnext)⟩

theorem not_cycle_of_grounded {id : String} {raw : Json}
    (hraw : Fields.get? id env.references = some raw) (hground : Grounded env raw) :
    ¬ TransGen (Edge env) id id := by
  intro hcycle
  -- each edge is followed by a way down, so a cycle of edges would lead back to the target
  have hdown : ∀ b, TransGen (Edge env) id b →
      ∃ next, Fields.get? b env.references = some next ∧ TransGen (Holds env) raw next := by
    intro b hb
    induction hb with
    | single hedge => exact exists_target_of_edge hedge hraw hground
    | tail _ hedge ih =>
      obtain ⟨mid, hmid, hreach⟩ := ih
      have hmidground := hground.reaches hreach.to_reflTransGen
      obtain ⟨next, hnext, hmore⟩ := exists_target_of_edge hedge hmid hmidground
      exact ⟨next, hnext, hreach.trans hmore⟩
  obtain ⟨next, hnext, hself⟩ := hdown id hcycle
  rw [Option.some.inj (hnext.symm.trans hraw)] at hself
  exact hground.not_holds_self hself

/-- What is known of a node that compiles below a context. -/
structure GroundedBelow (env : Env α) (context : Context) (node : Json) : Prop where
  named : ∀ id, namedId? env context node = some id → (Fields.get? id env.references).isSome
  inside : ∀ part ∈ positions env context node, Grounded env part

theorem GroundedBelow.of_hides {context : Context} {node : Json}
    (h : GroundedBelow env context node) (hides : Hides env context node) : Grounded env node :=
  .intro (fun id hid => h.named id (hides.named.trans hid)) fun part hpart =>
    h.inside part (hides.positions ▸ hpart)

theorem GroundedBelow.not_endless {context : Context} {node : Json}
    (h : GroundedBelow env context node) : ¬ Endless env context node := by
  rintro ⟨part, hpart, n, hreach, hself⟩
  exact ((h.inside part hpart).reaches hreach).not_insideItself hself

theorem GroundedBelow.namesBelow {context : Context} {node : Json}
    (h : GroundedBelow env context node) {id : String} (hid : NamesBelow env context node id) :
    ∃ raw, Fields.get? id env.references = some raw ∧ Grounded env raw := by
  rcases hid with hid | ⟨part, hpart, n, hreach, hid⟩
  · obtain ⟨raw, hraw⟩ := Option.isSome_iff_exists.mp (h.named id hid)
    exact ⟨raw, hraw, h.inside raw (mem_positions_of_target hid hraw)⟩
  · have hground := (h.inside part hpart).reaches hreach
    obtain ⟨raw, hraw⟩ := Option.isSome_iff_exists.mp (hground.named hid)
    exact ⟨raw, hraw, hground.reaches (.single (mem_positions_of_target hid hraw))⟩

/-! ## Runs -/

/-- A state with grounded targets in which `ids` are being resolved. -/
structure Resolving (env : Env α) (ids : List String) (s : State α) : Prop where
  stored : AllStored env (fun raw _ => Grounded env raw) s
  open? : s.resolving = ids

theorem resolving_initial (env : Env α) : Resolving env [] .initial :=
  ⟨allStored_initial env _, rfl⟩

/-- The node stands in the target of the last id that is being resolved, and each of the ids in the
target of the one before it. -/
structure OpenAt (env : Env α) (ids : List String) (context : Context) (node : Json) : Prop where
  edges : ids.IsChain (Edge env)
  stands : ∀ a, ids.getLast? = some a → Hides env context node ∧
    ∃ raw, Fields.get? a env.references = some raw ∧ ReflTransGen (HoldsInner env) raw node

theorem openAt_nil (env : Env α) (context : Context) (node : Json) : OpenAt env [] context node :=
  ⟨.nil, nofun⟩

theorem OpenAt.inner {ids : List String} {context below : Context} {node part : Json}
    (h : OpenAt env ids context node) (hpart : part ∈ innerParts env context node)
    (hides : Hides env below part) : OpenAt env ids below part := by
  refine ⟨h.edges, fun a ha => ⟨hides, ?_⟩⟩
  obtain ⟨hnode, raw, hraw, hreach⟩ := h.stands a ha
  rw [hnode.inner] at hpart
  exact ⟨raw, hraw, hreach.tail hpart⟩

/-- A node that names an id makes an edge to it from the last id that is being resolved. -/
theorem OpenAt.edge {ids : List String} {context : Context} {node : Json} {a id : String}
    (h : OpenAt env ids context node) (hid : namedId? env context node = some id)
    (ha : ids.getLast? = some a) : Edge env a id := by
  obtain ⟨hnode, raw, hraw, hreach⟩ := h.stands a ha
  exact ⟨raw, node, hraw, hreach, hnode.named ▸ hid⟩

theorem OpenAt.isChain_concat {ids : List String} {context : Context} {node : Json} {id : String}
    (h : OpenAt env ids context node) (hid : namedId? env context node = some id) :
    (ids ++ [id]).IsChain (Edge env) := by
  refine List.isChain_append.mpr ⟨h.edges, .singleton id, fun a ha b hb => ?_⟩
  have hb' : b = id := by simpa using hb.symm
  rw [hb']
  exact h.edge hid ha

theorem OpenAt.target {ids : List String} {context below : Context} {node raw : Json} {id : String}
    (h : OpenAt env ids context node) (hid : namedId? env context node = some id)
    (hraw : Fields.get? id env.references = some raw) (hides : Hides env below raw) :
    OpenAt env (ids ++ [id]) below raw := by
  refine ⟨h.isChain_concat hid, fun a ha => ⟨hides, raw, ?_, .refl⟩⟩
  have hlast : id = a := by simpa using ha
  rw [← hlast]
  exact hraw

/-- The open ids from one of them on, and that one again, are a cycle. -/
theorem OpenAt.cycleChain {ids : List String} {context : Context} {node : Json} {id : String}
    (h : OpenAt env ids context node) (hid : namedId? env context node = some id)
    (hopen : id ∈ ids) : CycleChain env id (ids.dropWhile (· != id) ++ [id]) := by
  have hsplit : ids.takeWhile (· != id) ++ ids.dropWhile (· != id) = ids :=
    List.takeWhile_append_dropWhile
  have hedges : (ids.dropWhile (· != id) ++ [id]).IsChain (Edge env) := by
    refine (h.isChain_concat hid).suffix ⟨ids.takeWhile (· != id), ?_⟩
    rw [← List.append_assoc, hsplit]
  cases hrest : ids.dropWhile (· != id) with
  | nil =>
    rw [hrest, List.append_nil] at hsplit
    have hother := List.mem_takeWhile_imp (hsplit ▸ hopen)
    simp at hother
  | cons first after =>
    have hfirst := List.head?_dropWhile_not (· != id) ids
    rw [hrest] at hfirst hedges
    have hsame : first = id := by simpa using hfirst
    rw [hsame] at hedges ⊢
    exact ⟨rfl, List.getLast?_concat, by simp, hedges⟩

/-! ## Errors -/

/-- What an error says about a node that is compiled in a number of steps while `ids` are being
resolved. -/
def Explained (env : Env α) (blame : Prop) (ids : List String) (steps : Nat) (context : Context)
    (node : Json) : CompileError → Prop
  | .endless => Deep env ids steps context node
  | .referenceCycle id chain => CycleChain env id chain
  | .color _ => blame
  | _ => True

variable {blame : Prop}

theorem explained_of_own {ids : List String} {steps : Nat} {context : Context} {node : Json}
    {e : CompileError} (h : OwnError blame e) : Explained env blame ids steps context node e := by
  cases e with
  | endless => exact h.elim
  | referenceCycle id chain => exact h.elim
  | color fault => exact h
  | _ => trivial

theorem Deep.of_hides {ids : List String} {steps : Nat} {context : Context} {node : Json}
    (h : Deep env ids steps context node) (hides : Hides env context node) :
    Deep env ids steps .empty node := by
  cases steps with
  | zero => trivial
  | succ steps =>
    unfold Deep at h ⊢
    rw [← hides.inner, ← hides.named]
    exact h

theorem Explained.of_inner {ids : List String} {steps : Nat} {context below : Context}
    {node part : Json} {e : CompileError} (h : Explained env blame ids steps below part e)
    (hpart : part ∈ innerParts env context node) (hides : Hides env below part) :
    Explained env blame ids (steps + 1) context node e := by
  cases e with
  | endless => exact .inl ⟨part, hpart, Deep.of_hides h hides⟩
  | _ => exact h

theorem Explained.of_target {ids : List String} {steps : Nat} {context below : Context}
    {node raw : Json} {id : String} {e : CompileError}
    (h : Explained env blame (ids ++ [id]) steps below raw e)
    (hid : namedId? env context node = some id)
    (hraw : Fields.get? id env.references = some raw) (hnew : id ∉ ids)
    (hides : Hides env below raw) : Explained env blame ids (steps + 1) context node e := by
  cases e with
  | endless => exact .inr ⟨id, raw, hid, hraw, hnew, Deep.of_hides h hides⟩
  | _ => exact h

/-! ## Runs -/

theorem groundedBelow_of_leaf {context : Context} {node : Json} {text : String}
    (h : leafText? node = some text) : GroundedBelow env context node := by
  refine ⟨fun id hid => ?_, fun part hpart => ?_⟩
  · simp [namedId?, resolved_of_leaf h] at hid
  · simp [positions_of_leaf h] at hpart

theorem grounded_of_leaf {node : Json} {text : String} (h : leafText? node = some text) :
    Grounded env node :=
  have hbelow : GroundedBelow env .empty node := groundedBelow_of_leaf h
  .intro hbelow.named hbelow.inside

theorem groundedBelow_of_parts {context : Context} {node : Json} {parts : List Json}
    (hparts : parts? env context node = some parts) (h : ∀ part ∈ parts, Grounded env part) :
    GroundedBelow env context node := by
  refine ⟨fun id hid => ?_, fun part hpart => h part (mem_of_mem_positions hparts hpart)⟩
  obtain ⟨raw, hraw, _⟩ := parts_of_namedId? hparts hid
  rw [hraw]
  rfl

theorem resolvingKeepable (env : Env α) (blame : Prop) (ids : List String) (steps : Nat)
    (context : Context) (node : Json) :
    Keepable blame (Resolving env ids) (Explained env blame ids steps context node)
      (fun raw _ => Grounded env raw) where
  own h := explained_of_own h
  leaf h := grounded_of_leaf h
  frame hs hentries hopen := ⟨hs.stored.congr hentries, hopen.trans hs.open?⟩
  stored hs h := hs.stored.drawn h
  store hs hn := ⟨hs.stored.append hn, hs.open?⟩

/-- An open id is answered with a cycle and its target is not compiled in any state; the target of
any other id is compiled while the id is open. -/
theorem keeps_resolving_target {ids : List String} {steps : Nat} {context below : Context}
    {node raw : Json} {id : String} {act : CompileM α (Node α)}
    (hopen : OpenAt env ids context node) (hid : namedId? env context node = some id)
    (hraw : Fields.get? id env.references = some raw) (hides : Hides env below raw)
    (h : id ∉ ids → Keeps (Resolving env (ids ++ [id]))
      (Explained env blame (ids ++ [id]) steps below raw)
      (fun _ => GroundedBelow env below raw) act) :
    Keeps (Resolving env ids) (Explained env blame ids (steps + 1) context node)
      (fun _ => Grounded env raw) (resolving id act) := by
  by_cases hmem : id ∈ ids
  · refine keeps_resolving (J := fun _ => False) (fun s hs _ => ?_) (fun s hs hnew => ?_)
      (fun _ hs => hs.elim) (fun _ hs => hs.elim)
    · rw [hs.open?]
      exact hopen.cycleChain hid hmem
    · exact hnew (hs.open? ▸ hmem)
  · refine keeps_resolving (J := Resolving env (ids ++ [id])) (fun s hs hin => ?_)
      (fun s hs _ => ⟨hs.stored, by rw [hs.open?]⟩)
      (fun s hs => ⟨hs.stored, by simp [hs.open?]⟩) ?_
    · exact absurd (hs.open? ▸ hin) hmem
    · exact (h hmem).mono (fun e he => he.of_target hid hraw hmem hides)
        fun n hn => hn.of_hides hides

variable [Scalar α]

/-- What is compiled is grounded, and every error is explained, while `ids` are being resolved. -/
theorem compileWithin_resolution (hsheet : env.sheet.CutsColor → blame)
    (htargets : cutsColorFields env.references → blame) (steps : Nat) (node : Json)
    (context : Context) (ids : List String) (hc : Blames blame context)
    (hnode : cutsColor node → blame) (hopen : OpenAt env ids context node) :
    Keeps (Resolving env ids) (Explained env blame ids steps context node)
      (fun _ => GroundedBelow env context node) (compileWithin env steps node context) := by
  induction steps generalizing node context ids with
  | zero => exact keeps_throw trivial
  | succ steps ih =>
    have hkeeps := resolvingKeepable env blame ids (steps + 1) context node
    have hblame {part : Json} (hpart : part ∈ positions env context node) :
        cutsColor part → blame := by
      intro hcut
      rcases hasCutColor_of_mem_positions hpart hcut with hcut | hcut | hcut | hcut
      · exact hnode hcut
      · exact hc hcut
      · exact hsheet hcut
      · exact htargets hcut
    have hinner : Handles env blame (Resolving env ids)
        (Explained env blame ids (steps + 1) context node) (fun raw _ => Grounded env raw)
        (compileWithin env steps) (innerParts env context node) := by
      intro part hpart below hbelow hides
      have hposition : part ∈ positions env context node := List.mem_append_left _ hpart
      exact (ih part below ids hbelow (hblame hposition) (hopen.inner hpart hides)).mono
        (fun e he => he.of_inner hpart hides) fun n hn => hn.of_hides hides
    refine (keeps_compileStep hkeeps hc hnode hsheet hinner fun e hparse htag => ?_).weaken
      fun n hn => ?_
    · refine keeps_compileReference hkeeps (fun id s n hs hfind => hs.stored.targets hfind)
        (fun id s n hs hn => ⟨hs.stored.append hn, hs.open?⟩) fun id raw hid hraw => ?_
      have hname : namedId? env context node = some id := by
        unfold namedId?
        rw [resolved_of_parse hparse htag]
        exact hid
      have hblames := blames_resolve hc hnode hsheet hparse
      have hides := hides_inheritable env (resolve context env.sheet e.token.classes e.attrs) raw
      refine keeps_resolving_target hopen hname hraw hides fun _ => ?_
      exact ih raw _ (ids ++ [id]) hblames.inheritable
        (hblame (mem_positions_of_target hname hraw)) (hopen.target hname hraw hides)
    · rcases hn with hleaf | ⟨_, parts, hparts, hbuilt⟩
      · exact groundedBelow_of_leaf hleaf
      · refine groundedBelow_of_parts hparts fun part hpart => ?_
        obtain ⟨_, hground⟩ := hbuilt.forall part hpart
        exact hground

/-- What a node answers that is compiled while nothing is being resolved. -/
theorem compile_keeps (env : Env α) (node : Json) (context : Context) :
    Keeps (Resolving env [])
      (Explained env (HasCutColor env context node) [] (stepBound env node context) context node)
      (fun _ => GroundedBelow env context node) (compile env node context) :=
  compileWithin_resolution (fun h => .inr (.inr (.inl h))) (fun h => .inr (.inr (.inr h))) _ node
    context [] (fun h => .inr (.inl h)) .inl (openAt_nil env context node)

/-- What compiling a node answers, whatever was compiled before. A node that compiles leads to no
missing target and to no cycle; an error about a cycle shows one. Without an answer the node leads
into the header of a class that holds itself, or it leads to a colour that cannot be read. -/
theorem compile_resolution (env : Env α) (earlier : List (Json × Context)) (node : Json)
    (context : Context) :
    match ((compile env node context).run (afterCompiling env earlier)).1 with
    | .ok _ => ¬ Endless env context node ∧ ∀ id, NamesBelow env context node id →
        (Fields.get? id env.references).isSome ∧ ¬ TransGen (Edge env) id id
    | .error (.referenceCycle id chain) => CycleChain env id chain
    | .error .endless => Endless env context node ∧
        ∃ c ∈ env.sheet.classes, ((Context.empty.merge c.2).get? "header").isSome
    | .error (.color _) => HasCutColor env context node
    | .error _ => True := by
  have hearlier : Resolving env [] (afterCompiling env earlier) :=
    afterCompiling_keeps (resolving_initial env) (compile_keeps env) earlier
  have hrun := (compile_keeps env node context _ hearlier).2
  revert hrun
  generalize ((compile env node context).run (afterCompiling env earlier)).1 = answer
  intro hrun
  cases answer with
  | ok n =>
    refine ⟨GroundedBelow.not_endless hrun, fun id hid => ?_⟩
    obtain ⟨raw, hraw, hground⟩ := GroundedBelow.namesBelow hrun hid
    exact ⟨by rw [hraw]; rfl, not_cycle_of_grounded hraw hground⟩
  | error e =>
    cases e with
    | endless =>
      have hendless : Endless env context node := endless_of_deep hrun
      have ⟨_, _, n, _, hself⟩ := hendless
      exact ⟨hendless, hself.exists_class⟩
    | referenceCycle id chain => exact hrun
    | color fault => exact hrun
    | _ => trivial

/-- A document with neither styles nor targets. -/
def bareEnv : Env Single :=
  ⟨.empty, [], Resource.Memory.empty.provider, fun _ => none, .empty⟩

/-- A text in a colour of three bytes that are two characters. -/
def cutChunk : Json :=
  .array [.string "chunk", .object [("color", .string "#é1")], .string "x"]

/-- No reference is needed to be left without an answer. -/
theorem compile_cutChunk :
    ((compile bareEnv cutChunk .empty).run (afterCompiling bareEnv [])).1 =
      .error (.color .cutCharacter) := by
  have hcut : Color.cutBytes ['é', '1'] 1 = none := by
    unfold Color.cutBytes
    rfl
  have hchannels : Color.channels 1 3 ['é', '1'] = .error .cutCharacter := by
    unfold Color.channels
    rw [hcut]
  have hcolor : Context.color? ⟨[("color", .string "#é1")]⟩ "color" = .error .cutCharacter := by
    have hread : Context.color? ⟨[("color", .string "#é1")]⟩ "color" =
        (Color.channels 1 3 ['é', '1']).map fun values => values.bind Color.ofChannels? := rfl
    rw [hread, hchannels]
    rfl
  have hfont : Font.ofContext (α := Single) ⟨[("color", .string "#é1")]⟩ =
      .error .cutCharacter := by
    unfold Font.ofContext Font.overriddenBy
    rw [hcolor]
    rfl
  have hcompile : compile bareEnv cutChunk .empty = (do
      let run ← textRun "x" ⟨[("color", .string "#é1")]⟩
      return .text run) := rfl
  rw [hcompile]
  unfold textRun fontOf
  rw [hfont]
  rfl

/-- A table of a class whose header holds a table of that class. -/
def selfHeadedTable : Json := .array [.string "table.t", .array [.string "x"]]

def selfHeadedEnv : Env Single :=
  ⟨⟨[("t", [("header", .array [selfHeadedTable])])]⟩, [], Resource.Memory.empty.provider,
    fun _ => none, .empty⟩

set_option maxRecDepth 8000 in
example : ((compile selfHeadedEnv selfHeadedTable .empty).run .initial).1 = .error .endless := rfl

end Folio.Compile
