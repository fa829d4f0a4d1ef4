import Folio.Proofs.Compile.Descent
import Folio.Proofs.Compile.Guarded
import Folio.Proofs.Compile.HandsOn
import Folio.Proofs.Compile.Step

/-!
# The table of content makes no difference

Without references, chapters and sections all that a run sees of earlier ones is the table of
content. No key is computed with success twice, and a node compiles to what it compiles to by
itself, unless two keys have one digest and differ only in the signs of zeros.
-/
namespace Folio.Compile

open Style Markup Relation

variable {α : Type} [Scalar α] {env : Env α} {R : State α → State α → Prop}

/-! ## One step -/

/-- Elements that look at more of the state than the table of content, or store what depends on
more than the key. -/
def statefulTags : List Tag := [.reference, .chapter, .subsection]

section

variable {compile : Compiling α}

theorem related_compileTag {tag : Tag} (hplain : tag ∉ statefulTags) {e : Element}
    {context : Context} (h : Alike R compile (calls env tag e context))
    (hmemo : ∀ act, drawing? env e context tag = some act →
      Related R (memo (.ofNode e.raw context) act)) :
    Related R (compileTag env compile tag e context) := by
  cases tag with
  | image | chart | svg | graphics => exact hmemo _ rfl
  | reference | chapter | subsection => exact absurd (by decide) hplain
  | _ =>
    refine (handsOn_compileTag env (by decide) e context).related (h.of_subset ?_)
    exact handed_subset_calls env _ e context

omit [Scalar α] in
theorem raw_of_parse {node : Json} {e : Element} (h : Element.parse node = .ok e) :
    e.raw = node := by
  unfold Element.parse at h
  split at h
  · rw [← Except.ok.inj h]
  · rw [← Except.ok.inj h]
  · cases h
  · cases h
  · cases h

theorem related_compileStep {call : Json × Context} (hplain : Lacks statefulTags call.1)
    (h : Alike R compile (nodeCalls env call))
    (hmemo : ∀ key act, askedKey? env call = some key → guarded? env key.1 key.2 = some act →
      Related R (memo (.ofNode key.1 key.2) act)) :
    Related R (compileStep env compile call.1 call.2) := by
  obtain ⟨node, context⟩ := call
  have hstep := dispatched_compileStep env compile node context
  generalize compileStep env compile node context = act at hstep ⊢
  cases hstep with
  | leaf => exact related_textNode _ _
  | malformed | unknown => exact related_throw _
  | @element e tag _ hparse htag hknown =>
    rw [nodeCalls_of_parse hparse htag] at h
    refine related_compileTag (hplain tag hknown) h fun act hdrawing => ?_
    have hrun := hmemo _ act (askedKey?_of_parse hparse htag hdrawing)
      ((guarded?_of_parse hparse htag _).trans hdrawing)
    rwa [raw_of_parse hparse]

end

/-! ## Whole nodes -/

/-- Nothing that is compiled for the node looks at more of the state than the table of content. -/
def Plain (env : Env α) (node : Json × Context) : Prop :=
  ∀ call, Calls env node call → Lacks statefulTags call.1

/-- The keys that nodes ask for. -/
def Asked (env : Env α) (nodes : List (Json × Context)) (key : Json × Context) : Prop :=
  ∃ node ∈ nodes, ∃ call, Calls env node call ∧ askedKey? env call = some key

/-- Asking for any key comes out alike. -/
def AsksAlike (env : Env α) (K : Json × Context → Prop) (R : State α → State α → Prop) : Prop :=
  ∀ key act, K key → guarded? env key.1 key.2 = some act →
    Related R (memo (.ofNode key.1 key.2) act)

theorem related_compileWithin {K : Json × Context → Prop} (hasks : AsksAlike env K R)
    (steps : Nat) : ∀ {node : Json × Context}, Plain env node →
      (∀ call key, Calls env node call → askedKey? env call = some key → K key) →
        Related R (compileWithin env steps node.1 node.2) := by
  induction steps with
  | zero => exact fun _ _ => related_throw _
  | succ steps ih =>
    intro node hplain hkeys
    refine related_compileStep (hplain node .refl) (fun call hcall => ?_) fun key act hkey => ?_
    · exact ih (fun other hother => hplain other (.head hcall hother))
        fun other key hother => hkeys other key (.head hcall hother)
    · exact hasks key act (hkeys node key .refl hkey)

theorem related_compile {nodes : List (Json × Context)} (hasks : AsksAlike env (Asked env nodes) R)
    {node : Json × Context} (hnode : node ∈ nodes) (hplain : Plain env node) :
    Related R (compile env node.1 node.2) :=
  related_compileWithin hasks _ hplain fun call _ hcall hkey => ⟨node, hnode, call, hcall, hkey⟩

/-! ## Whole documents -/

/-- All that nodes do to the state is to ask for pictures and drawings. -/
theorem uses_afterCompiling {nodes : List (Json × Context)}
    (hplain : ∀ node ∈ nodes, Plain env node) :
    ∃ runs, Uses env runs (afterCompiling env nodes) := by
  -- A run is beside itself here, so keys may be taken for each other.
  have hasks : AsksAlike env (Asked env nodes) (fun s t => t = s ∧ ∃ runs, Uses env runs s) := by
    rintro key act _ hguarded s _ ⟨rfl, runs, huses⟩
    exact ⟨rfl, rfl, huses.memo hguarded⟩
  refine afterCompiling_induction (I := fun s => ∃ runs, Uses env runs s) ⟨[], .start⟩ ?_
  intro node hnode s hs
  exact (related_compile hasks hnode (hplain node hnode) s s ⟨rfl, hs⟩).2.2

/-- From tables that hold what would be computed a node comes out alike. -/
theorem related_faithful {nodes : List (Json × Context)} (hkeys : Unconfused (Asked env nodes))
    {node : Json × Context} (hnode : node ∈ nodes) (hplain : Plain env node) :
    Related (fun s t => Faithful env (Asked env nodes) s ∧ Faithful env (Asked env nodes) t)
      (compile env node.1 node.2) := by
  refine related_compile ?_ hnode hplain
  rintro key act hkey hguarded s t ⟨hs, ht⟩
  obtain ⟨hfirst, hkept⟩ := hs.memo hkeys hkey hguarded
  obtain ⟨hsecond, hkept'⟩ := ht.memo hkeys hkey hguarded
  exact ⟨hsecond.trans hfirst.symm, hkept, hkept'⟩

/-- Without references, chapters and sections the nodes of a document ask for their pictures and
drawings through the table of content, and none is computed with success twice for one key. Unless
two of the keys have one digest and differ only in the signs of zeros, each node compiles to what it
compiles to by itself, whatever was compiled before it and with what success. -/
theorem compile_transparent (env : Env α) {nodes : List (Json × Context)}
    (hplain : ∀ node ∈ nodes, Plain env node) :
    (∃ runs, Uses env runs (afterCompiling env nodes) ∧
        runs.Pairwise fun k l => (k == l) = false) ∧
      (Unconfused (Asked env nodes) → ∀ earlier node, earlier ++ [node] <+: nodes →
        ((compile env node.1 node.2).run (afterCompiling env earlier)).1 =
          ((compile env node.1 node.2).run .initial).1) := by
  constructor
  · obtain ⟨runs, huses⟩ := uses_afterCompiling hplain
    exact ⟨runs, huses, huses.distinct.2⟩
  · intro hkeys earlier node hprefix
    have hcompile (n : Json × Context) (hn : n ∈ nodes) :=
      related_faithful hkeys hn (hplain n hn)
    have hearlier : Faithful env (Asked env nodes) (afterCompiling env earlier) := by
      refine afterCompiling_induction faithful_initial fun n hn s hs => ?_
      have hmem : n ∈ nodes := hprefix.subset (List.mem_append_left _ hn)
      exact (hcompile n hmem s s ⟨hs, hs⟩).2.1
    have hnode : node ∈ nodes :=
      hprefix.subset (List.mem_append_right _ (List.mem_singleton.mpr rfl))
    exact (hcompile node hnode .initial _ ⟨faithful_initial, hearlier⟩).1

/-! ## Two charts -/

/-- Draws the bits of the width. -/
def bitsRenderer : Renderer Single := fun _ context =>
  match (context.get? "width").bind Json.asNumber? with
  | some width => .ok ⟨0, 0, .vector (wordBytes width.pattern)⟩
  | none => .error (.failed "no width")

/-- A document that draws charts, without styles, targets and pictures. -/
def chartEnv : Env Single :=
  ⟨.empty, [], Resource.Memory.empty.provider, fun _ => some bitsRenderer, .empty⟩

def chartOf (width : Number) (values : List Number) : Json :=
  .array (.string "chart" :: .object [("width", .number width)] :: values.map .number)

/-- A chart hands nothing on. -/
theorem eq_of_calls_chartOf {width : Number} {values : List Number} {context : Context}
    {call : Json × Context} (h : Calls chartEnv (chartOf width values, context) call) :
    call = (chartOf width values, context) := eq_of_calls h rfl

theorem plain_chartOf (width : Number) (values : List Number) (context : Context) :
    Plain chartEnv (chartOf width values, context) := by
  intro call hcall tag htag
  rw [eq_of_calls_chartOf hcall] at htag
  obtain rfl : Tag.chart = tag := Option.some.inj htag
  decide

def drawnBytes : Except CompileError (Node Single) → Option (List UInt8)
  | .ok (.chart ⟨_, _, .vector content⟩) => some content
  | _ => none

/-- A chart whose numbers are all whole. -/
def wholeChart : Json × Context := (chartOf (.whole 3) [.whole 1, .whole 2], .empty)

/-- The second of two equal charts comes out as by itself, though only the first has been drawn. -/
theorem compile_transparent_wholeChart :
    ((compile chartEnv wholeChart.1 wholeChart.2).run (afterCompiling chartEnv [wholeChart])).1 =
        ((compile chartEnv wholeChart.1 wholeChart.2).run .initial).1 ∧
      (afterCompiling chartEnv [wholeChart, wholeChart]).renders = 1 := by
  have hplain : ∀ node ∈ [wholeChart, wholeChart], Plain chartEnv node := by
    intro node hnode
    obtain rfl : node = wholeChart := by simpa using hnode
    exact plain_chartOf _ _ _
  have hasked {key : Json × Context} (h : Asked chartEnv [wholeChart, wholeChart] key) :
      askedKey? chartEnv wholeChart = some key := by
    obtain ⟨node, hnode, call, hcall, hkey⟩ := h
    obtain rfl : node = wholeChart := by simpa using hnode
    rwa [eq_of_calls_chartOf hcall] at hkey
  have hkeys : Unconfused (Asked chartEnv [wholeChart, wholeChart]) :=
    fun k l hk hl _ => Option.some.inj ((hasked hk).symm.trans (hasked hl))
  refine ⟨?_, by decide +kernel⟩
  exact (compile_transparent chartEnv hplain).2 hkeys [wholeChart] wholeChart
    (List.prefix_refl [wholeChart, wholeChart])

/-- A zero with the sign that a bit of a word gives. -/
def zeroOf (signs : UInt64) (bit : Nat) : Number :=
  .real (if (signs >>> bit.toUInt64) % 2 = 1 then -0.0 else 0.0)

/-- A chart whose numbers are all zeros; the lowest bit gives the sign of the width. -/
def zeroChart (signs : UInt64) : Json × Context :=
  (chartOf (zeroOf signs 0) ((List.range' 1 63).map (zeroOf signs)), .empty)

/-- Two charts of zeros with one digest. Their widths differ in sign. -/
def upperChart : Json × Context := zeroChart 0x5AA42E8441531AA6

def lowerChart : Json × Context := zeroChart 0xBAB5A7C7A7A13B6B

/-- Being equal the two charts are one key, so behind the first the second comes out with the width
of the first, and not as it is drawn by itself. -/
theorem compile_zeroCharts :
    Plain chartEnv upperChart ∧ Plain chartEnv lowerChart ∧
      ((compile chartEnv lowerChart.1 lowerChart.2).run (afterCompiling chartEnv [upperChart])).1 ≠
        ((compile chartEnv lowerChart.1 lowerChart.2).run .initial).1 := by
  have hafter : drawnBytes ((compile chartEnv lowerChart.1 lowerChart.2).run
      (afterCompiling chartEnv [upperChart])).1 = some [0, 0, 0, 0, 0, 0, 0, 0] := by
    decide +kernel
  have halone : drawnBytes ((compile chartEnv lowerChart.1 lowerChart.2).run .initial).1 =
      some [0, 0, 0, 0, 0, 0, 0, 0x80] := by
    decide +kernel
  refine ⟨plain_chartOf _ _ _, plain_chartOf _ _ _, fun hsame => ?_⟩
  rw [hsame, halone] at hafter
  exact absurd hafter (by decide)

end Folio.Compile
