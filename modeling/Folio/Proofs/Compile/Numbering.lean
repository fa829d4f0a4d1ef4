import Folio.Proofs.Compile.Leaves
import Folio.Proofs.Compile.Resolution
import Folio.Proofs.Compile.Spared
import Folio.Proofs.Compile.Step

/-!
# The numbers of chapters and sections

As long as no reference is compiled, what a run numbers stands in its result: chapters are numbered
through in the order in which they are compiled, and sections within the innermost frame that is
open where they stand. Behind a reference the target is compiled once and its content then comes
back with the numbers it has got.
-/
namespace Folio.Compile

open Style Markup Heading

variable {α β : Type} {s t u : State α} {hs gs : List Heading}

/-! ## From state to state -/

/-- The headings may have been numbered between the two states. -/
structure Tallied (s : State α) (hs : List Heading) (t : State α) : Prop where
  chapters : chaptersOf hs = List.range' (s.chapters + 1) (chaptersOf hs).length
  counted : t.chapters = s.chapters + (chaptersOf hs).length
  outline : t.outline = advance (sections hs).length s.outline
  sections : ∀ frame ∈ s.outline.head?,
    sections hs = countFrom frame.number (frame.sections + 1) (sections hs).length
  below : ∀ frame ∈ s.outline.head?, ∀ number inside,
    .subsection number inside ∈ hs → Counted number inside
  loose : s.outline = [] → ∀ number inside, Loose (.subsection number inside) hs → number = []
  inside : ∀ number inside, Among (.chapter number inside) hs → Counted [number] inside

namespace Tallied

/-- Without headings. -/
theorem nil (hchapters : t.chapters = s.chapters) (houtline : t.outline = s.outline) :
    Tallied s [] t where
  chapters := rfl
  counted := hchapters
  outline := houtline.trans (advance_zero _).symm
  sections _ _ := rfl
  below _ _ _ _ := nofun
  loose _ _ _ h := by cases h <;> contradiction
  inside _ _ h := by cases h <;> contradiction

/-- Only the chapters and the open frames matter. -/
theorem congr (h : Tallied s hs t) {s' t' : State α} (hchapters : s'.chapters = s.chapters)
    (houtline : s'.outline = s.outline) (hchapters' : t'.chapters = t.chapters)
    (houtline' : t'.outline = t.outline) : Tallied s' hs t' where
  chapters := by rw [hchapters]; exact h.chapters
  counted := by rw [hchapters, hchapters']; exact h.counted
  outline := by rw [houtline, houtline']; exact h.outline
  sections := by rw [houtline]; exact h.sections
  below := by rw [houtline]; exact h.below
  loose := by rw [houtline]; exact h.loose
  inside := h.inside

/-- One after the other. -/
theorem append (h : Tallied s hs t) (k : Tallied t gs u) : Tallied s (hs ++ gs) u where
  chapters := by
    rw [chaptersOf_append, List.length_append, h.chapters, k.chapters, h.counted]
    simp only [List.length_range']
    rw [← List.range'_append_1]
    congr 2
    omega
  counted := by
    rw [k.counted, h.counted, chaptersOf_append, List.length_append, Nat.add_assoc]
  outline := by
    rw [k.outline, h.outline, advance_advance, sections_append, List.length_append]
  sections frame hframe := by
    obtain ⟨frames, hframes⟩ := List.head?_eq_some_iff.mp hframe
    have hhead : t.outline.head? =
        some { frame with sections := frame.sections + (Heading.sections hs).length } := by
      rw [h.outline, hframes]
      rfl
    have hnext := k.sections _ hhead
    rw [sections_append, List.length_append, ← countFrom_append, ← h.sections frame hframe]
    refine congrArg _ (hnext.trans ?_)
    rw [Nat.add_right_comm]
  below frame hframe number inside hmem := by
    obtain ⟨frames, hframes⟩ := List.head?_eq_some_iff.mp hframe
    rcases List.mem_append.mp hmem with hmem | hmem
    · exact h.below frame hframe number inside hmem
    · have hnext : t.outline.head? =
          some { frame with sections := frame.sections + (Heading.sections hs).length } := by
        rw [h.outline, hframes]
        rfl
      exact k.below _ hnext number inside hmem
  loose hnone number inside hall := by
    rcases under_append.mp hall with hall | hall
    · exact h.loose hnone number inside hall
    · refine k.loose ?_ number inside hall
      rw [h.outline, hnone]
      rfl
  inside number inside hall :=
    (under_append.mp hall).elim (h.inside number inside) (k.inside number inside)

/-- What is numbered within a frame of its own counts from one. -/
theorem counted_of_frame {number : List Nat} {frames : List Frame} (h : Tallied s hs t)
    (houtline : s.outline = ⟨number, 0⟩ :: frames) : Counted number hs := by
  have hframe : ⟨number, 0⟩ ∈ s.outline.head? := by rw [houtline]; rfl
  exact .intro (h.sections _ hframe) (h.below _ hframe)

/-- A chapter opens a frame, and what is numbered within it leaves the others alone. -/
theorem chapter (h : Tallied { s with
      chapters := s.chapters + 1
      outline := ⟨[s.chapters + 1], 0⟩ :: s.outline } hs t) :
    Tallied s [.chapter (s.chapters + 1) hs] { t with outline := t.outline.tail } where
  chapters := by
    simp only [chaptersOf, Heading.chapters, List.append_nil, List.length_cons]
    rw [List.range'_succ]
    exact congrArg _ h.chapters
  counted := by
    simp only [chaptersOf, Heading.chapters, List.append_nil, List.length_cons]
    exact h.counted.trans (Nat.succ_add_eq_add_succ _ _)
  outline := by
    rw [h.outline]
    exact (advance_zero _).symm
  sections _ _ := rfl
  below _ _ _ _ hmem := by cases List.mem_singleton.mp hmem
  loose _ _ _ hall := by
    rcases under_singleton.mp hall with heq | ⟨haround, -⟩
    · cases heq
    · exact haround.elim
  inside number inside hall := by
    rcases under_singleton.mp hall with heq | ⟨-, hall⟩
    · cases heq
      exact h.counted_of_frame rfl
    · exact h.inside number inside hall

/-- A section within a frame has the next number there. -/
theorem subsection {frame : Frame} {frames : List Frame} (houtline : s.outline = frame :: frames)
    (h : Tallied { s with outline := ⟨frame.number ++ [frame.sections + 1], 0⟩ ::
      { frame with sections := frame.sections + 1 } :: frames } hs t) :
    Tallied s [.subsection (frame.number ++ [frame.sections + 1]) hs]
      { t with outline := t.outline.tail } where
  chapters := by simpa [chaptersOf, Heading.chapters] using h.chapters
  counted := by simpa [chaptersOf, Heading.chapters] using h.counted
  outline := by
    rw [h.outline, houtline]
    rfl
  sections other hframe := by
    rw [houtline] at hframe
    cases hframe
    rfl
  below _ _ number inside hmem := by
    cases List.mem_singleton.mp hmem
    exact h.counted_of_frame rfl
  loose hnone := by
    rw [houtline] at hnone
    cases hnone
  inside number inside hall := by
    rcases under_singleton.mp hall with heq | ⟨-, hall⟩
    · cases heq
    · exact h.inside number inside hall

/-- A section without a frame around it has no number and opens none. -/
theorem unnumbered (houtline : s.outline = []) (h : Tallied s hs t) :
    Tallied s [.subsection [] hs] t where
  chapters := by simpa [chaptersOf, Heading.chapters] using h.chapters
  counted := by simpa [chaptersOf, Heading.chapters] using h.counted
  outline := by
    rw [h.outline, houtline]
    rfl
  sections frame hframe := by
    rw [houtline] at hframe
    cases hframe
  below frame hframe := by
    rw [houtline] at hframe
    cases hframe
  loose _ number inside hall := by
    rcases under_singleton.mp hall with heq | ⟨-, hall⟩
    · cases heq
      rfl
    · exact h.loose houtline number inside hall
  inside number inside hall := by
    rcases under_singleton.mp hall with heq | ⟨-, hall⟩
    · cases heq
    · exact h.inside number inside hall

end Tallied

/-! ## Runs -/

/-- What is stored under nodes has no chapters and sections. -/
def Drawn (s : State α) : Prop := ∀ entry ∈ s.cache.entries, Flat entry.1 entry.2

theorem Leaves.drawn (h : Leaves s t) (hs : Drawn s) : Drawn t := by
  obtain ⟨more, hmore, hflat⟩ := h.stored
  intro entry hentry
  rw [hmore] at hentry
  exact (List.mem_append.mp hentry).elim (hs entry) (hflat entry)

/-- If the run succeeds it has numbered what is seen of its result. -/
def Tallies (view : β → List Heading) (act : CompileM α β) : Prop :=
  ∀ s b t, Drawn s → act.run s = (.ok b, t) → Tallied s (view b) t

theorem Steady.tallies {view : β → List Heading} {act : CompileM α β} (h : Steady act)
    (hview : ∀ s b t, act.run s = (.ok b, t) → view b = []) : Tallies view act := by
  intro s b t _ hrun
  obtain ⟨r, k, hact⟩ := h
  have hstate : t = { s with renders := s.renders + k } := by
    rw [hact] at hrun
    exact (congrArg Prod.snd hrun).symm
  rw [hview s b t hrun, hstate]
  exact .nil rfl rfl

/-- What is drawn is nothing to the outline, whether it is found or drawn now. -/
theorem tallies_memo {node : Json} {context : Context} {act : CompileM α (Node α)}
    (hsteady : Steady act) (hflat : ∀ s n t, act.run s = (.ok n, t) → n.outline = []) :
    Tallies Node.outline (memo (.ofNode node context) act) := by
  intro s n t hs hrun
  cases hfind : s.cache.find? (.ofNode node context) with
  | some found =>
    rw [run_memo_of_found hfind] at hrun
    cases hrun
    obtain ⟨digest, other, otherContext, hmem⟩ := mem_of_find?_structural hfind
    have hnone : n.outline = [] := hs _ hmem
    rw [hnone]
    exact .nil rfl rfl
  | none =>
    rcases hact : act.run { s with cache := s.cache.countMiss } with ⟨r, u⟩
    cases r with
    | error e =>
      rw [run_memo_of_failed hfind hact] at hrun
      cases hrun
    | ok m =>
      rw [run_memo_of_computed hsteady hfind hact] at hrun
      cases hrun
      have hcounted : Drawn { s with cache := s.cache.countMiss } := hs
      have htallied := hsteady.tallies hflat _ n u hcounted hact
      exact htallied.congr rfl rfl rfl rfl

variable [Scalar α] {env : Env α}

section

variable {compile : Compiling α} {handed : List (Json × Context)}

/-- What is compiled one after the other is numbered one after the other. -/
theorem Compiles.tallied {ns : List (Node α)} (h : Compiles compile s handed ns t)
    (htidy : ∀ node context, Tidy (compile node context))
    (hcalls : ∀ call ∈ handed, Tallies Node.outline (compile call.1 call.2)) (hs : Drawn s) :
    Tallied s (ns.flatMap Node.outline) t := by
  induction h with
  | nil s => exact .nil rfl rfl
  | @call node context handed n ns s t u hrun _ ih =>
    have hfirst := hcalls _ List.mem_cons_self s n t hs hrun
    have hdrawn := ((htidy node context).of_run hrun).drawn hs
    exact hfirst.append (ih (fun call hcall => hcalls call (.tail _ hcall)) hdrawn)
  | @leaf _ text context handed n ns s t u _ hrun _ ih =>
    obtain rfl : t = s := by simpa [hrun] using run_textNode (α := α) text context s
    have hnone : n.outline = [] := by
      obtain ⟨run, _, _, hwritten⟩ := exists_of_run_bind hrun
      cases hwritten
      rfl
    rw [List.flatMap_cons, hnone]
    exact ih (fun call hcall => hcalls call (.tail _ hcall)) hs

theorem HandsOn.tallies {F : Compiling α → CompileM α β} {view : β → List Heading}
    (h : HandsOn handed (Outlines view) F) (htidy : ∀ node context, Tidy (compile node context))
    (hcalls : ∀ call ∈ handed, Tallies Node.outline (compile call.1 call.2)) :
    Tallies view (F compile) := by
  intro s b t hs hrun
  obtain ⟨ns, hcompiles, hview⟩ := h.compiles hrun
  rw [show view b = ns.flatMap Node.outline from hview]
  exact hcompiles.tallied htidy hcalls hs

theorem tallies_compileChapter {e : Element} {context : Context}
    (htidy : ∀ node context, Tidy (compile node context))
    (hcalls : ∀ call ∈ below e.children context, Tallies Node.outline (compile call.1 call.2)) :
    Tallies Node.outline (compileChapter compile e context) := by
  intro s n t hs hrun
  rw [compileChapter, nextChapter, run_bind, run_modifyGet] at hrun
  obtain ⟨⟨title, children⟩, u, hframe, hdone⟩ := exists_of_run_bind hrun
  cases hdone
  obtain ⟨v, htitled, rfl⟩ := exists_of_run_withinFrame hframe
  have hopened : Drawn { s with
      chapters := s.chapters + 1
      outline := ⟨[s.chapters + 1], 0⟩ :: s.outline } := hs
  exact ((handsOn_compileTitled e context).tallies htidy hcalls _ _ v hopened htitled).chapter

theorem tallies_compileSection {e : Element} {context : Context}
    (htidy : ∀ node context, Tidy (compile node context))
    (hcalls : ∀ call ∈ below e.children context, Tallies Node.outline (compile call.1 call.2)) :
    Tallies Node.outline (compileSection compile e context) := by
  intro s n t hs hrun
  have htitled := (handsOn_compileTitled e context).tallies htidy hcalls
  rw [compileSection, nextSection, run_bind, run_modifyGet] at hrun
  cases houtline : s.outline with
  | nil =>
    simp only [houtline, List.isEmpty_nil, ↓reduceIte] at hrun
    obtain ⟨⟨title, children⟩, u, hrest, hdone⟩ := exists_of_run_bind hrun
    cases hdone
    exact (htitled s _ t hs hrest).unnumbered houtline
  | cons frame frames =>
    have hsome : (frame.number ++ [frame.sections + 1]).isEmpty = false := by simp
    simp only [houtline, hsome, Bool.false_eq_true, ↓reduceIte] at hrun
    obtain ⟨⟨title, children⟩, u, hframe, hdone⟩ := exists_of_run_bind hrun
    cases hdone
    obtain ⟨v, hrest, rfl⟩ := exists_of_run_withinFrame hframe
    have hopened : Drawn { s with outline := ⟨frame.number ++ [frame.sections + 1], 0⟩ ::
        { frame with sections := frame.sections + 1 } :: frames } := hs
    exact .subsection houtline (htitled _ _ v hopened hrest)

theorem tallies_compileTag {tag : Tag} (hreference : tag ≠ .reference) {e : Element}
    {context : Context} (htidy : ∀ node context, Tidy (compile node context))
    (hcalls : ∀ call ∈ calls env tag e context, Tallies Node.outline (compile call.1 call.2)) :
    Tallies Node.outline (compileTag env compile tag e context) := by
  cases tag with
  | chapter => exact tallies_compileChapter htidy hcalls
  | subsection => exact tallies_compileSection htidy hcalls
  | reference => exact absurd rfl hreference
  | image => exact tallies_memo (steady_readImage env e context) fun _ _ _ => outline_of_readImage
  | chart | svg | graphics =>
    exact tallies_memo (steady_render env _ e context) fun _ _ _ => outline_of_render
  | _ =>
    refine (handsOn_compileTag env (by decide) e context).tallies htidy fun call hcall => ?_
    exact hcalls call (handed_subset_calls env _ e context hcall)

theorem tallies_compileStep {call : Json × Context} (hplain : Lacks [.reference] call.1)
    (htidy : ∀ node context, Tidy (compile node context))
    (hcalls : ∀ other ∈ nodeCalls env call, Tallies Node.outline (compile other.1 other.2)) :
    Tallies Node.outline (compileStep env compile call.1 call.2) := by
  obtain ⟨node, context⟩ := call
  have hstep := dispatched_compileStep env compile node context
  generalize compileStep env compile node context = act at hstep ⊢
  cases hstep with
  | @leaf text _ =>
    intro s n t _ hrun
    obtain rfl : t = s := by simpa [hrun] using run_textNode (α := α) text context s
    obtain ⟨run, _, _, hwritten⟩ := exists_of_run_bind hrun
    cases hwritten
    exact .nil rfl rfl
  | malformed | unknown =>
    intro s n t _ hrun
    cases hrun
  | @element e tag _ hparse htag hknown =>
    rw [nodeCalls_of_parse hparse htag] at hcalls
    have hreference : tag ≠ .reference := fun htag => hplain tag hknown (by simp [htag])
    exact tallies_compileTag hreference htidy hcalls

end

/-! ## Whole nodes -/

/-- No reference is compiled for the node; those that the headers of classes bring in count too. -/
def NoReferences (env : Env α) (node : Json × Context) : Prop :=
  ∀ call, Calls env node call → Lacks [.reference] call.1

theorem tallies_compileWithin (steps : Nat) : ∀ {node : Json × Context}, NoReferences env node →
    Tallies Node.outline (compileWithin env steps node.1 node.2) := by
  induction steps with
  | zero =>
    intro node _ s n t _ hrun
    cases hrun
  | succ steps ih =>
    intro node hnode
    refine tallies_compileStep (hnode node .refl) (tidy_compileWithin env steps) fun call hcall => ?_
    exact ih fun other hother => hnode other (.head hcall hother)

theorem leaves_afterCompiling (env : Env α) (earlier : List (Json × Context)) :
    Leaves .initial (afterCompiling env earlier) :=
  afterCompiling_induction (.refl _) fun _ _ _ hs => hs.trans (tidy_compileWithin env _ _ _ _)

theorem outline_afterCompiling (env : Env α) (earlier : List (Json × Context)) :
    (afterCompiling env earlier).outline = [] := by
  obtain ⟨count, hcount⟩ := (leaves_afterCompiling env earlier).outline
  exact hcount

/-- A node for which no reference is compiled, behind whatever nodes were compiled before it: the
chapters of its result go on from those counted so far, in the order in which they are compiled and
each once. Below a chapter the sections of every frame count from one, and a section without a
chapter around it has no number. -/
theorem compile_numbers {env : Env α} {earlier : List (Json × Context)} {node : Json}
    {context : Context} (hnode : NoReferences env (node, context)) {n : Node α} {t : State α}
    (hrun : (compile env node context).run (afterCompiling env earlier) = (.ok n, t)) :
    ∃ count, chaptersOf n.outline =
        List.range' ((afterCompiling env earlier).chapters + 1) count ∧
      t.chapters = (afterCompiling env earlier).chapters + count ∧
      (∀ number inside, Among (.chapter number inside) n.outline → Counted [number] inside) ∧
      ∀ number inside, Loose (.subsection number inside) n.outline → number = [] := by
  have hdrawn : Drawn (afterCompiling env earlier) :=
    (leaves_afterCompiling env earlier).drawn nofun
  have htallied := tallies_compileWithin _ hnode _ n t hdrawn hrun
  exact ⟨_, htallied.chapters, htallied.counted, htallied.inside,
    htallied.loose (outline_afterCompiling env earlier)⟩

/-- A chapter with a section in a list and another one behind it. -/
def smallChapter : Json :=
  .array [.string "chapter", .string "A",
    .array [.string "list", .array [.string "section", .string "B"]],
    .array [.string "section", .string "C", .array [.string "section", .string "D"]]]

theorem noReferences_smallChapter : NoReferences bareEnv (smallChapter, .empty) := by
  have hsection {items : List Json} (h : ∀ item ∈ items, Spares [.reference] item) :
      Spares [.reference] (.array (.string "section" :: items)) :=
    spares_array (lacks_of_tag rfl (by decide)) (List.forall_mem_cons.mpr ⟨spares_of_leaf rfl, h⟩)
  have htitled {title : String} : Spares [.reference] (.array [.string "section", .string title]) :=
    hsection (List.forall_mem_singleton.mpr (spares_of_leaf rfl))
  have hspared : Spares [.reference] smallChapter := by
    refine spares_array (lacks_of_tag rfl (by decide)) ?_
    simp only [List.forall_mem_cons]
    refine ⟨spares_of_leaf rfl, spares_of_leaf rfl, spares_array (lacks_of_tag rfl (by decide)) ?_,
      hsection ?_, nofun⟩
    · exact List.forall_mem_cons.mpr ⟨spares_of_leaf rfl, List.forall_mem_singleton.mpr htitled⟩
    · exact List.forall_mem_cons.mpr ⟨spares_of_leaf rfl, List.forall_mem_singleton.mpr htitled⟩
  have hnothing : ∀ entry ∈ ([] : Fields), Spares [.reference] entry.2 := by simp
  have hsheet : ∀ named ∈ bareEnv.sheet.classes, ∀ entry ∈ named.2, Spares [.reference] entry.2 :=
    fun named hnamed => absurd hnamed List.not_mem_nil
  exact fun call hcall => lacks_of_calls hsheet (by decide) ⟨hspared, hnothing⟩ hcall

/-- The section in the list and the one behind it are counted together. -/
theorem compile_numbers_smallChapter : ∃ n t,
    (compile bareEnv smallChapter .empty).run (afterCompiling bareEnv []) = (.ok n, t) ∧
      n.outline =
        [.chapter 1 [.subsection [1, 1] [], .subsection [1, 2] [.subsection [1, 2, 1] []]]] ∧
      t.chapters = 1 ∧
      Counted [1] [.subsection [1, 1] [], .subsection [1, 2] [.subsection [1, 2, 1] []]] := by
  have houtline : ((compile bareEnv smallChapter .empty).run (afterCompiling bareEnv [])).1.map
      Node.outline = .ok
        [.chapter 1 [.subsection [1, 1] [], .subsection [1, 2] [.subsection [1, 2, 1] []]]] := rfl
  rcases hrun : (compile bareEnv smallChapter .empty).run (afterCompiling bareEnv []) with ⟨r, t⟩
  rw [hrun] at houtline
  cases r with
  | error e => cases houtline
  | ok n =>
    have hn := Except.ok.inj houtline
    obtain ⟨count, hchapters, hcounted, hinside, -⟩ :=
      compile_numbers noReferences_smallChapter hrun
    rw [hn] at hchapters hinside
    have hone : 1 = count := by simpa [chaptersOf, chapters] using congrArg List.length hchapters
    refine ⟨n, t, rfl, hn, ?_, hinside _ _ (.top List.mem_cons_self)⟩
    rw [hcounted, ← hone]
    rfl

/-! ## A reference in a header -/

/-- The header of a class refers to a chapter. -/
def referringEnv : Env Single :=
  ⟨⟨[("t", [("header", .array [.array [.string "reference", .string "ch"]])])]⟩,
    [("ch", .array [.string "chapter", .string "X"])], Resource.Memory.empty.provider,
    fun _ => none, .empty⟩

/-- Two tables of the class, without any reference of their own. -/
def twoTables : Json :=
  .array [.string "paragraph", .array [.string "table.t", .array [.string "a"]],
    .array [.string "table.t", .array [.string "b"]]]

/-- The chapter is compiled for the first table and found again for the second, so it stands in the
document twice with one number. -/
theorem compile_twoTables : Spares [.reference] twoTables ∧ ∃ n t,
    (compile referringEnv twoTables .empty).run .initial = (.ok n, t) ∧
      n.outline = [.chapter 1 [], .chapter 1 []] ∧
      ∀ count, chaptersOf n.outline ≠ List.range' 1 count := by
  have htable {text : String} (htext : tagOf? (.array [.string text]) = none) :
      Spares [.reference] (.array [.string "table.t", .array [.string text]]) := by
    refine spares_array (lacks_of_tag rfl (by decide)) ?_
    refine List.forall_mem_cons.mpr ⟨spares_of_leaf rfl, List.forall_mem_singleton.mpr ?_⟩
    refine spares_array (fun tag htag => ?_) (List.forall_mem_singleton.mpr (spares_of_leaf rfl))
    rw [htext] at htag
    cases htag
  constructor
  · refine spares_array (lacks_of_tag rfl (by decide)) ?_
    refine List.forall_mem_cons.mpr ⟨spares_of_leaf rfl, ?_⟩
    exact List.forall_mem_cons.mpr ⟨htable rfl, List.forall_mem_singleton.mpr (htable rfl)⟩
  · have houtline : ((compile referringEnv twoTables .empty).run .initial).1.map Node.outline =
        .ok [.chapter 1 [], .chapter 1 []] := rfl
    rcases hrun : (compile referringEnv twoTables .empty).run .initial with ⟨r, t⟩
    rw [hrun] at houtline
    cases r with
    | error e => cases houtline
    | ok n =>
      have hn := Except.ok.inj houtline
      refine ⟨n, t, rfl, hn, fun count hcount => ?_⟩
      rw [hn] at hcount
      have htwo : 2 = count := by simpa [chaptersOf, chapters] using congrArg List.length hcount
      rw [← htwo] at hcount
      exact absurd hcount (by decide)

end Folio.Compile
