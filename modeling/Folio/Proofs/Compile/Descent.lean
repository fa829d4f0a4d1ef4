import Folio.Proofs.Compile.Positions
import Mathlib.Data.List.Perm.Subperm
import Mathlib.Logic.Relation
import Mathlib.Tactic.Linarith

/-!
# How far down compiling goes

Going down, a step into a target opens its id, and no id is opened twice. Between two such steps
every step goes to a shallower value or lands on the header of a class, and unless a node stands
inside itself no header is landed on twice. A descent with more steps than ids, headers and depth
allow therefore leads to a node that stands inside itself without any reference between.
-/
namespace Folio.Compile

open Style Markup Relation

variable {α : Type} {env : Env α}

/-- `part` stands in the markup of `node`, one level down. -/
def HoldsInner (env : Env α) (node part : Json) : Prop := part ∈ innerParts env .empty node

/-- `part` is compiled for `node`, one level down. -/
def Holds (env : Env α) (node part : Json) : Prop := part ∈ positions env .empty node

abbrev Reaches (env : Env α) : Json → Json → Prop := ReflTransGen (Holds env)

theorem holds_of_holdsInner {node part : Json} (h : HoldsInner env node part) :
    Holds env node part := List.mem_append_left _ h

/-- A node that is compiled again inside itself with no reference between. -/
def InsideItself (env : Env α) (node : Json) : Prop := TransGen (HoldsInner env) node node

/-- Markup that leads to a node inside itself. -/
def Endless (env : Env α) (context : Context) (node : Json) : Prop :=
  ∃ part ∈ positions env context node, ∃ n, Reaches env part n ∧ InsideItself env n

/-- An element of none of the tags, if it is one at all. -/
def Lacks (tags : List Tag) (node : Json) : Prop := ∀ tag, tagOf? node = some tag → tag ∉ tags

/-- Markup without elements of the tags, wherever it is compiled. -/
structure LacksAll (env : Env α) (tags : List Tag) (context : Context) (node : Json) : Prop where
  self : Lacks tags node
  inside : ∀ part ∈ innerParts env context node, ∀ n, ReflTransGen (HoldsInner env) part n →
    Lacks tags n

/-- What is compiled for such markup is such markup. -/
theorem LacksAll.part {tags : List Tag} {context below : Context} {node part : Json}
    (h : LacksAll env tags context node) (hpart : part ∈ innerParts env context node)
    (hides : Hides env below part) : LacksAll env tags below part where
  self := h.inside part hpart part .refl
  inside inner hinner n hn := by
    rw [hides.inner] at hinner
    exact h.inside part hpart n (.head hinner hn)

theorem lacks_of_leaf {tags : List Tag} {node : Json} {text : String}
    (h : leafText? node = some text) : Lacks tags node := by
  intro tag htag
  cases node <;> simp_all [leafText?, tagOf?]

/-- Markup all of whose parts are texts and numbers. -/
theorem lacksAll_of_leaves {tags : List Tag} {context : Context} {node : Json}
    (hself : Lacks tags node) (h : ∀ part ∈ innerParts env context node, (leafText? part).isSome) :
    LacksAll env tags context node where
  self := hself
  inside part hpart n hn := by
    obtain ⟨text, htext⟩ := Option.isSome_iff_exists.mp (h part hpart)
    have hnone : innerParts env .empty part = [] := by
      simp [innerParts, resolved_of_leaf htext]
    obtain rfl | ⟨next, hnext, -⟩ := hn.cases_head
    · exact lacks_of_leaf htext
    · rw [HoldsInner, hnone] at hnext
      cases hnext

/-- A descent with a number of steps that opens none of `ids`, and no other id twice. -/
def Deep (env : Env α) : List String → Nat → Context → Json → Prop
  | _, 0, _, _ => True
  | ids, steps + 1, context, node =>
    (∃ part ∈ innerParts env context node, Deep env ids steps .empty part) ∨
      ∃ id raw, namedId? env context node = some id ∧ Fields.get? id env.references = some raw ∧
        id ∉ ids ∧ Deep env (ids ++ [id]) steps .empty raw

/-! ## Headers of classes -/

/-- The entries of the header of each class. -/
def classHeaders (env : Env α) : List (List Json) :=
  env.sheet.classes.map fun c => headerParts ((Context.empty.merge c.2).get? "header")

theorem length_classHeaders (env : Env α) : (classHeaders env).length = env.sheet.size := by
  simp [classHeaders, Sheet.size]

/-- A step to an entry of a class header that the node has all of. -/
def LandsOn (env : Env α) (i : Nat) (context : Context) (node part : Json) : Prop :=
  ∃ header, (classHeaders env)[i]? = some header ∧ part ∈ header ∧
    ∀ p ∈ header, p ∈ innerParts env context node

theorem LandsOn.lt {i : Nat} {context : Context} {node part : Json}
    (h : LandsOn env i context node part) : i < (classHeaders env).length := by
  obtain ⟨header, hi, _⟩ := h
  exact (List.getElem?_eq_some_iff.mp hi).1

/-- A node that lands on a header holds what another node found there. -/
theorem LandsOn.holds {i : Nat} {c d : Context} {node other part found : Json}
    (h : LandsOn env i c node part) (k : LandsOn env i d other found) :
    part ∈ innerParts env d other := by
  obtain ⟨header, hi, hpart, _⟩ := h
  obtain ⟨same, hj, _, hall⟩ := k
  have hsame : header = same := Option.some.inj (hi.symm.trans hj)
  exact hall part (hsame ▸ hpart)

/-- A step inside markup goes to a shallower value or lands on the header of a class. -/
theorem step_cases {context : Context} {node part : Json}
    (h : part ∈ innerParts env context node) :
    part.depth < max node.depth (Json.depthFields context.attrs) ∨
      ∃ i, LandsOn env i context node part := by
  cases origin_of_mem_innerParts h with
  | own hinside =>
    have hdepth := hinside.depth_lt
    omega
  | sheet hclass hvalue _ hpart hall =>
    have hheader : headerParts (some _) ∈ classHeaders env :=
      List.mem_map.mpr ⟨_, hclass, by rw [hvalue]⟩
    obtain ⟨i, hi⟩ := List.mem_iff_getElem?.mp hheader
    exact .inr ⟨i, _, hi, hpart, hall⟩
  | around hvalue hpart =>
    have hdepth := (inside_of_mem_headerParts hpart).depth_lt
    have hfields := depth_le_depthFields (mem_of_get? hvalue)
    simp only at hfields
    omega

theorem step_cases_empty {node part : Json} (h : HoldsInner env node part) :
    part.depth < node.depth ∨ ∃ i, LandsOn env i .empty node part := by
  have hempty : Json.depthFields Context.empty.attrs = 0 := rfl
  rcases step_cases h with hshallow | hland
  · left
    omega
  · exact .inr hland

theorem LandsOn.exists_class {i : Nat} {context : Context} {node part : Json}
    (h : LandsOn env i context node part) :
    ∃ c ∈ env.sheet.classes, ((Context.empty.merge c.2).get? "header").isSome := by
  obtain ⟨header, hi, hpart, _⟩ := h
  obtain ⟨c, hc, hheader⟩ := List.mem_map.mp (List.mem_of_getElem? hi)
  refine ⟨c, hc, ?_⟩
  cases hvalue : (Context.empty.merge c.2).get? "header" with
  | some value => rfl
  | none =>
    rw [hvalue] at hheader
    rw [← hheader] at hpart
    cases hpart

/-- A node stands inside itself only through the header of a class. -/
theorem InsideItself.exists_class {node : Json} (h : InsideItself env node) :
    ∃ c ∈ env.sheet.classes, ((Context.empty.merge c.2).get? "header").isSome := by
  by_contra hnever
  have hshallow : ∀ other, TransGen (HoldsInner env) node other → other.depth < node.depth := by
    intro other hother
    induction hother with
    | single hstep =>
      rcases step_cases_empty hstep with hlt | ⟨i, hland⟩
      · exact hlt
      · exact absurd hland.exists_class hnever
    | tail _ hstep ih =>
      rcases step_cases_empty hstep with hlt | ⟨i, hland⟩
      · omega
      · exact absurd hland.exists_class hnever
  exact Nat.lt_irrefl _ (hshallow node h)

/-! ## What a descent uses up -/

/-- Class headers and targets are no deeper than that. -/
structure DepthsWithin (env : Env α) (depth : Nat) : Prop where
  headers : ∀ header ∈ classHeaders env, ∀ part ∈ header, part.depth ≤ depth
  targets : ∀ entry ∈ env.references, entry.2.depth ≤ depth

theorem LandsOn.depth_le {depth i : Nat} (hdepth : DepthsWithin env depth) {context : Context}
    {node part : Json} (h : LandsOn env i context node part) : part.depth ≤ depth := by
  obtain ⟨header, hi, hpart, _⟩ := h
  exact hdepth.headers header (List.mem_of_getElem? hi) part hpart

theorem DepthsWithin.target {depth : Nat} (h : DepthsWithin env depth) {id : String} {raw : Json}
    (hraw : Fields.get? id env.references = some raw) : raw.depth ≤ depth :=
  h.targets _ (mem_of_get? hraw)

/-- Ids of targets, each once. -/
structure Opened (env : Env α) (ids : List String) : Prop where
  nodup : ids.Nodup
  known : ∀ id ∈ ids, (Fields.get? id env.references).isSome

theorem Opened.concat {ids : List String} (h : Opened env ids) {id : String} {raw : Json}
    (hraw : Fields.get? id env.references = some raw) (hnew : id ∉ ids) :
    Opened env (ids ++ [id]) := by
  refine ⟨?_, fun other hother => ?_⟩
  · refine List.nodup_append.mpr ⟨h.nodup, by simp, fun a ha b hb => ?_⟩
    rw [List.mem_singleton.mp hb]
    exact fun hsame => hnew (hsame ▸ ha)
  · rcases List.mem_append.mp hother with hother | hother
    · exact h.known other hother
    · rw [List.mem_singleton.mp hother, hraw]
      rfl

theorem Opened.length_le {ids : List String} (h : Opened env ids) :
    ids.length ≤ env.references.length := by
  have hsub : ids.Subperm (env.references.map Prod.fst) := by
    refine List.subperm_of_subset h.nodup fun id hid => ?_
    obtain ⟨raw, hraw⟩ := Option.isSome_iff_exists.mp (h.known id hid)
    exact List.mem_map.mpr ⟨_, mem_of_get? hraw, rfl⟩
  simpa using hsub.length_le

/-- Class headers that a descent has landed on, which nothing below the node does again. -/
structure UsedUp (env : Env α) (used : List Nat) (node : Json) : Prop where
  nodup : used.Nodup
  lt : ∀ i ∈ used, i < (classHeaders env).length
  never : ∀ i ∈ used, ∀ n part, ReflTransGen (HoldsInner env) node n →
    ¬ LandsOn env i .empty n part

theorem usedUp_nil (env : Env α) (node : Json) : UsedUp env [] node :=
  ⟨List.nodup_nil, nofun, nofun⟩

theorem UsedUp.length_le {used : List Nat} {node : Json} (h : UsedUp env used node) :
    used.length ≤ (classHeaders env).length := by
  have hsub : used.Subperm (List.range (classHeaders env).length) :=
    List.subperm_of_subset h.nodup fun i hi => List.mem_range.mpr (h.lt i hi)
  simpa using hsub.length_le

theorem UsedUp.step {used : List Nat} {node part : Json} (h : UsedUp env used node)
    (hstep : HoldsInner env node part) : UsedUp env used part :=
  ⟨h.nodup, h.lt, fun i hi n p hn => h.never i hi n p (.head hstep hn)⟩

/-- Landing on the header a second time would close a circle. -/
theorem UsedUp.land {used : List Nat} {node part : Json} {i : Nat} (h : UsedUp env used node)
    (hstep : HoldsInner env node part) (hland : LandsOn env i .empty node part)
    (hnot : ∀ n, ReflTransGen (HoldsInner env) part n → ¬ InsideItself env n) :
    UsedUp env (i :: used) part := by
  have hfresh : i ∉ used := fun hi => h.never i hi node part .refl hland
  refine ⟨List.nodup_cons.mpr ⟨hfresh, h.nodup⟩, fun j hj => ?_, fun j hj n p hn hagain => ?_⟩
  · rcases List.mem_cons.mp hj with rfl | hj
    · exact hland.lt
    · exact h.lt j hj
  · rcases List.mem_cons.mp hj with rfl | hj
    · have hback : HoldsInner env n part := hland.holds hagain
      exact hnot n hn (TransGen.head' hback hn)
    · exact h.never j hj n p (.head hstep hn) hagain

/-! ## The bound -/

/-- Steps that are left: those of every target that is not open yet, and those of the markup that
the node stands in. -/
theorem deep_le {depth : Nat} (hdepth : DepthsWithin env depth) (steps : Nat) :
    ∀ {node : Json} {ids : List String} {used : List Nat}, Deep env ids steps .empty node →
      (∀ n, Reaches env node n → ¬ InsideItself env n) → Opened env ids → UsedUp env used node →
      steps ≤
        (env.references.length - ids.length) * (((classHeaders env).length + 1) * (depth + 1)) +
        ((classHeaders env).length - used.length) * (depth + 1) + node.depth := by
  induction steps with
  | zero => exact fun _ _ _ _ => Nat.zero_le _
  | succ steps ih =>
    intro node ids used hdeep hnot hids hused
    rcases hdeep with ⟨part, hpart, hbelow⟩ | ⟨id, raw, hid, hraw, hnew, hbelow⟩
    · -- inside the markup: either the depth goes down or a header is used up
      have hstep : HoldsInner env node part := hpart
      have hnotbelow : ∀ n, Reaches env part n → ¬ InsideItself env n :=
        fun n hn => hnot n (.head (holds_of_holdsInner hstep) hn)
      rcases step_cases_empty hstep with hshallow | ⟨i, hland⟩
      · have hrest := ih hbelow hnotbelow hids (hused.step hstep)
        omega
      · have hnew := hused.land hstep hland fun n hn =>
          hnotbelow n (hn.lift id fun _ _ => holds_of_holdsInner)
        have hrest := ih hbelow hnotbelow hids hnew
        have hlength := hnew.length_le
        have hpartdepth := hland.depth_le hdepth
        simp only [List.length_cons] at hrest hlength
        have hsplit : (classHeaders env).length - used.length =
            (classHeaders env).length - (used.length + 1) + 1 := by omega
        have hroom : ((classHeaders env).length - used.length) * (depth + 1) =
            ((classHeaders env).length - (used.length + 1)) * (depth + 1) + (depth + 1) := by
          rw [hsplit, Nat.succ_mul]
        omega
    · -- into a target: an id is used up, and every header may be landed on again
      have hholds : Holds env node raw := mem_positions_of_target hid hraw
      have hopened := hids.concat hraw hnew
      have hrest := ih hbelow (fun n hn => hnot n (.head hholds hn)) hopened (usedUp_nil env raw)
      have hlength := hopened.length_le
      have hrawdepth := hdepth.target hraw
      simp only [List.length_append, List.length_singleton, List.length_nil, Nat.sub_zero]
        at hrest hlength
      have hsplit : env.references.length - ids.length =
          env.references.length - (ids.length + 1) + 1 := by omega
      have hroom : ((classHeaders env).length + 1) * (depth + 1) =
          (classHeaders env).length * (depth + 1) + (depth + 1) := Nat.succ_mul _ _
      rw [hsplit, Nat.succ_mul]
      omega

/-! ## The bound of the compiler -/

theorem depthFields_le_foldl (classes : List (String × Fields)) (start : Nat) :
    start ≤ classes.foldl (fun d c => max d (Json.depthFields c.2)) start ∧
      ∀ c ∈ classes, Json.depthFields c.2 ≤
        classes.foldl (fun d c => max d (Json.depthFields c.2)) start := by
  induction classes generalizing start with
  | nil => exact ⟨Nat.le_refl start, nofun⟩
  | cons first classes ih =>
    obtain ⟨hstart, hrest⟩ := ih (max start (Json.depthFields first.2))
    rw [List.foldl_cons]
    refine ⟨by omega, fun c hc => ?_⟩
    rcases List.mem_cons.mp hc with rfl | hc
    · omega
    · exact hrest c hc

theorem depthsWithin_reachableDepth (env : Env α) (node : Json) (context : Context) :
    DepthsWithin env (reachableDepth env node context) := by
  have hclasses := (depthFields_le_foldl env.sheet.classes 0).2
  unfold reachableDepth
  refine ⟨fun header hheader part hpart => ?_, fun entry hentry => ?_⟩
  · obtain ⟨c, hc, rfl⟩ := List.mem_map.mp hheader
    cases hvalue : (Context.empty.merge c.2).get? "header" with
    | none =>
      rw [hvalue] at hpart
      cases hpart
    | some value =>
      rw [hvalue] at hpart
      rcases Context.get?_merge_eq "header" c.2 with hkept | ⟨v, ⟨entry, hentry, hv⟩, hshown⟩
      · rw [hkept] at hvalue
        cases hvalue
      · have hsame : v = value := Option.some.inj ((hshown _).symm.trans hvalue)
        have hdepth := (inside_of_mem_headerParts hpart).depth_lt
        have hfields := depth_le_depthFields hentry
        have hmax := hclasses c hc
        rw [hv, hsame] at hfields
        omega
  · have hfields := depth_le_depthFields hentry
    omega

/-- A descent as long as the compiler allows leads to a node inside itself. -/
theorem endless_of_deep {node : Json} {context : Context}
    (h : Deep env [] (stepBound env node context) context node) : Endless env context node := by
  have hdepths := depthsWithin_reachableDepth env node context
  by_contra hnot
  have hreach : max node.depth (Json.depthFields context.attrs) ≤
      reachableDepth env node context := by
    unfold reachableDepth
    omega
  generalize hd : reachableDepth env node context = depth at hdepths hreach
  obtain ⟨steps, hsteps⟩ : ∃ steps, stepBound env node context = steps + 1 :=
    Nat.exists_eq_add_one.mpr (by unfold stepBound; positivity)
  have hbound : steps + 1 =
      (env.references.length + 1) * ((classHeaders env).length + 2) * (depth + 2) := by
    rw [← hsteps, ← hd, length_classHeaders]
    rfl
  rw [hsteps] at h
  rcases h with ⟨part, hpart, hbelow⟩ | ⟨id, raw, hid, hraw, hnew, hbelow⟩
  · have hpartdepth : part.depth ≤ depth := by
      rcases step_cases hpart with hshallow | ⟨i, hland⟩
      · omega
      · exact hland.depth_le hdepths
    have hposition : part ∈ positions env context node := List.mem_append_left _ hpart
    have hle := deep_le hdepths steps hbelow
      (fun n hn hself => hnot ⟨part, hposition, n, hn, hself⟩) ⟨List.nodup_nil, nofun⟩
      (usedUp_nil env part)
    simp only [List.length_nil, Nat.sub_zero] at hle
    nlinarith
  · have hrawdepth := hdepths.target hraw
    have hposition := mem_positions_of_target hid hraw
    have hopened : Opened env ([] ++ [id]) := Opened.concat ⟨List.nodup_nil, nofun⟩ hraw hnew
    have hle := deep_le hdepths steps hbelow
      (fun n hn hself => hnot ⟨raw, hposition, n, hn, hself⟩) hopened (usedUp_nil env raw)
    simp only [List.nil_append, List.length_singleton, List.length_nil, Nat.sub_zero] at hle
    have hone : env.references.length - 1 ≤ env.references.length := Nat.sub_le _ _
    nlinarith [Nat.mul_le_mul_right (((classHeaders env).length + 1) * (depth + 1)) hone]

end Folio.Compile
