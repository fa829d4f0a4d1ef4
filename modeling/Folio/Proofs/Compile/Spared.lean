import Folio.Proofs.Compile.Alike
import Folio.Proofs.Compile.Descent

/-!
# Markup without elements of some tags

What is compiled for a node stands in its own markup, in the context around it or in a class. If no
element of a tag stands in any of them, and no reference leads elsewhere, none is compiled.
-/
namespace Folio.Compile

open Style Markup

variable {α : Type} {env : Env α} {tags : List Tag}

theorem lacks_of_tag {v : Json} {tag : Tag} (h : tagOf? v = some tag) (htag : tag ∉ tags) :
    Lacks tags v := by
  intro other hother
  rw [h] at hother
  rwa [← Option.some.inj hother]

/-- No element of the tags is the value or stands in it. -/
structure Spares (tags : List Tag) (v : Json) : Prop where
  self : Lacks tags v
  inside : ∀ x, Inside x v → Lacks tags x

theorem Spares.of_inside {v x : Json} (h : Spares tags v) (hx : Inside x v) : Spares tags x :=
  ⟨h.inside x hx, fun y hy => h.inside y (hy.trans hx)⟩

theorem Spares.fields {fields : Fields} (h : Spares tags (.object fields)) :
    ∀ entry ∈ fields, Spares tags entry.2 := fun _ hentry => h.of_inside (.field hentry rfl)

/-- Nothing stands in an array but its items and what stands in them. -/
theorem spares_array {items : List Json} (hself : Lacks tags (.array items))
    (h : ∀ item ∈ items, Spares tags item) : Spares tags (.array items) := by
  have hinside {x y : Json} (hx : Inside x y) :
      y = .array items → ∃ item ∈ items, x = item ∨ Inside x item := by
    induction hx with
    | @item x _ hmem =>
      intro hy
      cases hy
      exact ⟨x, hmem, .inl rfl⟩
    | field hmem hx =>
      intro hy
      cases hy
    | trans hx _ _ ih =>
      intro hy
      obtain ⟨item, hitem, rfl | hbelow⟩ := ih hy
      · exact ⟨_, hitem, .inr hx⟩
      · exact ⟨item, hitem, .inr (hx.trans hbelow)⟩
  refine ⟨hself, fun x hx => ?_⟩
  obtain ⟨item, hitem, rfl | hbelow⟩ := hinside hx rfl
  · exact (h x hitem).self
  · exact (h item hitem).inside x hbelow

theorem spares_of_leaf {v : Json} {text : String} (h : leafText? v = some text) :
    Spares tags v := by
  refine ⟨lacks_of_leaf h, fun x hx => ?_⟩
  have hdepth := hx.depth_lt
  cases v with
  | string _ | number _ => simp [Json.depth] at hdepth
  | _ => cases h

/-- Neither in the value nor in the context. -/
def Spared (tags : List Tag) (call : Json × Context) : Prop :=
  Spares tags call.1 ∧ ∀ entry ∈ call.2.attrs, Spares tags entry.2

section

variable {context : Context} (hcontext : ∀ entry ∈ context.attrs, Spares tags entry.2)

include hcontext

theorem spares_inheritable : ∀ entry ∈ context.inheritable.attrs, Spares tags entry.2 :=
  fun entry hentry => hcontext entry (mem_without hentry)

theorem spares_of_get? {key : String} {v : Json} (h : context.get? key = some v) : Spares tags v :=
  hcontext _ (mem_of_get? h)

theorem spares_of_fields? {key : String} {fields : Fields} (h : context.fields? key = some fields) :
    ∀ entry ∈ fields, Spares tags entry.2 := by
  obtain ⟨v, hv, hread⟩ := Option.bind_eq_some_iff.mp h
  have hvalue := spares_of_get? hcontext hv
  cases v with
  | object found =>
    obtain rfl := Option.some.inj hread
    exact hvalue.fields
  | _ => cases hread

theorem spared_below {parts : List Json} (hparts : ∀ part ∈ parts, Spares tags part) :
    ∀ call ∈ below parts context, Spared tags call := by
  intro call hcall
  obtain ⟨part, hpart, rfl⟩ := List.mem_map.mp hcall
  exact ⟨hparts part hpart, spares_inheritable hcontext⟩

theorem spared_entryCall {entry : Json} (hentry : Spares tags entry) :
    Spared tags (entryCall context entry) := by
  refine ⟨hentry, ?_⟩
  unfold entryCall
  by_cases hcell : isCell entry
  · simpa only [hcell, ↓reduceIte] using hcontext
  · simpa only [hcell, Bool.false_eq_true, ↓reduceIte] using spares_inheritable hcontext

theorem spared_headerCalls {entry : Json} (hentry : Spares tags entry) :
    ∀ call ∈ headerCalls context entry, Spared tags call := by
  intro call hcall
  unfold headerCalls at hcall
  split at hcall
  · next content inlined _ =>
    have hinlined : Spares tags (.object inlined) :=
      hentry.of_inside (.item (List.mem_cons_of_mem _ List.mem_cons_self))
    refine spared_below (forall_mem_merge hcontext hinlined.fields) ?_ call hcall
    exact List.forall_mem_singleton.mpr (hentry.of_inside (.item List.mem_cons_self))
  · cases hcall
  · rw [List.mem_singleton.mp hcall]
    exact spared_entryCall hcontext hentry

theorem spared_headerRowCalls {row : HeaderRow}
    (hrow : HeaderRow.parse? (context.get? "header") = some row) :
    ∀ call ∈ headerRowCalls row context, Spared tags call := by
  cases hget : context.get? "header" with
  | none =>
    rw [hget] at hrow
    cases hrow
  | some value =>
    rw [hget] at hrow
    have hvalue := spares_of_get? hcontext hget
    intro call hcall
    obtain ⟨entry, hentry, hcall⟩ := List.mem_flatMap.mp hcall
    have hspares := hvalue.of_inside (inside_of_mem_entries hrow hentry)
    refine spared_headerCalls ?_ hspares call hcall
    split
    · next style hstyle =>
      have hstyles := (hvalue.of_inside (inside_of_style hrow hstyle)).fields
      exact forall_mem_merge (spares_inheritable hcontext) hstyles
    · exact spares_inheritable hcontext

theorem spared_tableCalls {rows : List Json} (hrows : ∀ row ∈ rows, Spares tags row) :
    ∀ call ∈ tableCalls rows context, Spared tags call := by
  intro call hcall
  rcases List.mem_append.mp hcall with hcall | hcall
  · cases hrow : HeaderRow.parse? (context.get? "header") with
    | none =>
      rw [hrow] at hcall
      cases hcall
    | some row =>
      rw [hrow] at hcall
      exact spared_headerRowCalls hcontext hrow call hcall
  · obtain ⟨entry, hentry, rfl⟩ := List.mem_map.mp hcall
    obtain ⟨row, hrow, hitem⟩ := List.mem_flatMap.mp hentry
    refine spared_entryCall (spares_inheritable hcontext) ?_
    cases row with
    | array items => exact (hrows _ hrow).of_inside (.item hitem)
    | _ => cases hitem

theorem spares_headingContext :
    ∀ entry ∈ (headingContext context).attrs, Spares tags entry.2 := by
  have hdefaults : ∀ entry ∈ headingDefaults, Spares tags entry.2 := by
    intro entry hentry
    rcases List.mem_cons.mp hentry with rfl | hentry
    · exact spares_of_leaf rfl
    · rw [List.mem_singleton.mp hentry]
      exact spares_of_leaf rfl
  have hplain := forall_mem_merge hcontext hdefaults
  unfold headingContext
  simp only
  split
  · next style hstyle => exact forall_mem_merge hplain (spares_of_fields? hcontext hstyle)
  · exact hplain

theorem spares_anchorContext :
    ∀ entry ∈ (anchorContext context).attrs, Spares tags entry.2 := by
  unfold anchorContext
  split
  · next style hstyle => exact forall_mem_merge hcontext (spares_of_fields? hcontext hstyle)
  · exact hcontext

theorem spared_calls {tag : Tag} (hreference : tag ≠ .reference) {e : Element}
    (hchildren : ∀ child ∈ e.children, Spares tags child) :
    ∀ call ∈ calls env tag e context, Spared tags call := by
  have hwithout {c : Context} (hc : ∀ entry ∈ c.attrs, Spares tags entry.2) (keys : List String) :
      ∀ entry ∈ (c.without keys).attrs, Spares tags entry.2 :=
    fun entry hentry => hc entry (mem_without hentry)
  cases tag with
  | heading => exact spared_below (hwithout (spares_headingContext hcontext) _) hchildren
  | paragraph | phrase => exact spared_below (hwithout hcontext _) hchildren
  | anchor => exact spared_below (spares_anchorContext hcontext) hchildren
  | list | cell | gridCell | chapter | subsection => exact spared_below hcontext hchildren
  | table => exact spared_tableCalls hcontext hchildren
  | gridTable =>
    refine spared_tableCalls hcontext fun row hrow => hchildren row ?_
    exact mem_of_mem_gridRows hrow
  | reference => exact absurd rfl hreference
  | _ => exact nofun

end

theorem spared_nodeCalls (hsheet : ∀ named ∈ env.sheet.classes, ∀ entry ∈ named.2,
      Spares tags entry.2) (htags : .reference ∈ tags) {call : Json × Context}
    (h : Spared tags call) : ∀ other ∈ nodeCalls env call, Spared tags other := by
  intro other hother
  obtain ⟨node, context⟩ := call
  cases hresolved : resolved env (fun tag e c => some (calls env tag e c)) context node with
  | none =>
    rw [nodeCalls, hresolved] at hother
    cases hother
  | some found =>
    obtain ⟨e, tag, hparse, htag, hfound⟩ := exists_of_resolved hresolved
    rw [nodeCalls_of_parse hparse htag] at hother
    have hreference : tag ≠ .reference := by
      rintro rfl
      refine h.1.self .reference ?_ htags
      rw [tagOf?_eq, hparse]
      exact htag
    have hattrs : ∀ entry ∈ e.attrs.getD [], Spares tags entry.2 :=
      fun entry hentry => h.1.of_inside (inside_of_mem_attrs hparse hentry)
    have hchildren : ∀ child ∈ e.children, Spares tags child :=
      fun child hchild => h.1.of_inside (inside_of_mem_children hparse hchild)
    have hcontext := forall_mem_resolve h.2 hsheet e.token.classes hattrs
    exact spared_calls hcontext hreference hchildren other hother

/-- If no element of the tags stands in the markup, the context around it and the classes, none is
compiled. -/
theorem lacks_of_calls (hsheet : ∀ named ∈ env.sheet.classes, ∀ entry ∈ named.2,
      Spares tags entry.2) (htags : .reference ∈ tags) {node call : Json × Context}
    (h : Spared tags node) (hcall : Calls env node call) : Lacks tags call.1 := by
  have hspared : Spared tags call := by
    induction hcall with
    | refl => exact h
    | tail _ hother ih => exact spared_nodeCalls hsheet htags ih _ hother
  exact hspared.1.self

end Folio.Compile
