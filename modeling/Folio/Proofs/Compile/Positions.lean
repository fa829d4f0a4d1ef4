import Folio.Proofs.Compile.Parts

/-!
# Where positions come from

What is compiled for a node stands inside it, or is an entry of a header that the sheet or the
context provides, or is the target of a reference. Where a node has parts, its positions are among
them, and where one of its parts comes from the header of a class, all entries of that header are
its parts.
-/
namespace Folio.Compile

open Style Markup

variable {α : Type} {env : Env α}

/-! ## Positions and parts -/

theorem resolved_of_leaf {β : Type} {f : Tag → Element → Context → Option β} {context : Context}
    {node : Json} {text : String} (h : leafText? node = some text) :
    resolved env f context node = none := by
  cases node with
  | string s => rfl
  | number n => rfl
  | _ => cases h

theorem positions_of_leaf {context : Context} {node : Json} {text : String}
    (h : leafText? node = some text) : positions env context node = [] := by
  simp [positions, innerParts, target?, namedId?, resolved_of_leaf h]

theorem mem_of_mem_innerParts {context : Context} {node part : Json} {parts : List Json}
    (hparts : parts? env context node = some parts) (h : part ∈ innerParts env context node) :
    part ∈ parts := by
  obtain ⟨e, tag, hparse, htag, hall⟩ := exists_of_resolved hparts
  unfold innerParts at h
  rw [resolved_of_parse hparse htag] at h
  split at h
  · cases h
  · rw [hall] at h
    exact h

/-- A reference with parts has its target as the only one. -/
theorem parts_of_namedId? {context : Context} {node : Json} {parts : List Json} {id : String}
    (hparts : parts? env context node = some parts)
    (hid : namedId? env context node = some id) :
    ∃ raw, Fields.get? id env.references = some raw ∧ parts = [raw] := by
  obtain ⟨e, tag, hparse, htag, hname⟩ := exists_of_resolved hid
  unfold parts? at hparts
  rw [resolved_of_parse hparse htag] at hparts
  split at hname
  · next href =>
    subst href
    simp only [elementParts?, hname, Option.bind_some] at hparts
    obtain ⟨raw, hraw, hsame⟩ := Option.map_eq_some_iff.mp hparts
    exact ⟨raw, hraw, hsame.symm⟩
  · cases hname

theorem mem_positions_of_target {context : Context} {node raw : Json} {id : String}
    (hid : namedId? env context node = some id)
    (hraw : Fields.get? id env.references = some raw) : raw ∈ positions env context node := by
  refine List.mem_append_right _ (Option.mem_toList.mpr ?_)
  rw [target?, hid]
  exact hraw

theorem mem_of_mem_positions {context : Context} {node part : Json} {parts : List Json}
    (hparts : parts? env context node = some parts) (h : part ∈ positions env context node) :
    part ∈ parts := by
  rcases List.mem_append.mp h with hinner | htarget
  · exact mem_of_mem_innerParts hparts hinner
  · obtain ⟨id, hid, hraw⟩ := Option.bind_eq_some_iff.mp (Option.mem_toList.mp htarget)
    obtain ⟨raw, hsame, hall⟩ := parts_of_namedId? hparts hid
    rw [hall, Option.some.inj (hraw.symm.trans hsame)]
    exact List.mem_singleton.mpr rfl

/-! ## Inside a node -/

theorem mem_of_mem_gridRows {rows : List Json} {row : Json} (h : row ∈ gridRows rows) :
    row ∈ rows := by
  unfold gridRows at h
  split at h
  · split at h
    · exact List.mem_cons_of_mem _ h
    · exact h
  · exact h

theorem mem_rowParts {rows : List Json} {part : Json} :
    part ∈ rowParts rows ↔ ∃ items, .array items ∈ rows ∧ part ∈ items := by
  unfold rowParts
  rw [List.mem_flatMap]
  constructor
  · rintro ⟨row, hrow, hpart⟩
    cases row with
    | array items => exact ⟨items, hrow, hpart⟩
    | _ => cases hpart
  · rintro ⟨items, hrow, hpart⟩
    exact ⟨.array items, hrow, hpart⟩

/-- A header that an element has in its context, with all of its entries among the parts. -/
structure HeaderOf (env : Env α) (context : Context) (node : Json) (e : Element) (value : Json) :
    Prop where
  shown : (resolve context env.sheet e.token.classes e.attrs).get? "header" = some value
  within : ∀ part ∈ headerParts (some value), part ∈ innerParts env context node

theorem exists_of_mem_innerParts {context : Context} {node part : Json}
    (h : part ∈ innerParts env context node) :
    ∃ e, Element.parse node = .ok e ∧ (part ∈ e.children ∨ part ∈ rowParts e.children ∨
      ∃ value, HeaderOf env context node e value ∧ part ∈ headerParts (some value)) := by
  cases hparse : Element.parse node with
  | error fault => simp [innerParts, resolved, hparse, Except.toOption] at h
  | ok e =>
    cases htag : e.tag? with
    | none => simp [innerParts, resolved, hparse, htag, Except.toOption] at h
    | some tag =>
      refine ⟨e, rfl, ?_⟩
      have hinner : innerParts env context node =
          (if holdsText tag || tag == .reference then none else elementParts? env tag e
            (resolve context env.sheet e.token.classes e.attrs)).getD [] := by
        unfold innerParts
        rw [resolved_of_parse hparse htag]
      have htable (rows : List Json) (hrows : ∀ row ∈ rows, row ∈ e.children)
          (hall : innerParts env context node = headerParts
            ((resolve context env.sheet e.token.classes e.attrs).get? "header") ++ rowParts rows) :
          part ∈ rowParts e.children ∨
            ∃ value, HeaderOf env context node e value ∧ part ∈ headerParts (some value) := by
        rw [hall] at h
        rcases List.mem_append.mp h with h | h
        · cases hvalue : (resolve context env.sheet e.token.classes e.attrs).get? "header" with
          | none =>
            rw [hvalue] at h
            cases h
          | some value =>
            rw [hvalue] at h hall
            refine .inr ⟨value, ⟨hvalue, fun p hp => ?_⟩, h⟩
            rw [hall]
            exact List.mem_append_left _ hp
        · obtain ⟨items, hrow, hpart⟩ := mem_rowParts.mp h
          exact .inl (mem_rowParts.mpr ⟨items, hrows _ hrow, hpart⟩)
      cases tag with
      | table => exact .inr (htable e.children (fun _ hrow => hrow) hinner)
      | gridTable => exact .inr (htable _ (fun _ hrow => mem_of_mem_gridRows hrow) hinner)
      | heading | paragraph | phrase | list | cell | gridCell | anchor | chapter | subsection =>
        rw [hinner] at h
        exact .inl h
      | _ =>
        rw [hinner] at h
        cases h

/-- The value under a header comes from the element, from a class, or from around the element. -/
theorem header_origin {context : Context} {e : Element} {value : Json}
    (h : (resolve context env.sheet e.token.classes e.attrs).get? "header" = some value) :
    (∃ entry ∈ e.attrs.getD [], entry.2 = value) ∨
      (∃ c ∈ env.sheet.classes, (Context.empty.merge c.2).get? "header" = some value ∧
        ∃ entry ∈ c.2, entry.2 = value) ∨
      context.get? "header" = some value := by
  have hclasses (classes : List String) : ∀ c : Context,
      (resolve c env.sheet classes none).get? "header" = some value →
      (∃ c ∈ env.sheet.classes, (Context.empty.merge c.2).get? "header" = some value ∧
        ∃ entry ∈ c.2, entry.2 = value) ∨ c.get? "header" = some value := by
    induction classes with
    | nil => exact fun c hc => .inr hc
    | cons name classes ih =>
      intro c hc
      rcases ih _ hc with hfound | hfound
      · exact .inl hfound
      · simp only at hfound
        split at hfound
        · next attrs hattrs =>
          rcases Context.get?_merge_eq "header" attrs with hkept | ⟨v, hentry, hshown⟩
          · exact .inr ((hkept c).symm.trans hfound)
          · have hv : v = value := Option.some.inj ((hshown c).symm.trans hfound)
            rw [hv] at hentry hshown
            exact .inl ⟨_, Sheet.mem_of_get? hattrs, hshown .empty, hentry⟩
        · exact .inr hfound
  cases hattrs : e.attrs with
  | none =>
    rw [hattrs] at h
    exact .inr (hclasses _ _ h)
  | some attrs =>
    rw [hattrs] at h
    have hmerge : ((resolve context env.sheet e.token.classes none).merge attrs).get? "header" =
        some value := h
    rcases Context.get?_merge_eq "header" attrs with hkept | ⟨v, hentry, hshown⟩
    · rw [hkept] at hmerge
      exact .inr (hclasses _ _ hmerge)
    · have hv : v = value := Option.some.inj ((hshown _).symm.trans hmerge)
      rw [hv] at hentry
      exact .inl hentry

theorem target_mem {context : Context} {node raw : Json} (h : target? env context node = some raw) :
    ∃ id, (id, raw) ∈ env.references := by
  obtain ⟨id, _, hraw⟩ := Option.bind_eq_some_iff.mp h
  exact ⟨id, mem_of_get? hraw⟩

/-- Where a part of a node's own markup comes from. -/
inductive Origin (env : Env α) (context : Context) (node part : Json) : Prop
  | own (h : Inside part node)
  | sheet {c : String × Fields} {value : Json} (hclass : c ∈ env.sheet.classes)
      (hvalue : (Context.empty.merge c.2).get? "header" = some value)
      (hentry : ∃ entry ∈ c.2, entry.2 = value) (hpart : part ∈ headerParts (some value))
      (hall : ∀ p ∈ headerParts (some value), p ∈ innerParts env context node)
  | around {value : Json} (hvalue : context.get? "header" = some value)
      (hpart : part ∈ headerParts (some value))

theorem origin_of_mem_innerParts {context : Context} {node part : Json}
    (h : part ∈ innerParts env context node) : Origin env context node part := by
  obtain ⟨e, hparse, hchild | hrow | ⟨value, hheader, hpart⟩⟩ := exists_of_mem_innerParts h
  · exact .own (inside_of_mem_children hparse hchild)
  · obtain ⟨items, hitems, hpart⟩ := mem_rowParts.mp hrow
    exact .own ((Inside.item hpart).trans (inside_of_mem_children hparse hitems))
  · rcases header_origin hheader.shown with
      ⟨entry, hentry, hvalue⟩ | ⟨c, hclass, hvalue, hentry⟩ | hvalue
    · have hattr := inside_of_mem_attrs hparse hentry
      rw [hvalue] at hattr
      exact .own ((inside_of_mem_headerParts hpart).trans hattr)
    · exact .sheet hclass hvalue hentry hpart hheader.within
    · exact .around hvalue hpart

/-- An unreadable colour in markup without references: in the node, in its context or in the
sheet. -/
def HasOwnCutColor (env : Env α) (context : Context) (node : Json) : Prop :=
  cutsColor node ∨ cutsColorFields context.attrs ∨ env.sheet.CutsColor

theorem hasOwnCutColor_of_mem_innerParts {context : Context} {node part : Json}
    (h : part ∈ innerParts env context node) (hcut : cutsColor part) :
    HasOwnCutColor env context node := by
  cases origin_of_mem_innerParts h with
  | own hinside => exact .inl (cutsColor_of_inside hinside hcut)
  | sheet hclass _ hentry hpart _ =>
    obtain ⟨entry, hmem, rfl⟩ := hentry
    have hvalue := cutsColor_of_inside (inside_of_mem_headerParts hpart) hcut
    exact .inr (.inr ⟨_, hclass, (cutsColorFields_iff _).mpr ⟨entry, hmem, hvalue⟩⟩)
  | around hvalue hpart =>
    have hheader := cutsColor_of_inside (inside_of_mem_headerParts hpart) hcut
    exact .inr (.inl (cutsColorFields_of_get? hvalue hheader))

/-- An unreadable colour is in the node, in its context, in the sheet, or in a target. -/
def HasCutColor (env : Env α) (context : Context) (node : Json) : Prop :=
  cutsColor node ∨ cutsColorFields context.attrs ∨ env.sheet.CutsColor ∨
    cutsColorFields env.references

theorem hasCutColor_of_mem_positions {context : Context} {node part : Json}
    (h : part ∈ positions env context node) (hcut : cutsColor part) :
    HasCutColor env context node := by
  rcases List.mem_append.mp h with hinner | htarget
  · rcases hasOwnCutColor_of_mem_innerParts hinner hcut with hnode | hcontext | hsheet
    · exact .inl hnode
    · exact .inr (.inl hcontext)
    · exact .inr (.inr (.inl hsheet))
  · obtain ⟨id, hid⟩ := target_mem (Option.mem_toList.mp htarget)
    exact .inr (.inr (.inr ((cutsColorFields_iff _).mpr ⟨_, hid, hcut⟩)))

end Folio.Compile
