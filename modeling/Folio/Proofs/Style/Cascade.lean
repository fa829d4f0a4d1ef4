import Folio.Proofs.Style.SheetOrder
import Folio.Proofs.Style.Spelling

/-!
# The cascade

What an element sees under a name is what its own attributes have there, else what the last of its
classes has that is defined and has the name, else what is around it. A map has a name in either of
its two spellings, and in the later one, in the order of bytes, where both stand in it. The
attributes of a class lose their colons when the class is put into the sheet and once more when they
are laid over a context, so the law needs class maps without a key that has two of them. Contexts
and sheets are values: to resolve a context changes neither the one around nor the sheet.
-/
namespace Folio.Style

/-! ## What a map has under a name -/

/-- What a map has under a plain name or under its keyword spelling; of both, the later one. -/
def spelledValue? (name : String) (fs : Fields) : Option Json :=
  if ":" ++ name < name then (Fields.get? name fs).or (Fields.get? (":" ++ name) fs)
  else (Fields.get? (":" ++ name) fs).or (Fields.get? name fs)

theorem keyword_ne (name : String) : ":" ++ name ≠ name := by
  intro h
  have hlength := congrArg String.length h
  simp at hlength

theorem eq_or_eq_of_stripKeyword {written name : String} (h : stripKeyword written = name) :
    written = name ∨ written = ":" ++ name := by
  unfold stripKeyword at h
  split at h
  · next rest heq =>
    refine .inr (String.toList_injective ?_)
    rw [heq, ← h, String.toList_append]
    simp
  · exact .inl h

theorem stripKeyword_eq_iff {name : String} (h : name.toList.head? ≠ some ':') (written : String) :
    stripKeyword written = name ↔ written = name ∨ written = ":" ++ name := by
  refine ⟨eq_or_eq_of_stripKeyword, ?_⟩
  rintro (rfl | rfl)
  · exact stripKeyword_of_plain h
  · exact stripKeyword_colon name

theorem get?_eq_none_of_lt {fs : Fields} {key : String} (h : ∀ e ∈ fs, key < e.1) :
    Fields.get? key fs = none := by
  cases hget : Fields.get? key fs with
  | none => rfl
  | some v => exact absurd (h _ (mem_of_get? hget)) (String.lt_irrefl key)

theorem spelledValue?_cons_of_ne {name key : String} (hplain : key ≠ name)
    (hkeyword : key ≠ ":" ++ name) (v : Json) (fs : Fields) :
    spelledValue? name ((key, v) :: fs) = spelledValue? name fs := by
  simp [spelledValue?, Fields.get?_cons, hplain, hkeyword]

/-- The first entry of a map is there under its name unless a later one has the name, too. -/
theorem spelledValue?_cons_self {name key : String} (hkey : key = name ∨ key = ":" ++ name)
    (v : Json) {fs : Fields} (hfirst : ∀ e ∈ fs, key < e.1) :
    spelledValue? name ((key, v) :: fs) = (spelledValue? name fs).or (some v) := by
  have hself : Fields.get? key fs = none := get?_eq_none_of_lt hfirst
  have hne := keyword_ne name
  unfold spelledValue?
  rcases hkey with rfl | rfl
  · by_cases hless : ":" ++ key < key
    · have hother : Fields.get? (":" ++ key) fs = none :=
        get?_eq_none_of_lt fun e he => String.lt_trans hless (hfirst e he)
      simp [hless, hself, hother, Fields.get?_cons]
    · simp [hless, hself, Fields.get?_cons, hne.symm]
  · by_cases hless : ":" ++ name < name
    · simp [hless, hself, Fields.get?_cons, hne]
    · have hless' : name < ":" ++ name :=
        Std.lt_of_le_of_ne (String.not_lt.mp hless) hne.symm
      have hother : Fields.get? name fs = none :=
        get?_eq_none_of_lt fun e he => String.lt_trans hless' (hfirst e he)
      simp [hless, hself, hother, Fields.get?_cons]

/-- Laid over a context, a map shows what it has under a plain name. -/
theorem Context.get?_merge_plain {overlay : Fields} (h : Fields.Sorted overlay) {name : String}
    (hname : name.toList.head? ≠ some ':') (c : Context) :
    (c.merge overlay).get? name = (spelledValue? name overlay).or (c.get? name) := by
  induction overlay generalizing c with
  | nil =>
    unfold spelledValue?
    simp
  | cons entry overlay ih =>
    obtain ⟨key, v⟩ := entry
    obtain ⟨hfirst, hrest⟩ := List.pairwise_cons.mp h
    refine (ih hrest ⟨Fields.insert (stripKeyword key) v c.attrs⟩).trans ?_
    by_cases hkey : stripKeyword key = name
    · rw [spelledValue?_cons_self ((stripKeyword_eq_iff hname key).mp hkey) v hfirst,
        Option.or_assoc, hkey]
      simp [get?]
    · have hneither := mt (stripKeyword_eq_iff hname key).mpr hkey
      rw [not_or] at hneither
      rw [spelledValue?_cons_of_ne hneither.1 hneither.2]
      simp only [get?]
      rw [Fields.get?_insert_of_ne (Ne.symm hkey)]

/-! ## Class maps -/

/-- The attributes of a class as they are handed in: each key once, in rising order, and none with
two colons in front. -/
structure ClassMap (fs : Fields) : Prop where
  sorted : Fields.Sorted fs
  oneColon : ∀ e ∈ fs, ¬ [':', ':'] <+: e.1.toList

theorem ClassMap.keyword_not_mem {fs : Fields} (h : ClassMap fs) (name : String) :
    ":" ++ name ∉ plainKeys fs := by
  intro hmem
  obtain ⟨e, he, hkey⟩ := mem_plainKeys.mp hmem
  rcases eq_or_eq_of_stripKeyword hkey with hwritten | hwritten
  · rw [hwritten, stripKeyword_colon] at hkey
    exact keyword_ne name hkey.symm
  · exact h.oneColon e he (by simp [hwritten])

theorem get?_normalizeKeys {fs : Fields} (h : Fields.Sorted fs) {name : String}
    (hname : name.toList.head? ≠ some ':') :
    Fields.get? name (normalizeKeys fs) = spelledValue? name fs := by
  rw [normalizeKeys_eq]
  exact (Context.empty.get?_merge_plain h hname).trans Option.or_none

/-- To take the colons off the keys of a class map changes nothing that it has. -/
theorem ClassMap.spelledValue?_normalizeKeys {fs : Fields} (h : ClassMap fs) {name : String}
    (hname : name.toList.head? ≠ some ':') :
    spelledValue? name (normalizeKeys fs) = spelledValue? name fs := by
  have hkeyword : Fields.get? (":" ++ name) (normalizeKeys fs) = none := by
    rw [normalizeKeys_eq]
    exact Context.get?_merge_of_not_mem (h.keyword_not_mem name) _
  rw [← get?_normalizeKeys h.sorted hname]
  simp [spelledValue?, hkeyword]

/-! ## Which keys there are -/

theorem Context.contains_merge (c : Context) (overlay : Fields) (key : String) :
    (c.merge overlay).contains key ↔ c.contains key ∨ key ∈ plainKeys overlay := by
  change ((c.merge overlay).get? key).isSome ↔ (c.get? key).isSome ∨ _
  induction overlay generalizing c with
  | nil => simp [plainKeys]
  | cons entry overlay ih =>
    rw [show c.merge (entry :: overlay) =
      merge ⟨Fields.insert (stripKeyword entry.1) entry.2 c.attrs⟩ overlay from rfl, ih]
    by_cases hkey : key = stripKeyword entry.1
    · simp [get?, plainKeys, hkey]
    · have hsame : Fields.get? key (Fields.insert (stripKeyword entry.1) entry.2 c.attrs) =
          Fields.get? key c.attrs := Fields.get?_insert_of_ne hkey entry.2 c.attrs
      simp [get?, plainKeys, hkey, hsame]

theorem mem_plainKeys_iff_isSome (fs : Fields) (key : String) :
    key ∈ plainKeys fs ↔ (Fields.get? key (normalizeKeys fs)).isSome := by
  have h := Context.empty.contains_merge fs key
  rw [normalizeKeys_eq]
  exact (h.trans (or_iff_right nofun)).symm

theorem ClassMap.stripKeyword_of_mem {fs : Fields} (h : ClassMap fs) {key : String}
    (hkey : key ∈ plainKeys fs) : stripKeyword key = key := by
  rcases eq_or_eq_of_stripKeyword (rfl : stripKeyword key = stripKeyword key) with hsame | hkeyword
  · exact hsame.symm
  · exact absurd (hkeyword ▸ hkey) (h.keyword_not_mem _)

theorem ClassMap.mem_plainKeys_normalizeKeys {fs : Fields} (h : ClassMap fs) (key : String) :
    key ∈ plainKeys (normalizeKeys fs) ↔ key ∈ plainKeys fs := by
  constructor
  · intro hmem
    obtain ⟨e, he, rfl⟩ := mem_plainKeys.mp hmem
    have hshown := ((sorted_normalizeKeys fs).mem_iff e.1 e.2).mp he
    have hkey : e.1 ∈ plainKeys fs := (mem_plainKeys_iff_isSome fs e.1).mpr (by simp [hshown])
    rwa [h.stripKeyword_of_mem hkey]
  · intro hkey
    obtain ⟨v, hv⟩ := Option.isSome_iff_exists.mp ((mem_plainKeys_iff_isSome fs key).mp hkey)
    exact mem_plainKeys.mpr ⟨(key, v), mem_of_get? hv, h.stripKeyword_of_mem hkey⟩

/-! ## Definitions of classes -/

/-- The attributes of a class as they were handed in last, under either spelling of its name. -/
def definition? (entries : List (String × Fields)) (name : String) : Option Fields :=
  (entries.reverse.find? fun e => stripKeyword e.1 == stripKeyword name).map Prod.snd

theorem Sheet.get?_ofEntries_eq (entries : List (String × Fields)) (name : String) :
    (ofEntries entries).get? name = (definition? entries name).map normalizeKeys := by
  rw [get?_ofEntries, definition?, Option.map_map]
  rfl

theorem classMap_of_definition? {entries : List (String × Fields)}
    (h : ∀ e ∈ entries, ClassMap e.2) {name : String} {fs : Fields}
    (hfs : definition? entries name = some fs) : ClassMap fs := by
  obtain ⟨e, hfind, rfl⟩ := Option.map_eq_some_iff.mp hfs
  exact h e (List.mem_reverse.mp (List.mem_of_find?_eq_some hfind))

/-! ## The law -/

theorem resolve_cons (ambient : Context) (sheet : Sheet) (name : String) (classes : List String)
    (inlined : Option Fields) :
    resolve ambient sheet (name :: classes) inlined =
      resolve (((sheet.get? name).map ambient.merge).getD ambient) sheet classes inlined := by
  cases h : sheet.get? name <;> simp [resolve, h]

theorem resolve_append (ambient : Context) (sheet : Sheet) (first second : List String)
    (inlined : Option Fields) :
    resolve ambient sheet (first ++ second) inlined =
      resolve (resolve ambient sheet first none) sheet second inlined := by
  simp [resolve]

/-- A class that is not defined contributes nothing. -/
theorem resolve_unknown {sheet : Sheet} {unknown : String} (h : sheet.get? unknown = none)
    (ambient : Context) (before after : List String) (inlined : Option Fields) :
    resolve ambient sheet (before ++ unknown :: after) inlined =
      resolve ambient sheet (before ++ after) inlined := by
  rw [resolve_append, resolve_cons, h, resolve_append ambient sheet before after]
  rfl

section Law

variable {entries : List (String × Fields)} {inlined : Option Fields}

theorem get?_resolve (hentries : ∀ e ∈ entries, ClassMap e.2)
    (hinlined : ∀ fs ∈ inlined, Fields.Sorted fs) {name : String}
    (hname : name.toList.head? ≠ some ':') (ambient : Context) (classes : List String) :
    (resolve ambient (.ofEntries entries) classes inlined).get? name =
      (inlined.bind (spelledValue? name)).or
        ((classes.reverse.findSome? fun c => (definition? entries c).bind (spelledValue? name)).or
          (ambient.get? name)) := by
  induction classes generalizing ambient with
  | nil =>
    cases inlined with
    | none => rfl
    | some fs => exact ambient.get?_merge_plain (hinlined fs rfl) hname
  | cons c classes ih =>
    rw [resolve_cons, ih, List.reverse_cons, List.findSome?_append, Sheet.get?_ofEntries_eq]
    cases hclass : definition? entries c with
    | none => simp [hclass]
    | some fs =>
      have hmap := classMap_of_definition? hentries hclass
      have hshown := ambient.get?_merge_plain (sorted_normalizeKeys fs) hname
      rw [hmap.spelledValue?_normalizeKeys hname] at hshown
      simp [hclass, hshown, Option.or_assoc]

theorem contains_resolve (hentries : ∀ e ∈ entries, ClassMap e.2) (ambient : Context)
    (classes : List String) (key : String) :
    (resolve ambient (.ofEntries entries) classes inlined).contains key ↔
      ambient.contains key ∨ (∃ c ∈ classes, ∃ fs ∈ definition? entries c, key ∈ plainKeys fs) ∨
        ∃ fs ∈ inlined, key ∈ plainKeys fs := by
  induction classes generalizing ambient with
  | nil =>
    cases inlined with
    | none => simp
    | some fs => simpa [resolve] using ambient.contains_merge fs key
  | cons c classes ih =>
    rw [resolve_cons, ih, Sheet.get?_ofEntries_eq]
    cases hclass : definition? entries c with
    | none => simp [hclass]
    | some fs =>
      have hmap := classMap_of_definition? hentries hclass
      have hmerged := ambient.contains_merge (normalizeKeys fs) key
      rw [hmap.mem_plainKeys_normalizeKeys] at hmerged
      simp [hclass, hmerged, or_assoc]

/-- What an element sees under a plain name comes from its own attributes, else from the last of its
classes that is defined and has the name, else from around it. No other key is there than the ones
that these name, and classes can be resolved in two goes. -/
theorem resolve_cascade (hentries : ∀ e ∈ entries, ClassMap e.2)
    (hinlined : ∀ fs ∈ inlined, Fields.Sorted fs) (ambient : Context) (classes : List String) :
    (∀ name : String, name.toList.head? ≠ some ':' →
      (resolve ambient (.ofEntries entries) classes inlined).get? name =
        (inlined.bind (spelledValue? name)).or
          ((classes.reverse.findSome? fun c =>
            (definition? entries c).bind (spelledValue? name)).or (ambient.get? name))) ∧
    (∀ key, (resolve ambient (.ofEntries entries) classes inlined).contains key ↔
      ambient.contains key ∨ (∃ c ∈ classes, ∃ fs ∈ definition? entries c, key ∈ plainKeys fs) ∨
        ∃ fs ∈ inlined, key ∈ plainKeys fs) ∧
    (∀ before unknown after, definition? entries unknown = none →
      resolve ambient (.ofEntries entries) (before ++ unknown :: after) inlined =
        resolve ambient (.ofEntries entries) (before ++ after) inlined) ∧
    ∀ first second, resolve ambient (.ofEntries entries) (first ++ second) inlined =
      resolve (resolve ambient (.ofEntries entries) first none) (.ofEntries entries) second
        inlined := by
  refine ⟨fun name hname => get?_resolve hentries hinlined hname ambient classes,
    contains_resolve hentries ambient classes, fun before unknown after hunknown => ?_,
    fun first second => resolve_append ambient _ first second inlined⟩
  refine resolve_unknown ?_ ambient before after inlined
  rw [Sheet.get?_ofEntries_eq, hunknown, Option.map_none]

/-- A class is defined twice, its last definition has a name in both spellings, a class is unknown,
and the element has a name in both spellings as well. -/
theorem resolve_cascade_twoSpellings :
    let entries : List (String × Fields) :=
      [(":title", [("size", .string "20")]), ("muted", [(":size", .string "9")]),
        ("title", [("0", .string "plain"), (":0", .string "keyword")])]
    let inlined : Fields := [(":size", .string "keyword"), ("size", .string "plain")]
    let resolved := resolve (.ofFields [("family", .string "courier")]) (.ofEntries entries)
      ["title", "muted", "nope", ":title"] (some inlined)
    (∀ e ∈ entries, ClassMap e.2) ∧ (∀ fs ∈ some inlined, Fields.Sorted fs) ∧
      resolved.get? "size" = some (.string "plain") ∧
      resolved.get? "0" = some (.string "keyword") ∧
      resolved.get? "family" = some (.string "courier") := by
  intro entries inlined resolved
  have hentries : ∀ e ∈ entries, ClassMap e.2 := by
    have hmaps : ∀ e ∈ entries, List.Pairwise (fun a b => a.1 < b.1) e.2 ∧
        ∀ field ∈ e.2, ¬ [':', ':'] <+: field.1.toList := by decide
    exact fun e he => ⟨(hmaps e he).1, (hmaps e he).2⟩
  have hinlined : ∀ fs ∈ some inlined, Fields.Sorted fs := by
    rintro fs ⟨⟩
    change List.Pairwise (fun a b => a.1 < b.1) inlined
    decide
  have h := (resolve_cascade hentries hinlined (.ofFields [("family", .string "courier")])
    ["title", "muted", "nope", ":title"]).1
  refine ⟨hentries, hinlined, (h "size" (by decide)).trans ?_, (h "0" (by decide)).trans ?_,
    (h "family" (by decide)).trans ?_⟩
  · rfl
  · rfl
  · rfl

end Law

end Folio.Style
