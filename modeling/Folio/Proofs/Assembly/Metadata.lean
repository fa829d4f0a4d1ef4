import Folio.Assembly.Config
import Folio.Proofs.Style.SheetOrder
import Folio.Proofs.Style.Spelling

/-!
# Metadata in keyword spelling

The keys of metadata may be spelt as keywords, and so may those of the style of the text, the names
of classes and the keys of their attributes: the reading is the same. In a footer's own map this is
not so. An entry whose key has a colon there is not read at all.
-/
namespace Folio

open Style

/-! ## Maps inside metadata -/

/-- A map with some of its keys spelt as keywords, and related values; or anything as it is. -/
inductive MapSpelt (R : Json → Json → Prop) : Json → Json → Prop
  | same (v : Json) : MapSpelt R v v
  | object {fs gs : Fields} (h : Rekeyed (fun _ => R) fs gs) : MapSpelt R (.object fs) (.object gs)

/-- Attributes with some of their keys spelt as keywords. -/
def AttrsSpelt : Json → Json → Prop := MapSpelt Eq

/-- Classes with some of their names and of the keys of their attributes spelt as keywords. -/
def ClassesSpelt : Json → Json → Prop := MapSpelt AttrsSpelt

theorem MapSpelt.isObject_eq {R : Json → Json → Prop} {v w : Json} (h : MapSpelt R v w) :
    v.isObject = w.isObject := by
  cases h with
  | same => rfl
  | object => rfl

/-- The attributes that a value gives a class. -/
def attrsOf (v : Json) : Fields := v.asFields?.getD []

theorem AttrsSpelt.asFields? {v w : Json} (h : AttrsSpelt v w) :
    Option.Rel (fun a b => normalizeKeys a = normalizeKeys b) v.asFields? w.asFields? := by
  cases h with
  | same => exact rel_refl (Q := fun a b => normalizeKeys a = normalizeKeys b) (fun _ => rfl) _
  | object h => exact Option.Rel.some h.normalizeKeys_eq

theorem AttrsSpelt.normalizeKeys_eq {v w : Json} (h : AttrsSpelt v w) :
    normalizeKeys (attrsOf v) = normalizeKeys (attrsOf w) := by
  cases h with
  | same => rfl
  | object h => exact h.normalizeKeys_eq

/-! ## Classes -/

namespace Style.Sheet

def classEntries (fs : Fields) : List (String × Fields) := fs.map fun e => (e.1, attrsOf e.2)

theorem plainKeys_classEntries (fs : Fields) : plainKeys (classEntries fs) = plainKeys fs := by
  simp [plainKeys, classEntries]

theorem mapM_asFields? (fs : Fields) :
    (fs.mapM fun (entry : String × Json) => entry.2.asFields?.map (Prod.mk entry.1)) =
      if fs.all (·.2.isObject) then some (classEntries fs) else none := by
  induction fs with
  | nil => rfl
  | cons entry fs ih =>
    obtain ⟨k, v⟩ := entry
    have hhead : v.asFields?.map (Prod.mk k) =
        if v.isObject then some (k, attrsOf v) else none := by
      cases v <;> rfl
    rw [List.mapM_cons, hhead, ih, List.all_cons]
    cases v.isObject <;> cases List.all fs (·.2.isObject) <;> rfl

theorem ofJson?_object (fs : Fields) :
    ofJson? (.object fs) =
      if fs.all (·.2.isObject) then some (ofEntries (classEntries fs)) else none := by
  have hread := congrArg (Option.map ofEntries) (mapM_asFields? fs)
  refine hread.trans ?_
  split <;> rfl

theorem get?_ofEntries_of_mem {entries : List (String × Fields)}
    (h : (plainKeys entries).Nodup) {e : String × Fields} (he : e ∈ entries) :
    (ofEntries entries).get? e.1 = some (normalizeKeys e.2) := by
  obtain ⟨attrs, hget⟩ := Option.isSome_iff_exists.mp
    ((isSome_get?_ofEntries e.1).mpr ⟨e, he, rfl⟩)
  obtain ⟨e', he', hname, rfl⟩ := exists_mem_of_get?_ofEntries hget
  rw [hget, List.inj_on_of_nodup_map h he' he hname]

theorem get?_ofEntries_of_not_mem {entries : List (String × Fields)} {name : String}
    (h : stripKeyword name ∉ plainKeys entries) : (ofEntries entries).get? name = none := by
  refine Option.not_isSome_iff_eq_none.mp fun hsome => h ?_
  exact mem_plainKeys.mpr ((isSome_get?_ofEntries name).mp hsome)

theorem get?_classEntries {fs gs : Fields} (h : Rekeyed (fun _ => AttrsSpelt) fs gs)
    (name : String) :
    (ofEntries (classEntries fs)).get? name = (ofEntries (classEntries gs)).get? name := by
  have hleft := h.keys.left
  have hright := h.keys.right
  rw [← plainKeys_classEntries] at hleft hright
  have hshown {es : Fields} (hes : (plainKeys (classEntries es)).Nodup) {e : String × Json}
      (he : e ∈ es) (hname : stripKeyword e.1 = stripKeyword name) :
      (ofEntries (classEntries es)).get? name = some (normalizeKeys (attrsOf e.2)) := by
    have hget := get?_ofEntries_of_mem hes (List.mem_map_of_mem he)
    unfold get? at hget ⊢
    rwa [hname] at hget
  by_cases hkey : stripKeyword name ∈ plainKeys fs
  · obtain ⟨e, he, hname⟩ := mem_plainKeys.mp hkey
    obtain ⟨w, hw, hname'⟩ := mem_plainKeys.mp ((h.keys.mem_plainKeys_iff _).mp hkey)
    rw [hshown hleft he hname, hshown hright hw hname',
      (h.values e he w hw (hname.trans hname'.symm)).normalizeKeys_eq]
  · have hkey' := mt (h.keys.mem_plainKeys_iff _).mpr hkey
    rw [← plainKeys_classEntries] at hkey hkey'
    rw [get?_ofEntries_of_not_mem hkey, get?_ofEntries_of_not_mem hkey']

/-- Classes in other spellings, each once, make the same sheet. -/
theorem rel_ofJson? {fs gs : Fields} (h : Rekeyed (fun _ => AttrsSpelt) fs gs) :
    Option.Rel Same (ofJson? (.object fs)) (ofJson? (.object gs)) := by
  have hmaps : fs.all (·.2.isObject) = gs.all (·.2.isObject) := by
    rw [Bool.eq_iff_iff, List.all_eq_true, List.all_eq_true]
    constructor
    · intro hall w hw
      obtain ⟨e, he, hspelt⟩ := h.keys.back w hw
      exact (h.values e he w hw hspelt.stripKeyword_eq.symm).isObject_eq ▸ hall e he
    · intro hall e he
      obtain ⟨w, hw, hspelt⟩ := h.keys.forth e he
      exact (h.values e he w hw hspelt.stripKeyword_eq.symm).isObject_eq ▸ hall w hw
  rw [ofJson?_object, ofJson?_object, hmaps]
  split
  · refine .some ((same_iff (distinct_ofEntries _) (distinct_ofEntries _)).mpr fun name => ?_)
    exact get?_classEntries h name
  · exact .none

end Style.Sheet

theorem ClassesSpelt.ofJson? {v w : Json} (h : ClassesSpelt v w) :
    Option.Rel Sheet.Same (Sheet.ofJson? v) (Sheet.ofJson? w) := by
  cases h with
  | same => exact rel_refl (fun _ => Sheet.Same.rfl) _
  | object h => exact Sheet.rel_ofJson? h

namespace Assembly

/-! ## The entries of metadata -/

/-- What becomes of the value under a key of metadata; `footer` says it of footers. -/
def MetadataValue (footer : Json → Json → Prop) : String → Json → Json → Prop
  | "font-style" => AttrsSpelt
  | "stylesheet" => ClassesSpelt
  | "footer" => footer
  | _ => Eq

theorem metadataValue_plain (footer : Json → Json → Prop) {key : String}
    (h : key ∉ ["font-style", "stylesheet", "footer"]) : MetadataValue footer key = Eq := by
  unfold MetadataValue
  split
  · exact absurd (by decide) h
  · exact absurd (by decide) h
  · exact absurd (by decide) h
  · rfl

/-- Metadata with some of its keys spelt as keywords: its own, those of the style of the text, the
names of the classes and the keys of their attributes. -/
def MetadataSpelt (footer : Json → Json → Prop) (fs gs : Fields) : Prop :=
  Rekeyed (MetadataValue footer) fs gs

/-- Of the map of a footer nothing counts but the entries without a colon. -/
inductive FooterRead : Json → Json → Prop
  | same (v : Json) : FooterRead v v
  | object (fs : Fields) :
    FooterRead (.object (fs.filter fun e => e.1.toList.head? ≠ some ':')) (.object fs)

/-- The same configuration, whatever the spelling of what it was read from. -/
structure SameConfig (a b : DocumentConfig) : Prop where
  geometry : a.geometry = b.geometry
  info : a.info = b.info
  header : a.header = b.header
  letterhead : a.letterhead = b.letterhead
  footer : a.footer = b.footer
  totals : a.totals = b.totals
  strategy : ∀ stamps, OutputStrategy.resolve a stamps = OutputStrategy.resolve b stamps
  ambient : a.ambient = b.ambient
  systemFonts : a.systemFonts = b.systemFonts
  sheet : a.sheet.Same b.sheet
  references : a.references = b.references
  pageEvents : a.pageEvents = b.pageEvents

/-- The same configuration, or the same fault. -/
inductive SameReading :
    Except PipelineError DocumentConfig → Except PipelineError DocumentConfig → Prop
  | ok {a b : DocumentConfig} (h : SameConfig a b) : SameReading (.ok a) (.ok b)
  | error (fault : PipelineError) : SameReading (.error fault) (.error fault)

/-! ## Reading -/

section Reading

variable {fs gs : Fields} {β γ : Type}

theorem readField_congr {key : String} (h : Fields.get? key fs = Fields.get? key gs) (default : β)
    (read : Json → Option β) : readField fs key default read = readField gs key default read := by
  unfold readField
  rw [h]

theorem readField_rel {R : Json → Json → Prop} {S : β → β → Prop} {key : String}
    (h : Option.Rel R (Fields.get? key fs) (Fields.get? key gs)) {default : β}
    (hdefault : S default default) {read : Json → Option β}
    (hread : ∀ v w, R v w → Option.Rel S (read v) (read w)) :
    Option.Rel S (readField fs key default read) (readField gs key default read) := by
  unfold readField
  generalize Fields.get? key fs = found at h ⊢
  generalize Fields.get? key gs = found' at h ⊢
  cases h with
  | none => exact .some hdefault
  | some h => exact hread _ _ h

theorem readFooterFields_congr (h : ∀ key ∈ footerKeys, Fields.get? key fs = Fields.get? key gs) :
    readFooterFields fs = readFooterFields gs := by
  unfold readFooterFields
  simp only [footerKeys, List.forall_mem_cons] at h
  obtain ⟨htext, halign, hstart, hnumbers, hseparator, hsize, -⟩ := h
  simp only [readField_congr htext, readField_congr halign, readField_congr hstart,
    readField_congr hnumbers, readField_congr hseparator, readField_congr hsize]

/-- Keys with a colon are none of those that are looked for in a footer. -/
theorem FooterRead.readFooter_eq {v w : Json} (h : FooterRead v w) :
    readFooter v = readFooter w := by
  cases h with
  | same => rfl
  | object fs =>
    refine congrArg (Option.map some) (readFooterFields_congr fun key hkey => ?_)
    have hplain : key.toList.head? ≠ some ':' := by
      revert key
      decide
    exact Fields.get?_filter (fun v => by simpa using hplain) fs

end Reading

/-! ## The configuration -/

section Config

variable {fs gs : Fields}
  (hplain : ∀ key ∉ ["font-style", "stylesheet", "footer"], Fields.get? key fs = Fields.get? key gs)

include hplain

theorem readMargins_congr : readMargins fs = readMargins gs := by
  unfold readMargins
  simp only [readField_congr (hplain "top-margin" (by decide)),
    readField_congr (hplain "right-margin" (by decide)),
    readField_congr (hplain "bottom-margin" (by decide)),
    readField_congr (hplain "left-margin" (by decide))]

theorem readInfo_congr : readInfo fs = readInfo gs := by
  unfold readInfo
  simp only [readField_congr (hplain "title" (by decide)),
    readField_congr (hplain "subject" (by decide)),
    readField_congr (hplain "author" (by decide)),
    readField_congr (hplain "creator" (by decide)),
    readField_congr (hplain "doc-header" (by decide))]

/-- Entries under which anything else shows the same are read into the same configuration. -/
theorem ofFields?_rel
    (hstyle : Option.Rel AttrsSpelt (Fields.get? "font-style" fs) (Fields.get? "font-style" gs))
    (hsheet : Option.Rel ClassesSpelt (Fields.get? "stylesheet" fs) (Fields.get? "stylesheet" gs))
    (hfooter : Option.Rel FooterRead (Fields.get? "footer" fs) (Fields.get? "footer" gs)) :
    Option.Rel SameConfig (DocumentConfig.ofFields? fs) (DocumentConfig.ofFields? gs) := by
  have hfield {β : Type} {key : String} (hkey : key ∉ ["font-style", "stylesheet", "footer"])
      (default : β) (read : Json → Option β) :
      Option.Rel Eq (readField fs key default read) (readField gs key default read) :=
    rel_of_eq (readField_congr (hplain key hkey) default read)
  have hfoot : Option.Rel Eq (readField fs "footer" DocumentConfig.standard.footer readFooter)
      (readField gs "footer" DocumentConfig.standard.footer readFooter) :=
    readField_rel hfooter rfl fun v w h => rel_of_eq h.readFooter_eq
  have hattrs : Option.Rel (fun a b => normalizeKeys a = normalizeKeys b)
      (readField fs "font-style" [] Json.asFields?) (readField gs "font-style" [] Json.asFields?) :=
    readField_rel (S := fun a b => normalizeKeys a = normalizeKeys b) hstyle rfl
      fun v w h => h.asFields?
  have hclasses : Option.Rel Sheet.Same (readField fs "stylesheet" .empty Sheet.ofJson?)
      (readField gs "stylesheet" .empty Sheet.ofJson?) :=
    readField_rel hsheet Sheet.Same.rfl fun v w h => h.ofJson?
  -- in the order of reading; all that is read is equal but for the attributes and the classes
  unfold DocumentConfig.ofFields?
  refine rel_bind (hfield (by decide) _ _) ?_
  rintro size _ rfl
  refine rel_bind (hfield (by decide) _ _) ?_
  rintro orientation _ rfl
  refine rel_bind (rel_of_eq (readMargins_congr hplain)) ?_
  rintro margins _ rfl
  refine rel_bind (rel_of_eq (readInfo_congr hplain)) ?_
  rintro info _ rfl
  refine rel_bind (hfield (by decide) _ _) ?_
  rintro header _ rfl
  refine rel_bind (hfield (by decide) _ _) ?_
  rintro letterhead _ rfl
  refine rel_bind hfoot ?_
  rintro footer _ rfl
  refine rel_bind (hfield (by decide) _ _) ?_
  rintro totals _ rfl
  refine rel_bind hattrs fun style style' hsame => ?_
  refine rel_bind (hfield (by decide) _ _) ?_
  rintro systemFonts _ rfl
  refine rel_bind hclasses fun sheet sheet' hsheets => ?_
  refine rel_bind (hfield (by decide) _ _) ?_
  rintro references _ rfl
  refine rel_bind (hfield (by decide) _ _) ?_
  rintro pageEvents _ rfl
  refine .some ⟨rfl, rfl, rfl, rfl, rfl, rfl, fun _ => rfl, ?_, rfl, hsheets, rfl, rfl⟩
  unfold DocumentConfig.ambient Context.ofFields
  rw [hsame]
  rfl

end Config

namespace DocumentConfig

/-- Metadata in keyword spelling is read as the plain metadata is, but for entries of a footer whose
keys have a colon: they might as well not be there. -/
theorem read_respelt {fs gs : Fields} (h : MetadataSpelt FooterRead fs gs) :
    SameReading (read (.object fs)) (read (.object gs)) := by
  have hplain (key : String) (hkey : key ∉ ["font-style", "stylesheet", "footer"]) :
      Fields.get? key (normalizeKeys fs) = Fields.get? key (normalizeKeys gs) := by
    have hshown := h.normalizeKeys key
    rw [metadataValue_plain FooterRead hkey] at hshown
    exact eq_of_rel hshown
  have hconfig := ofFields?_rel hplain (h.normalizeKeys "font-style")
    (h.normalizeKeys "stylesheet") (h.normalizeKeys "footer")
  unfold read
  simp only
  generalize ofFields? (normalizeKeys fs) = config at hconfig ⊢
  generalize ofFields? (normalizeKeys gs) = config' at hconfig ⊢
  cases hconfig with
  | none => exact .error _
  | some h => exact .ok h

/-- A report with a class for small print and a footer of the usual size. -/
def plainReport : Fields :=
  [("footer", .object [("size", .null)]),
    ("stylesheet", .object [("small", .object [("size", .null)])])]

/-- The same report spelt in keywords, and a text in its footer that is not read. -/
def keywordReport : Fields :=
  [(":stylesheet", .object [(":small", .object [(":size", .null)])]),
    ("footer", .object [(":text", .string "Draft"), ("size", .null)])]

theorem keywordReport_spelt : MetadataSpelt FooterRead plainReport keywordReport where
  keys := by decide
  values := by
    have hfooter : FooterRead (.object [("size", .null)])
        (.object [(":text", .string "Draft"), ("size", .null)]) :=
      .object [(":text", .string "Draft"), ("size", .null)]
    have hsmall : AttrsSpelt (.object [("size", .null)]) (.object [(":size", .null)]) :=
      .object ⟨by decide, by simp⟩
    have hclasses : ClassesSpelt (.object [("small", .object [("size", .null)])])
        (.object [(":small", .object [(":size", .null)])]) :=
      .object ⟨by decide, by simpa using fun _ => hsmall⟩
    simp only [plainReport, keywordReport, List.forall_mem_cons, List.not_mem_nil, false_implies,
      implies_true, and_true]
    exact ⟨⟨fun h => absurd h (by decide), fun _ => hfooter⟩,
      fun _ => hclasses, fun h => absurd h (by decide)⟩

theorem read_respelt_report :
    MetadataSpelt FooterRead plainReport keywordReport ∧
      SameReading (read (.object plainReport)) (read (.object keywordReport)) :=
  ⟨keywordReport_spelt, read_respelt keywordReport_spelt⟩

/-! ## Footers -/

/-- The text in the footer of what is read. -/
def footerText? (fs : Fields) : Option String := do
  let config ← (read (.object fs)).toOption
  let footer ← config.footer
  return footer.text

theorem footerText?_congr {fs gs : Fields}
    (h : SameReading (read (.object fs)) (read (.object gs))) :
    footerText? fs = footerText? gs := by
  unfold footerText?
  generalize read (.object fs) = a at h ⊢
  generalize read (.object gs) = b at h ⊢
  cases h with
  | ok h => simp only [Except.toOption, Option.bind_eq_bind, Option.bind_some, h.footer]
  | error => rfl

/-- The text of a footer is lost when its key is spelt as a keyword. -/
theorem read_respelt_footerText :
    MetadataSpelt AttrsSpelt [("footer", .object [("text", .string "Draft")])]
        [("footer", .object [(":text", .string "Draft")])] ∧
      ¬ SameReading (read (.object [("footer", .object [("text", .string "Draft")])]))
        (read (.object [("footer", .object [(":text", .string "Draft")])])) := by
  refine ⟨⟨by decide, ?_⟩, fun h => absurd (footerText?_congr h) (by decide)⟩
  have hfooter : AttrsSpelt (.object [("text", .string "Draft")])
      (.object [(":text", .string "Draft")]) := .object ⟨by decide, by simp⟩
  simp only [List.forall_mem_singleton]
  exact fun _ => hfooter

end DocumentConfig

end Assembly

end Folio
