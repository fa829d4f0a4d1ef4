import Folio.Pdf.Stored
import Folio.Proofs.Flow.Written

/-!
# Documents that are read back

A document that was written to a file and read again has its pages as long as their size can be
read: everything else that leads to a page is made of names, references and whole numbers, which
are read as they were written.
-/
namespace Folio.Pdf

open Style Flow Document

/-! ## Objects -/

theorem isSome_storedItems {items : List (Obj Single)} :
    (storedItems items).isSome ↔ ∀ o ∈ items, (storedObj o).isSome := by
  induction items with
  | nil => simp [storedItems]
  | cons o rest ih =>
    cases ho : storedObj o with
    | none => simp [storedItems, ho]
    | some p =>
      cases hrest : storedItems rest with
      | none => simpa [storedItems, ho, hrest] using ih
      | some ps => simpa [storedItems, ho, hrest] using ih

theorem isSome_storedEntries {d : Dict Single} :
    (storedEntries d).isSome ↔ ∀ e ∈ d, (storedObj e.2).isSome := by
  induction d with
  | nil => simp [storedEntries]
  | cons e rest ih =>
    obtain ⟨key, o⟩ := e
    cases ho : storedObj o with
    | none => simp [storedEntries, ho]
    | some p =>
      cases hrest : storedEntries rest with
      | none => simpa [storedEntries, ho, hrest] using ih
      | some ps => simpa [storedEntries, ho, hrest] using ih

theorem valueUnder_stored {d e : Dict Single} (h : storedEntries d = some e) (key : String) :
    valueUnder key e = (valueUnder key d).bind storedObj := by
  induction d generalizing e with
  | nil =>
    obtain rfl : [] = e := by simpa [storedEntries] using h
    rfl
  | cons entry rest ih =>
    obtain ⟨k, o⟩ := entry
    cases ho : storedObj o with
    | none => simp [storedEntries, ho] at h
    | some p =>
      cases hrest : storedEntries rest with
      | none => simp [storedEntries, ho, hrest] at h
      | some ps =>
        obtain rfl : (k, p) :: ps = e := by simpa [storedEntries, ho, hrest] using h
        have hps := ih hrest
        unfold valueUnder Dict.get? at hps ⊢
        by_cases hk : k = bytesOf key
        · simp [hk, ho]
        · simpa [hk] using hps

theorem storedItems_references {items : List (Obj Single)} (h : References items) :
    storedItems items = some items := by
  induction items with
  | nil => rfl
  | cons o rest ih =>
    obtain ⟨number, rfl⟩ := h o List.mem_cons_self
    simp [storedItems, storedObj, ih fun o ho => h o (List.mem_cons_of_mem _ ho)]

/-! ## Entries of the page tree -/

/-- What is no part of the make-up of a file is written. -/
theorem isWritten_of_kind {d : Dict Single} {kind : String}
    (h : valueUnder "Type" d = some (Obj.nameOf kind))
    (hkind : kind ∉ ["ObjStm", "XRef", "Linearized"]) : isWritten (.dictionary d) = true := by
  have hname : Dict.get? (bytesOf "Type") d = some (.name (bytesOf kind)) := h
  simpa [isWritten, kind?, hname, fileKinds, bytesOf_inj] using hkind

/-- Can the size of pages be read back? -/
def ReadableSize (width height : Single) : Prop :=
  (storedItems (reals [0, 0, width, height])).isSome

instance (width height : Single) : Decidable (ReadableSize width height) :=
  inferInstanceAs (Decidable (_ = true))

/-- Apart from its size everything in the entry of a page is read as it was written. -/
theorem isSome_stored_pageDict {setting : PageSetting Single} {content : Nat} {images : Dict Single}
    {marks : List (Obj Single)} (himages : References (images.map (·.2)))
    (hmarks : References marks) : (storedEntries (pageDict setting content images marks)).isSome ↔
      ReadableSize setting.width setting.height := by
  have hobjects : (storedEntries images).isSome := by
    rw [isSome_storedEntries]
    intro e he
    obtain ⟨number, hnumber⟩ := himages e.2 (List.mem_map_of_mem he)
    simp [hnumber, storedObj]
  have hresources : (storedObj (.dictionary (Flow.pageResources setting.fonts images))).isSome := by
    simp only [storedObj, Option.isSome_map, isSome_storedEntries]
    intro e he
    simp only [Flow.pageResources, Dict.ofList, List.map_cons, List.mem_cons] at he
    rcases he with rfl | he
    · simp [storedObj]
    · split at he
      · simp at he
      · obtain rfl : e = (bytesOf "XObject", .dictionary images) := by simpa using he
        simpa [storedObj] using hobjects
  have hannots : ∀ e ∈ (Dict.ofList (if marks.isEmpty then [] else [("Annots", .array marks)])
      : Dict Single), (storedObj e.2).isSome := by
    intro e he
    split at he
    · simp [Dict.ofList] at he
    · obtain rfl : e = (bytesOf "Annots", .array marks) := by simpa [Dict.ofList] using he
      simp [storedObj, storedItems_references hmarks]
  have happend : pageDict setting content images marks =
      Dict.ofList [("Type", Obj.nameOf "Page"), ("Parent", .reference setting.tree),
        ("MediaBox", .array (reals [0, 0, setting.width, setting.height])),
        ("Contents", .reference content),
        ("Resources", .dictionary (Flow.pageResources setting.fonts images))] ++
      Dict.ofList (if marks.isEmpty then [] else [("Annots", .array marks)]) :=
    List.map_append
  rw [isSome_storedEntries, happend, List.forall_mem_append, and_iff_left hannots]
  simp only [Dict.ofList, List.map_cons, List.map_nil, List.forall_mem_cons]
  simp only [storedObj, Option.isSome_map, Obj.nameOf] at hresources ⊢
  simp [hresources, ReadableSize]

/-! ## The document that is read -/

theorem find?_stored {doc : Document Single} {number : Nat} {o p : Obj Single}
    (h : doc.find? number = some o) (hwritten : isWritten o = true)
    (hstored : storedObj o = some p) :
    doc.stored.find? number = some p := by
  unfold Document.find? at h
  unfold Document.find? Document.stored writtenObjects
  generalize doc.objects = objects at h
  induction objects with
  | nil => simp at h
  | cons entry rest ih =>
    obtain ⟨n, q⟩ := entry
    by_cases hn : n = number
    · obtain rfl : q = o := by simpa [hn] using h
      simp [hwritten, hstored, hn]
    · have hrest := ih (by simpa [hn] using h)
      cases hq : isWritten q with
      | false => simpa [hq] using hrest
      | true =>
        cases hs : storedObj q with
        | none => simpa [hq, hs] using hrest
        | some q' => simpa [hq, hs, hn] using hrest

theorem find?_of_mem {doc : Document Single} (h : (doc.objects.map (·.1)).Nodup) {number : Nat}
    {o : Obj Single} (hmem : (number, o) ∈ doc.objects) : doc.find? number = some o := by
  unfold Document.find?
  generalize doc.objects = objects at h hmem
  induction objects with
  | nil => cases hmem
  | cons entry rest ih =>
    rw [List.map_cons, List.nodup_cons] at h
    rcases List.mem_cons.mp hmem with rfl | hmem
    · simp
    · have hne : entry.1 ≠ number := fun heq => h.1 (heq ▸ List.mem_map_of_mem hmem)
      simpa [hne] using ih h.2 hmem

/-- Nothing is read that was not written. -/
theorem exists_of_find?_stored {doc : Document Single} (hdoc : Numbered doc) {number : Nat}
    {p : Obj Single} (h : doc.stored.find? number = some p) :
    ∃ o, doc.find? number = some o ∧ storedObj o = some p := by
  simp only [Document.find?, Option.map_eq_some_iff] at h
  obtain ⟨entry, hentry, rfl⟩ := h
  have hnumber : entry.1 = number := by simpa using List.find?_some hentry
  have hmem := List.mem_of_find?_eq_some hentry
  simp only [Document.stored, writtenObjects, List.mem_filterMap, List.mem_filter,
    Option.map_eq_some_iff] at hmem
  obtain ⟨⟨n, o⟩, ⟨hmem, -⟩, p, hstored, rfl⟩ := hmem
  obtain rfl : n = number := hnumber
  exact ⟨o, find?_of_mem hdoc.distinct hmem, hstored⟩

end Folio.Pdf

namespace Folio.Flow

open Style Pdf Document

/-! ## Pages that are read back -/

/-- A page leads to its dictionary and its stream again. -/
theorem Entered.stored {setting : PageSetting Single} {doc : Document Single} {number : Nat}
    {page : Canvas Single} (h : Entered setting doc number page)
    (hsize : ReadableSize setting.width setting.height) :
    ∃ d, doc.stored.find? number = some (.dictionary d) ∧
      IsPage doc.stored d [setting.encode page.operations] := by
  obtain ⟨content, images, marks, hfind, himages, hmarks, hcontent⟩ := h
  have hpage : IsPage doc (pageDict setting content images marks)
      [setting.encode page.operations] := isPage_pageDict hcontent
  obtain ⟨d, hd⟩ : ∃ d, storedEntries (pageDict setting content images marks) = some d :=
    Option.isSome_iff_exists.mp ((isSome_stored_pageDict himages hmarks).mpr hsize)
  have hwritten := isWritten_of_kind hpage.type (by simp)
  refine ⟨d, find?_stored hfind hwritten (by simp [storedObj, hd]), ?_, ?_⟩
  · rw [valueUnder_stored hd, hpage.type]
    rfl
  · have hcontents : valueUnder "Contents" d = some (.reference content) := by
      rw [valueUnder_stored hd]
      simp [pageDict, valueUnder_ofList, storedObj]
    have hstream : doc.stored.find? content =
        some (.stream [] (setting.encode page.operations)) :=
      find?_stored hcontent (by simp [isWritten, kind?, Dict.get?, Dict.has]) (by
        simp [storedObj, storedEntries])
    rw [hcontents]
    exact .cons ⟨content, 0, [], rfl, hstream⟩ .nil

theorem WrittenAs.stored_displays {setting : PageSetting Single} {pages : List (Canvas Single)}
    {doc : Document Single} (h : WrittenAs setting pages doc)
    (hsize : ReadableSize setting.width setting.height) :
    Displays doc.stored (setting.shown pages) := by
  refine h.displays_of (fun number p hfind => ?_) ?_
    fun number page hentered => hentered.stored hsize
  · obtain ⟨o, ho, -⟩ := exists_of_find?_stored h.numbered hfind
    exact h.numbered.below number o ho
  · have hcatalog : storedObj (.dictionary (Dict.ofList [("Type", Obj.nameOf "Catalog"),
        ("Pages", .reference setting.tree)])) = some (.dictionary (Dict.ofList
          [("Type", Obj.nameOf "Catalog"), ("Pages", .reference setting.tree)])) := by
      simp [storedObj, storedEntries, Dict.ofList, Obj.nameOf]
    have hkids : References (setting.pages.map fun n => (.reference n : Obj Single)) := by
      simp [References]
    have htree : storedObj (.dictionary (pageTree setting.pages)) =
        some (.dictionary (pageTree setting.pages)) := by
      simp [storedObj, storedEntries, pageTree, Dict.ofList, Obj.nameOf,
        storedItems_references hkids]
    have hcatalogType : valueUnder "Type" (Dict.ofList [("Type", Obj.nameOf "Catalog"),
        ("Pages", .reference setting.tree)]) = some (Obj.nameOf "Catalog" : Obj Single) := by
      simp [valueUnder_ofList]
    have htreeType : valueUnder "Type" (pageTree setting.pages) =
        some (Obj.nameOf "Pages" : Obj Single) := by
      simp [pageTree, valueUnder_ofList]
    refine ⟨_, _, find?_stored h.root (isWritten_of_kind hcatalogType (by simp)) hcatalog, ?_,
      find?_stored h.tree (isWritten_of_kind htreeType (by simp)) htree, ?_⟩
    · simp [valueUnder_ofList]
    · simp [pageTree, valueUnder_ofList]

/-- Documents with pages of that size have the same pages when they are read from their files. -/
def ReadsBack (g : Geometry Single) : Prop :=
  ∀ s : Layout Single, s.geometry = g →
    (s.document encodeOperations).stored.pages = (s.document encodeOperations).pages

/-- A number that is taken for a page leads to an object. -/
theorem exists_of_mem_pages {α : Type} {doc : Document α} {number : Nat}
    (h : number ∈ doc.pages) : ∃ o, doc.find? number = some o := by
  obtain ⟨d, hd⟩ := exists_getDict?_of_mem_pages h
  cases hfind : doc.find? number with
  | some o => exact ⟨o, rfl⟩
  | none =>
    simp [Document.getDict?, Document.getDict, locate?, follow, hfind, Except.toOption] at hd

theorem readsBack_iff (g : Geometry Single) : ReadsBack g ↔ ReadableSize g.width g.height := by
  refine ⟨fun h => ?_, fun h s hs => ?_⟩
  · let s : Layout Single := { Layout.initial with geometry := g, finished := [.blank 1] }
    obtain ⟨setting, hsetting, hwritten⟩ := document_writtenAs encodeOperations s
    obtain ⟨number, hnumber⟩ : ∃ number, setting.pages = [number] :=
      List.length_eq_one_iff.mp hwritten.length
    have hpages : number ∈ (s.document encodeOperations).stored.pages := by
      rw [h s rfl, hwritten.displays.pages, PageSetting.map_shown hwritten.length, hnumber]
      exact List.mem_singleton_self number
    obtain ⟨content, images, marks, hfind, himages, hmarks, -⟩ :=
      hwritten.entered (number, .blank 1) (by simp [hnumber, s])
    obtain ⟨p, hp⟩ := exists_of_mem_pages hpages
    obtain ⟨o, ho, hstored⟩ := exists_of_find?_stored hwritten.numbered hp
    obtain rfl : .dictionary (pageDict setting content images marks) = o := by
      simpa [hfind] using ho
    have hentries : (storedEntries (pageDict setting content images marks)).isSome := by
      simpa [storedObj] using congrArg Option.isSome hstored
    rw [← hsetting.width, ← hsetting.height]
    exact (isSome_stored_pageDict himages hmarks).mp hentries
  · obtain ⟨setting, hsetting, hwritten⟩ := document_writtenAs encodeOperations s
    have hsize : ReadableSize setting.width setting.height := by
      rw [hsetting.width, hsetting.height, hs]
      exact h
    rw [(hwritten.stored_displays hsize).pages, hwritten.displays.pages]

end Folio.Flow
