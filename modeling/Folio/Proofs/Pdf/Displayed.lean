import Folio.Pdf.Page
import Folio.Proofs.Flow.PageTree
import Folio.Proofs.Json.Streams
import Mathlib.Data.List.Forall2
import Mathlib.Data.List.Perm.Subperm

/-!
# The pages a document displays

A document displays pages when its catalogue leads to a page tree that holds them, and the contents
of each page lead to streams that are there. This says all that a reader goes by, and it survives
every change that leaves the entries alone by which pages are found: new objects, fonts in a
dictionary, one more stream behind those of a page.
-/
namespace Folio.Pdf

open Document Flow

variable {α : Type}

/-! ## Keys -/

theorem bytesOf_inj {s t : String} : bytesOf s = bytesOf t ↔ s = t := toList_toUTF8_inj

theorem Dict.get?_set_of_ne {key other : Bytes} (h : other ≠ key) (value : Obj α) (d : Dict α) :
    Dict.get? other (Dict.set key value d) = Dict.get? other d := by
  induction d with
  | nil => simp [Dict.set, Dict.get?, Ne.symm h]
  | cons entry rest ih =>
    obtain ⟨k, v⟩ := entry
    by_cases hk : k = key
    · simp [Dict.set, Dict.get?, hk, Ne.symm h]
    · have hset : Dict.set key value ((k, v) :: rest) = (k, v) :: Dict.set key value rest := by
        simp [Dict.set, hk]
      rw [hset]
      by_cases ho : k = other
      · simp [Dict.get?, ho]
      · simpa [Dict.get?, ho] using ih

theorem valueUnder_ofList (key : String) (entries : List (String × Obj α)) :
    valueUnder key (Dict.ofList entries) = (entries.find? (·.1 == key)).map (·.2) := by
  unfold valueUnder Dict.get? Dict.ofList
  induction entries with
  | nil => rfl
  | cons entry rest ih =>
    by_cases hkey : entry.1 = key
    · simp [hkey]
    · have hbytes : bytesOf entry.1 ≠ bytesOf key := fun h => hkey (bytesOf_inj.mp h)
      simpa [hkey, hbytes] using ih

/-- Two dictionaries with the same values under some keys. -/
def AgreeOn (keys : List String) (d e : Dict α) : Prop :=
  ∀ key ∈ keys, valueUnder key e = valueUnder key d

theorem AgreeOn.set {keys : List String} {d e : Dict α} (h : AgreeOn keys d e) {name : Bytes}
    (hname : ∀ key ∈ keys, bytesOf key ≠ name) (value : Obj α) :
    AgreeOn keys d (Dict.set name value e) := fun key hkey =>
  (Dict.get?_set_of_ne (hname key hkey) value e).trans (h key hkey)

/-! ## Pages and their contents -/

/-- A reference to a stream with that content. -/
def Leads (doc : Document α) (o : Obj α) (content : Bytes) : Prop :=
  ∃ number generation entries, o = .reference number generation ∧
    doc.find? number = some (.stream entries content)

/-- A page with those contents. -/
structure IsPage (doc : Document α) (d : Dict α) (contents : List Bytes) : Prop where
  type : valueUnder "Type" d = some (Obj.nameOf "Page")
  contents : List.Forall₂ (Leads doc) (oneOrMore (valueUnder "Contents" d)) contents

/-- The document has those pages, given by their numbers and their contents, and no others. -/
structure Displays (doc : Document α) (pages : List (Nat × List Bytes)) : Prop where
  below : ∀ number o, doc.find? number = some o → number ≤ doc.maxId
  distinct : (pages.map (·.1)).Nodup
  tree : ∃ catalog tree generation root, doc.find? doc.root = some (.dictionary catalog) ∧
    valueUnder "Pages" catalog = some (.reference tree generation) ∧
    doc.find? tree = some (.dictionary root) ∧
    valueUnder "Kids" root = some (.array (pages.map fun p => .reference p.1))
  page : ∀ p ∈ pages, ∃ d, doc.find? p.1 = some (.dictionary d) ∧ IsPage doc d p.2

/-! ### What a reader finds -/

theorem locate?_of_find? {doc : Document α} {number : Nat} {o : Obj α}
    (h : doc.find? number = some o) (hreference : ∀ n g, o ≠ .reference n g) :
    doc.locate? number = some (number, o) := by
  unfold Document.locate? Document.maxReferences Document.follow
  rw [h]
  cases o with
  | reference n g => exact absurd rfl (hreference n g)
  | _ => rfl

theorem getDict?_of_find? {doc : Document α} {number : Nat} {d : Dict α}
    (h : doc.find? number = some (.dictionary d)) : doc.getDict? number = some d := by
  simp [Document.getDict?, Document.getDict, locate?_of_find? h (by simp), Except.toOption]

theorem Leads.streamOf {doc : Document α} {o : Obj α} {content : Bytes} (h : Leads doc o content) :
    (doc.streamOf o).map (·.2) = some content := by
  obtain ⟨number, generation, entries, rfl, hfind⟩ := h
  simp [Document.streamOf, Document.get, locate?_of_find? hfind (by simp)]

theorem IsPage.pageContents {doc : Document α} {d : Dict α} {contents : List Bytes}
    (h : IsPage doc d contents) : doc.pageContents d = contents := by
  unfold Document.pageContents
  have hitems := h.contents
  generalize oneOrMore (valueUnder "Contents" d) = items at hitems ⊢
  clear h
  induction hitems with
  | nil => rfl
  | cons hlead _ ih => simp [hlead.streamOf, ih]

theorem kind?_of_type {d : Dict α} {kind : String}
    (h : valueUnder "Type" d = some (Obj.nameOf kind)) :
    Document.kind? d = some (bytesOf kind) := by
  have htype : Dict.get? (bytesOf "Type") d = some (.name (bytesOf kind)) := h
  unfold Document.kind?
  rw [htype]

/-- A number that is taken for a page leads to a dictionary. -/
theorem exists_of_mem_pagesBelow {doc : Document α} {number limit : Nat}
    {pending : List (List (Obj α))} (h : number ∈ doc.pagesBelow limit pending) :
    ∃ d, doc.getDict? number = some d := by
  have hpage {kid : Obj α} {n : Nat} (hkid : doc.classify kid = .page n) :
      ∃ d, doc.getDict? n = some d := by
    unfold Document.classify at hkid
    split at hkid
    · split at hkid
      · next d hd =>
        simp only at hkid
        split at hkid
        · obtain rfl := Kid.page.inj hkid
          exact ⟨d, hd⟩
        · split at hkid <;> cases hkid
      · cases hkid
    · cases hkid
  fun_induction pagesBelow doc limit pending <;> grind

theorem exists_getDict?_of_mem_pages {doc : Document α} {number : Nat} (h : number ∈ doc.pages) :
    ∃ d, doc.getDict? number = some d := by
  unfold Document.pages at h
  split at h
  · split at h
    · exact exists_of_mem_pagesBelow h
    · cases h
  · cases h

/-- The pages of a document when no more than `limit` kids are visited. -/
def pagesUpTo (doc : Document α) (limit : Nat) : List Nat :=
  match valueUnder "Pages" ((doc.getDict? doc.root).getD []) with
  | some (.reference tree _) =>
    doc.pagesBelow limit [doc.kidsOf ((doc.getDict? tree).getD [])]
  | _ => []

theorem pages_eq (doc : Document α) : doc.pages = pagesUpTo doc doc.objects.length := by
  have hroot : (doc.getDict? doc.root).bind (Dict.get? (bytesOf "Pages")) =
      valueUnder "Pages" ((doc.getDict? doc.root).getD []) := by
    cases doc.getDict? doc.root <;> rfl
  unfold Document.pages pagesUpTo
  rw [hroot]
  cases valueUnder "Pages" ((doc.getDict? doc.root).getD []) with
  | none => rfl
  | some o =>
    cases o with
    | reference tree generation =>
      cases htree : doc.getDict? tree with
      | some d => simp [htree]
      | none =>
        have hnone : doc.kidsOf ([] : Dict α) = [] := rfl
        simp [htree, hnone, pagesBelow]
    | _ => rfl

/-- Kids that are pages are found as they stand. -/
theorem pagesBelow_of_pages {doc : Document α} {numbers : List Nat} {limit : Nat}
    (hlimit : numbers.length ≤ limit)
    (hpage : ∀ number ∈ numbers, doc.classify (.reference number) = .page number) :
    doc.pagesBelow limit [numbers.map fun number => .reference number] = numbers := by
  induction numbers generalizing limit with
  | nil => simp [pagesBelow]
  | cons number numbers ih =>
    obtain ⟨limit, rfl⟩ : ∃ n, limit = n + 1 := ⟨limit - 1, by simp at hlimit; omega⟩
    rw [List.map_cons, pagesBelow, hpage number List.mem_cons_self]
    simp only [List.cons.injEq, true_and]
    exact ih (by simpa using hlimit) fun n hn => hpage n (List.mem_cons_of_mem _ hn)

/-- The pages of a tree of one level. -/
theorem pagesUpTo_of_kids {doc : Document α} {numbers : List Nat} {catalog root : Dict α}
    {tree generation limit : Nat} (hroot : doc.find? doc.root = some (.dictionary catalog))
    (hpages : valueUnder "Pages" catalog = some (.reference tree generation))
    (htree : doc.find? tree = some (.dictionary root))
    (hkids : valueUnder "Kids" root = some (.array (numbers.map fun number => .reference number)))
    (hpage : ∀ number ∈ numbers, ∃ d, doc.find? number = some (.dictionary d) ∧
      valueUnder "Type" d = some (Obj.nameOf "Page")) (hlimit : numbers.length ≤ limit) :
    pagesUpTo doc limit = numbers := by
  have hkidsOf : doc.kidsOf root = numbers.map fun number => .reference number := by
    have hget : Dict.get? (bytesOf "Kids") root = _ := hkids
    simp [Document.kidsOf, hget, Document.target?, Obj.asArray?]
  unfold pagesUpTo
  simp only [getDict?_of_find? hroot, getDict?_of_find? htree, Option.getD_some, hpages, hkidsOf]
  refine pagesBelow_of_pages hlimit fun number hnumber => ?_
  obtain ⟨d, hfind, htype⟩ := hpage number hnumber
  simp [Document.classify, getDict?_of_find? hfind, kind?_of_type htype]

theorem Displays.length_le {doc : Document α} {pages : List (Nat × List Bytes)}
    (h : Displays doc pages) : pages.length ≤ doc.objects.length := by
  have hsub : pages.map (·.1) ⊆ doc.objects.map (·.1) := by
    intro number hnumber
    obtain ⟨p, hp, rfl⟩ := List.mem_map.mp hnumber
    obtain ⟨d, hfind, -⟩ := h.page p hp
    simp only [Document.find?, Option.map_eq_some_iff] at hfind
    obtain ⟨entry, hentry, -⟩ := hfind
    have heq : entry.1 = p.1 := by simpa using List.find?_some hentry
    exact List.mem_map.mpr ⟨entry, List.mem_of_find?_eq_some hentry, heq⟩
  simpa using (List.Nodup.subperm h.distinct hsub).length_le

/-- A reader finds the pages in order. -/
theorem Displays.pages {doc : Document α} {pages : List (Nat × List Bytes)}
    (h : Displays doc pages) : doc.pages = pages.map (·.1) := by
  obtain ⟨catalog, tree, generation, root, hroot, hpages, htree, hkids⟩ := h.tree
  rw [pages_eq]
  refine pagesUpTo_of_kids hroot hpages htree ?_ (fun number hnumber => ?_)
    (by simpa using h.length_le)
  · rw [hkids, List.map_map]
    rfl
  obtain ⟨p, hp, rfl⟩ := List.mem_map.mp hnumber
  obtain ⟨d, hfind, hpage⟩ := h.page p hp
  exact ⟨d, hfind, hpage.type⟩

/-- A reader finds the contents of each page. -/
theorem Displays.contents {doc : Document α} {pages : List (Nat × List Bytes)}
    (h : Displays doc pages) {p : Nat × List Bytes} (hp : p ∈ pages) :
    ∃ d, doc.getDict? p.1 = some d ∧ doc.pageContents d = p.2 := by
  obtain ⟨d, hfind, hpage⟩ := h.page p hp
  exact ⟨d, getDict?_of_find? hfind, hpage.pageContents⟩

/-! ## Changes of a document -/

/-- A change that keeps what is found, dictionaries as far as the keys go. -/
structure Extends (keys : List String) (doc next : Document α) : Prop where
  root : next.root = doc.root
  below : (∀ number o, doc.find? number = some o → number ≤ doc.maxId) →
    ∀ number o, next.find? number = some o → number ≤ next.maxId
  dictionary : ∀ number d, doc.find? number = some (.dictionary d) →
    ∃ e, next.find? number = some (.dictionary e) ∧ AgreeOn keys d e
  stream : ∀ number entries content, doc.find? number = some (.stream entries content) →
    next.find? number = some (.stream entries content)

/-- The entries by which the pages of a document are found. -/
def treeKeys : List String := ["Type", "Pages", "Kids"]

theorem Leads.extends {keys : List String} {doc next : Document α} {o : Obj α} {content : Bytes}
    (h : Leads doc o content) (hnext : Extends keys doc next) : Leads next o content := by
  obtain ⟨number, generation, entries, rfl, hfind⟩ := h
  exact ⟨number, generation, entries, rfl, hnext.stream _ _ _ hfind⟩

/-- The pages stay, and their contents are those that the changed dictionaries lead to. -/
theorem Displays.extends {doc next : Document α} {pages after : List (Nat × List Bytes)}
    (h : Displays doc pages) (hnext : Extends treeKeys doc next)
    (hnumbers : after.map (·.1) = pages.map (·.1))
    (hcontents : ∀ p ∈ after, ∀ d, next.find? p.1 = some (.dictionary d) →
      List.Forall₂ (Leads next) (oneOrMore (valueUnder "Contents" d)) p.2) :
    Displays next after where
  below := hnext.below h.below
  distinct := by
    rw [hnumbers]
    exact h.distinct
  tree := by
    obtain ⟨catalog, tree, generation, root, hroot, hpages, htree, hkids⟩ := h.tree
    obtain ⟨catalog', hroot', hcatalog⟩ := hnext.dictionary _ _ hroot
    obtain ⟨root', htree', hagree⟩ := hnext.dictionary _ _ htree
    refine ⟨catalog', tree, generation, root', ?_, ?_, htree', ?_⟩
    · rw [hnext.root]
      exact hroot'
    · rw [hcatalog "Pages" (by simp [treeKeys]), hpages]
    · have hrefs : after.map (fun p => (.reference p.1 : Obj α)) =
          pages.map fun p => .reference p.1 := by
        simpa [Function.comp_def] using
          congrArg (List.map fun number => (.reference number : Obj α)) hnumbers
      rw [hagree "Kids" (by simp [treeKeys]), hkids, hrefs]
  page := by
    intro p hp
    obtain ⟨q, hq, heq⟩ : ∃ q ∈ pages, q.1 = p.1 := by
      have hmem : p.1 ∈ pages.map (·.1) := hnumbers ▸ List.mem_map_of_mem hp
      simpa using hmem
    obtain ⟨d, hfind, hpage⟩ := h.page q hq
    obtain ⟨e, hnextFind, hagree⟩ := hnext.dictionary _ _ (heq ▸ hfind)
    refine ⟨e, hnextFind, ?_, hcontents p hp e hnextFind⟩
    rw [hagree "Type" (by simp [treeKeys]), hpage.type]

/-- Nothing changes for a reader when the contents stay as well. -/
theorem Displays.keep {doc next : Document α} {pages : List (Nat × List Bytes)}
    (h : Displays doc pages) (hnext : Extends ("Contents" :: treeKeys) doc next) :
    Displays next pages := by
  have htree : Extends treeKeys doc next := ⟨hnext.root, hnext.below, fun number d hfind => by
    obtain ⟨e, he, hagree⟩ := hnext.dictionary number d hfind
    exact ⟨e, he, fun key hkey => hagree key (List.mem_cons_of_mem _ hkey)⟩, hnext.stream⟩
  refine h.extends htree rfl fun p hp e he => ?_
  obtain ⟨d, hfind, hpage⟩ := h.page p hp
  obtain ⟨e', he', hagree⟩ := hnext.dictionary _ _ hfind
  obtain rfl : e' = e := by simpa [he] using he'.symm
  rw [hagree "Contents" List.mem_cons_self]
  exact hpage.contents.imp fun _ _ hlead => hlead.extends hnext

/-- A new object is no change for what is there. -/
theorem extends_add {keys : List String} {doc : Document α}
    (h : ∀ number o, doc.find? number = some o → number ≤ doc.maxId) (o : Obj α) :
    Extends keys doc (doc.add o).2 := by
  have hkept {number : Nat} {p : Obj α} (hfind : doc.find? number = some p) :
      (doc.add o).2.find? number = some p := by
    rw [find?_add_of_le doc (h _ _ hfind)]
    exact hfind
  refine ⟨rfl, fun _ number p hfind => ?_, fun number d hfind => ?_, fun _ _ _ => hkept⟩
  · by_cases hnumber : number = doc.maxId + 1
    · exact Nat.le_of_eq hnumber
    · have hold : doc.find? number = some p := (find?_set_of_ne hnumber doc o).symm.trans hfind
      exact Nat.le_succ_of_le (h _ _ hold)
  · exact ⟨d, hkept hfind, fun _ _ => rfl⟩

theorem Displays.add {doc : Document α} {pages : List (Nat × List Bytes)} (h : Displays doc pages)
    (o : Obj α) : Displays (doc.add o).2 pages :=
  h.keep (extends_add h.below o)

/-- A dictionary is changed under other keys. -/
theorem extends_set {keys : List String} {doc : Document α} {number : Nat} {d e : Dict α}
    (hfind : doc.find? number = some (.dictionary d)) (hagree : AgreeOn keys d e) :
    Extends keys doc (doc.set number (.dictionary e)) where
  root := rfl
  below h other p hother := by
    by_cases hnumber : other = number
    · exact h other (.dictionary d) (hnumber ▸ hfind)
    · exact h other p ((find?_set_of_ne hnumber doc _).symm.trans hother)
  dictionary other c hother := by
    by_cases hnumber : other = number
    · subst hnumber
      obtain rfl : d = c := by simpa [hfind] using hother
      exact ⟨e, find?_set_self .., hagree⟩
    · exact ⟨c, (find?_set_of_ne hnumber doc _).trans hother, fun _ _ => rfl⟩
  stream other entries content hother := by
    have hnumber : other ≠ number := by
      rintro rfl
      simp [hfind] at hother
    exact (find?_set_of_ne hnumber doc _).trans hother

end Folio.Pdf
