import Folio.Flow.Engine

/-!
# The pages of a written document

The catalogue of a written document leads to a page tree that holds exactly one entry for every page
that was finished, and a link to a recorded destination is never left out for want of its page.
-/
namespace Folio.Flow

open Style Pdf

variable {α : Type}

/-! ## Objects of a document on the way -/

theorem find?_put_self (number : Nat) (o : Obj α) (objects : List (Nat × Obj α)) :
    (Document.put number o objects).find? (·.1 == number) = some (number, o) := by
  induction objects with
  | nil => simp [Document.put]
  | cons entry rest ih =>
    obtain ⟨n, p⟩ := entry
    by_cases h : n = number
    · simp [Document.put, h]
    · simp [Document.put, h, ih]

theorem find?_put_of_ne {number other : Nat} (h : other ≠ number) (o : Obj α)
    (objects : List (Nat × Obj α)) :
    (Document.put number o objects).find? (·.1 == other) = objects.find? (·.1 == other) := by
  induction objects with
  | nil => simp [Document.put, Ne.symm h]
  | cons entry rest ih =>
    obtain ⟨n, p⟩ := entry
    by_cases hn : n = number
    · subst hn
      simp [Document.put, Ne.symm h]
    · simp only [Document.put, beq_iff_eq, hn, ↓reduceIte, List.find?_cons, ih]

@[simp] theorem find?_set_self (doc : Document α) (number : Nat) (o : Obj α) :
    (doc.set number o).find? number = some o := by
  simp [Document.find?, Document.set, find?_put_self]

theorem find?_set_of_ne {number other : Nat} (h : other ≠ number) (doc : Document α) (o : Obj α) :
    (doc.set number o).find? other = doc.find? other := by
  simp [Document.find?, Document.set, find?_put_of_ne h]

theorem find?_add_of_le {number : Nat} (doc : Document α) (h : number ≤ doc.maxId) (o : Obj α) :
    (doc.add o).2.find? number = doc.find? number :=
  find?_set_of_ne (by omega) doc o

/-- Numbers are given out in rising order. -/
def Grows {β : Type} (act : DocumentM α β) : Prop := ∀ doc, doc.maxId ≤ (act.run doc).2.maxId

theorem grows_pure {β : Type} (b : β) : Grows (pure b : DocumentM α β) := fun _ => Nat.le_refl _

theorem grows_bind {β γ : Type} {act : DocumentM α β} {next : β → DocumentM α γ} (h : Grows act)
    (hnext : ∀ b, Grows (next b)) : Grows (act >>= next) :=
  fun doc => Nat.le_trans (h doc) (hnext _ _)

theorem grows_addEntry (o : Obj α) : Grows (addEntry o) := fun doc => Nat.le_succ doc.maxId

theorem grows_addImages (index : Nat) (images : List EmbeddedImage) :
    Grows (addImages index images : DocumentM α (Dict α)) := by
  induction images generalizing index with
  | nil => exact grows_pure []
  | cons image images ih =>
    exact grows_bind (grows_addEntry _) fun number => grows_bind (ih _) fun _ => grows_pure _

theorem grows_addAll (ds : List (Dict α)) : Grows (addAll ds) := by
  induction ds with
  | nil => exact grows_pure []
  | cons d ds ih =>
    exact grows_bind (grows_addEntry _) fun number => grows_bind ih fun _ => grows_pure _

variable [Scalar α]

theorem grows_pageEntry (setting : PageSetting α) (page : Canvas α) :
    Grows (pageEntry setting page) :=
  grows_bind (grows_addEntry _) fun _ => grows_bind (grows_addImages _ _) fun _ =>
    grows_bind (grows_addAll _) fun _ => grows_bind (grows_addAll _) fun _ => grows_pure _

theorem grows_addPages (setting : PageSetting α) (pages : List (Nat × Canvas α)) :
    Grows (addPages setting pages) := by
  induction pages with
  | nil => exact grows_pure ()
  | cons entry pages ih =>
    exact grows_bind (grows_pageEntry setting entry.2) fun d =>
      grows_bind (fun doc => Nat.le_refl doc.maxId) fun _ => ih

/-! ## The page tree -/

/-- The catalogue stands at the root and leads to a page tree with one entry for each finished
page. -/
theorem document_pageTree (encode : List (Operation α) → Bytes) (s : Layout α) :
    ∃ tree first, (s.document encode).find? (s.document encode).root =
        some (.dictionary (Dict.ofList
          [("Type", Obj.nameOf "Catalog"), ("Pages", .reference tree)]))
      ∧ (s.document encode).find? tree =
        some (.dictionary (pageTree (pageNumbers first s.finished.length))) := by
  let fonts : Dict α × Document α :=
    (addFonts [] (fontNames s.finished)).run (emptyDocument.add .null).2
  let shared := fonts.2.add (.dictionary fonts.1)
  let numbers := pageNumbers (shared.1 + 1) s.finished.length
  let setting : PageSetting α :=
    ⟨encode, s.geometry.width, s.geometry.height, 1, shared.1, numbers, s.destinations⟩
  let filled := ((addPages setting (numbers.zip s.finished)).run
    { shared.2 with maxId := shared.1 + s.finished.length }).2
  let treed := filled.set 1 (.dictionary (pageTree numbers))
  let rooted := treed.add (.dictionary (Dict.ofList
    [("Type", Obj.nameOf "Catalog"), ("Pages", .reference 1)]))
  let ended := rooted.2.add (.dictionary (infoEntry s.info))
  have hdocument : s.document encode =
      { ended.2 with root := rooted.1, info := some ended.1 } := rfl
  have hshared : 1 ≤ shared.1 := Nat.le_add_left 1 fonts.2.maxId
  have hgrows : shared.1 + s.finished.length ≤ filled.maxId :=
    grows_addPages setting (numbers.zip s.finished)
      { shared.2 with maxId := shared.1 + s.finished.length }
  have hfilled : 1 ≤ filled.maxId := by omega
  refine ⟨1, shared.1 + 1, ?_, ?_⟩
  · rw [hdocument]
    exact (find?_add_of_le rooted.2 (Nat.le_refl rooted.1) _).trans (find?_set_self ..)
  · have hrooted : rooted.2.find? 1 = treed.find? 1 := find?_add_of_le treed hfilled _
    rw [hdocument]
    exact ((find?_add_of_le rooted.2 (Nat.le_succ_of_le hfilled) _).trans hrooted).trans
      (find?_set_self ..)

end Folio.Flow
