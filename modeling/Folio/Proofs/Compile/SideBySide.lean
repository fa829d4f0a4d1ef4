import Folio.Proofs.Cache.WriteOnce
import Folio.Proofs.Compile.Guarded

/-!
# Two runs side by side

Two runs that go the same way from states that agree, but for pictures and drawings in the table of
content, and that may quote different markup in their errors. As long as what is stored for a
picture or a drawing is what would be computed for it, neither run can tell the states apart.
-/
namespace Folio.Compile

open Style Markup

variable {α β γ δ δ' : Type}

/-! ## Answers -/

/-- An error without the markup that it quotes. -/
def CompileError.unquoted : CompileError → CompileError
  | .unknownTag _ _ => .unknownTag "" .null
  | .unsupportedImageSource _ => .unsupportedImageSource .null
  | .invalidNode fault _ => .invalidNode fault .null
  | error => error

/-- The same result, or one error that may quote different markup. -/
inductive SameAnswer : Except CompileError β → Except CompileError β → Prop
  | ok (b : β) : SameAnswer (.ok b) (.ok b)
  | error {e e' : CompileError} (h : e.unquoted = e'.unquoted) : SameAnswer (.error e) (.error e')

theorem SameAnswer.refl (r : Except CompileError β) : SameAnswer r r := by
  cases r with
  | ok b => exact .ok b
  | error e => exact .error rfl

/-! ## Runs -/

/-- From related states the runs give one answer and lead to related states. -/
def Matches (R : State α → State α → Prop) (act act' : CompileM α β) : Prop :=
  ∀ s t, R s t → SameAnswer (act.run s).1 (act'.run t).1 ∧ R (act.run s).2 (act'.run t).2

variable {R : State α → State α → Prop}

theorem matches_of_related {act : CompileM α β} (h : Related R act) : Matches R act act := by
  intro s t hst
  obtain ⟨hresult, hstate⟩ := h s t hst
  exact ⟨hresult ▸ .refl _, hstate⟩

theorem matches_pure (b : β) : Matches R (pure b) (pure b) :=
  matches_of_related (related_pure b)

theorem matches_throw {e e' : CompileError} (h : e.unquoted = e'.unquoted) :
    Matches R (throw e : CompileM α β) (throw e') := fun _ _ hst => ⟨.error h, hst⟩

theorem matches_invalid (fault : NodeFault) (node node' : Json) :
    Matches R (invalid fault node : CompileM α β) (invalid fault node') := matches_throw rfl

theorem matches_ofColor {r r' : Except Color.Fault β} (h : r = r') :
    Matches R (ofColor r : CompileM α β) (ofColor r') := by
  subst h
  cases r with
  | ok b => exact matches_pure b
  | error fault => exact matches_throw rfl

theorem Matches.bind {act act' : CompileM α β} {next next' : β → CompileM α γ}
    (h : Matches R act act') (hnext : ∀ b, Matches R (next b) (next' b)) :
    Matches R (act >>= next) (act' >>= next') := by
  intro s t hst
  obtain ⟨hresult, hstate⟩ := h s t hst
  rw [run_bind, run_bind]
  rcases hs : act.run s with ⟨r, s'⟩
  rcases ht : act'.run t with ⟨r', t'⟩
  rw [hs, ht] at hresult hstate
  cases hresult with
  | ok b => exact hnext b s' t' hstate
  | error he => exact ⟨.error he, hstate⟩

theorem Matches.map {act act' : CompileM α β} (h : Matches R act act') (f : β → γ) :
    Matches R (act >>= fun b => pure (f b)) (act' >>= fun b => pure (f b)) :=
  h.bind fun b => matches_pure (f b)

theorem matches_mapM {P : δ → δ' → Prop} {f : δ → CompileM α β} {g : δ' → CompileM α β}
    {xs : List δ} {ys : List δ'} (hitems : List.Forall₂ P xs ys)
    (h : ∀ x ∈ xs, ∀ y ∈ ys, P x y → Matches R (f x) (g y)) :
    Matches R (xs.mapM f) (ys.mapM g) := by
  induction hitems with
  | nil => exact matches_pure []
  | @cons x y xs ys hxy _ ih =>
    rw [List.mapM_cons, List.mapM_cons]
    refine (h x List.mem_cons_self y List.mem_cons_self hxy).bind fun b => ?_
    have hrest := ih fun z hz w hw => h z (List.mem_cons_of_mem x hz) w (List.mem_cons_of_mem y hw)
    exact hrest.map _

theorem matches_within {enter leave : State α → State α}
    (henter : ∀ s t, R s t → R (enter s) (enter t)) (hleave : ∀ s t, R s t → R (leave s) (leave t))
    {act act' : CompileM α β} (h : Matches R act act') :
    Matches R (within enter leave act) (within enter leave act') := by
  intro s t hst
  obtain ⟨hresult, hstate⟩ := h _ _ (henter s t hst)
  exact ⟨hresult, hleave _ _ hstate⟩

/-! ## States -/

/-- States that agree on everything but the counts and what is stored for pictures and drawings. -/
structure SameCourse (s t : State α) : Prop where
  chapters : s.chapters = t.chapters
  outline : s.outline = t.outline
  resolving : s.resolving = t.resolving
  targets : ∀ id, s.cache.find? (.reference id) = t.cache.find? (.reference id)

theorem SameCourse.refl (s : State α) : SameCourse s s := ⟨rfl, rfl, rfl, fun _ => rfl⟩

theorem SameCourse.symm {s t : State α} (h : SameCourse s t) : SameCourse t s :=
  ⟨h.chapters.symm, h.outline.symm, h.resolving.symm, fun id => (h.targets id).symm⟩

theorem SameCourse.trans {s t u : State α} (h : SameCourse s t) (k : SameCourse t u) :
    SameCourse s u :=
  ⟨h.chapters.trans k.chapters, h.outline.trans k.outline, h.resolving.trans k.resolving,
    fun id => (h.targets id).trans (k.targets id)⟩

variable [Scalar α] {env : Env α} {K : Json × Context → Prop}

/-- What is stored is the target of a reference or what would be computed for a key in `K`. -/
def FaithfulDrawings (env : Env α) (K : Json × Context → Prop) (s : State α) : Prop :=
  ∀ entry ∈ s.cache.entries, (∃ id, entry.1 = .reference id) ∨ StoredFor env K entry

/-- States that no run with keys in `K` can tell apart. -/
structure Parallel (env : Env α) (K : Json × Context → Prop) (s t : State α) : Prop where
  course : SameCourse s t
  left : FaithfulDrawings env K s
  right : FaithfulDrawings env K t

namespace Parallel

variable {s t : State α}

/-- Neither the counts nor frames and ids that are opened or closed in both make a difference. -/
theorem congr (h : Parallel env K s t) {s' t' : State α} (hcourse : SameCourse s' t')
    (hleft : s'.cache.entries = s.cache.entries) (hright : t'.cache.entries = t.cache.entries) :
    Parallel env K s' t' where
  course := hcourse
  left entry hentry := h.left entry (hleft ▸ hentry)
  right entry hentry := h.right entry (hright ▸ hentry)

theorem recount (h : Parallel env K s t) (hits misses hits' misses' : Nat) :
    Parallel env K { s with cache := ⟨s.cache.entries, hits, misses⟩ }
      { t with cache := ⟨t.cache.entries, hits', misses'⟩ } :=
  h.congr ⟨h.course.chapters, h.course.outline, h.course.resolving, h.course.targets⟩ rfl rfl

theorem store (h : Parallel env K s t) (id : String) (n : Node α) :
    Parallel env K
      { s with cache := { s.cache with entries := s.cache.entries ++ [(.reference id, n)] } }
      { t with cache := { t.cache with entries := t.cache.entries ++ [(.reference id, n)] } } where
  course := by
    refine ⟨h.course.chapters, h.course.outline, h.course.resolving, fun other => ?_⟩
    simp only [Cache.find?_append, h.course.targets]
  left entry hentry := by
    rcases List.mem_append.mp hentry with hentry | hentry
    · exact h.left entry hentry
    · exact .inl ⟨id, congrArg Prod.fst (List.mem_singleton.mp hentry)⟩
  right entry hentry := by
    rcases List.mem_append.mp hentry with hentry | hentry
    · exact h.right entry hentry
    · exact .inl ⟨id, congrArg Prod.fst (List.mem_singleton.mp hentry)⟩

end Parallel

/-! ## Asking the table of content -/

/-- Asking for a picture or a drawing comes to what would be computed, and what else a run can see
stays as it was. -/
theorem run_memo_drawing (hkeys : Unconfused K) {s : State α} (h : FaithfulDrawings env K s)
    {key : Json × Context} {act : CompileM α (Node α)} (hkey : K key)
    (hguarded : guarded? env key.1 key.2 = some act) :
    ((memo (.ofNode key.1 key.2) act).run s).1 = (act.run .initial).1 ∧
      SameCourse s ((memo (.ofNode key.1 key.2) act).run s).2 ∧
      FaithfulDrawings env K ((memo (.ofNode key.1 key.2) act).run s).2 := by
  have hstored : ∀ entry ∈ s.cache.entries, entry.1 == .ofNode key.1 key.2 →
      StoredFor env K entry := by
    intro entry hentry htaken
    rcases h entry hentry with ⟨id, hid⟩ | hstored
    · rw [hid] at htaken
      cases htaken
    · exact hstored
  obtain ⟨hresult, more, cache, renders, hafter, hentries, hmore⟩ :=
    run_memo_stored hkeys hkey hguarded hstored
  rw [hafter]
  refine ⟨hresult, ⟨rfl, rfl, rfl, fun id => ?_⟩, fun entry hentry => ?_⟩
  · have hnone : more.find? (fun entry => entry.1 == .reference id) = none := by
      refine List.find?_eq_none.mpr fun entry hentry => ?_
      rw [(hmore entry hentry).1]
      exact Bool.noConfusion
    unfold Cache.find?
    simp only [hentries, List.find?_append, hnone, Option.or_none]
  · simp only [hentries] at hentry
    exact (List.mem_append.mp hentry).elim (h entry) fun hentry => .inr (hmore entry hentry).2

/-- Two drawings that would come to one answer do so behind the table of content. -/
theorem matches_memo_drawing (hkeys : Unconfused K) {key key' : Json × Context}
    {act act' : CompileM α (Node α)} (hkey : K key) (hkey' : K key')
    (hguarded : guarded? env key.1 key.2 = some act)
    (hguarded' : guarded? env key'.1 key'.2 = some act')
    (hsame : SameAnswer (act.run .initial).1 (act'.run .initial).1) :
    Matches (Parallel env K) (memo (.ofNode key.1 key.2) act)
      (memo (.ofNode key'.1 key'.2) act') := by
  intro s t hst
  obtain ⟨hresult, hcourse, hfaithful⟩ := run_memo_drawing hkeys hst.left hkey hguarded
  obtain ⟨hresult', hcourse', hfaithful'⟩ := run_memo_drawing hkeys hst.right hkey' hguarded'
  rw [hresult, hresult']
  exact ⟨hsame, hcourse.symm.trans (hst.course.trans hcourse'), hfaithful, hfaithful'⟩

/-- The target of a reference is stored in both tables or in neither. -/
theorem matches_memo_reference (id : String) {act act' : CompileM α (Node α)}
    (h : Matches (Parallel env K) act act') :
    Matches (Parallel env K) (memo (.reference id) act) (memo (.reference id) act') := by
  intro s t hst
  have htargets := hst.course.targets id
  cases hfind : s.cache.find? (.reference id) with
  | some n =>
    rw [run_memo_of_found hfind, run_memo_of_found (htargets ▸ hfind)]
    exact ⟨.ok n, hst.recount _ _ _ _⟩
  | none =>
    obtain ⟨hresult, hstate⟩ := h _ _ (hst.recount s.cache.hits (s.cache.misses + 1) t.cache.hits
      (t.cache.misses + 1))
    rcases hs : act.run { s with cache := s.cache.countMiss } with ⟨r, u⟩
    rcases ht : act'.run { t with cache := t.cache.countMiss } with ⟨r', u'⟩
    unfold Cache.countMiss at hs ht
    rw [hs, ht] at hresult hstate
    cases hresult with
    | error he =>
      rw [run_memo_of_failed hfind hs, run_memo_of_failed (htargets ▸ hfind) ht]
      exact ⟨.error he, hstate⟩
    | ok n =>
      rw [run_memo_of_ok hfind hs, run_memo_of_ok (htargets ▸ hfind) ht]
      -- the run itself may have stored the target, and then it did so in both
      have hstored := hstate.course.targets id
      unfold Cache.store
      rw [← hstored]
      cases u.cache.find? (.reference id) with
      | some m => exact ⟨.ok m, hstate⟩
      | none => exact ⟨.ok n, hstate.store id n⟩

/-! ## Numbers and open references -/

theorem matches_nextChapter : Matches (Parallel env K) nextChapter nextChapter := by
  refine matches_of_related (related_modifyGet fun s t hst => ?_)
  have hchapters := congrArg (· + 1) hst.course.chapters
  exact ⟨hchapters.symm,
    hst.congr ⟨hchapters, hst.course.outline, hst.course.resolving, hst.course.targets⟩ rfl rfl⟩

theorem matches_nextSection : Matches (Parallel env K) nextSection nextSection := by
  refine matches_of_related (related_modifyGet fun s t hst => ?_)
  have houtline := hst.course.outline
  cases hframes : s.outline with
  | nil =>
    rw [← houtline, hframes]
    exact ⟨rfl, hst⟩
  | cons frame frames =>
    rw [← houtline, hframes]
    exact ⟨rfl, hst.congr ⟨hst.course.chapters, rfl, hst.course.resolving, hst.course.targets⟩
      rfl rfl⟩

theorem matches_withinFrame (number : List Nat) {act act' : CompileM α β}
    (h : Matches (Parallel env K) act act') :
    Matches (Parallel env K) (withinFrame number act) (withinFrame number act') := by
  refine matches_within (fun s t hst => ?_) (fun s t hst => ?_) h
  · exact hst.congr ⟨hst.course.chapters, congrArg (_ :: ·) hst.course.outline,
      hst.course.resolving, hst.course.targets⟩ rfl rfl
  · exact hst.congr ⟨hst.course.chapters, congrArg List.tail hst.course.outline,
      hst.course.resolving, hst.course.targets⟩ rfl rfl

theorem matches_resolving (id : String) {act act' : CompileM α β}
    (h : Matches (Parallel env K) act act') :
    Matches (Parallel env K) (resolving id act) (resolving id act') := by
  intro s t hst
  unfold resolving
  rw [run_bind, run_bind, run_get, run_get]
  simp only [← hst.course.resolving]
  split
  · exact ⟨.error rfl, hst⟩
  · refine matches_within (fun s t hst => ?_) (fun s t hst => ?_) h s t hst
    · exact hst.congr ⟨hst.course.chapters, hst.course.outline,
        congrArg (· ++ [id]) hst.course.resolving, hst.course.targets⟩ rfl rfl
    · exact hst.congr ⟨hst.course.chapters, hst.course.outline,
        congrArg List.dropLast hst.course.resolving, hst.course.targets⟩ rfl rfl

end Folio.Compile
