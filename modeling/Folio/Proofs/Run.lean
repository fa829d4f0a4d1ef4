/-!
# Runs that may fail

What a run over a state comes to when it may fail: its result beside the state it leaves, which is
kept when it fails. Layout and compilation are both such runs.
-/
namespace Folio

variable {ε σ β γ : Type}

/-- Nothing runs behind a failure. -/
theorem run_bind (act : ExceptT ε (StateM σ) β) (next : β → ExceptT ε (StateM σ) γ) (s : σ) :
    (act >>= next).run s = match act.run s with
      | (.ok b, t) => (next b).run t
      | (.error e, t) => (.error e, t) := by
  change (match act.run s with | (r, t) => ExceptT.bindCont next r t) = _
  rcases act.run s with ⟨r, t⟩
  cases r <;> rfl

@[simp] theorem run_pure (b : β) (s : σ) :
    (pure b : ExceptT ε (StateM σ) β).run s = (.ok b, s) := rfl

@[simp] theorem run_throw (e : ε) (s : σ) :
    (throw e : ExceptT ε (StateM σ) β).run s = (.error e, s) := rfl

@[simp] theorem run_get (s : σ) : (get : ExceptT ε (StateM σ) σ).run s = (.ok s, s) := rfl

@[simp] theorem run_modify (f : σ → σ) (s : σ) :
    (modify f : ExceptT ε (StateM σ) PUnit).run s = (.ok (), f s) := rfl

@[simp] theorem run_modifyGet (f : σ → β × σ) (s : σ) :
    (modifyGet f : ExceptT ε (StateM σ) β).run s = (.ok (f s).1, (f s).2) := rfl

theorem run_bind_of_ok {act : ExceptT ε (StateM σ) β} {s t : σ} {b : β}
    (h : act.run s = (.ok b, t)) (next : β → ExceptT ε (StateM σ) γ) :
    (act >>= next).run s = (next b).run t := by
  rw [run_bind, h]

/-- A run that succeeds has succeeded in both of its parts. -/
theorem exists_of_run_bind {act : ExceptT ε (StateM σ) β} {next : β → ExceptT ε (StateM σ) γ}
    {s u : σ} {c : γ} (h : (act >>= next).run s = (.ok c, u)) :
    ∃ b t, act.run s = (.ok b, t) ∧ (next b).run t = (.ok c, u) := by
  rw [run_bind] at h
  split at h
  · next b t hact => exact ⟨b, t, hact, h⟩
  · cases h

/-! ## Runs side by side -/

/-- From related states `act` gives one result and leads to related states. -/
def Related (R : σ → σ → Prop) (act : ExceptT ε (StateM σ) β) : Prop :=
  ∀ s t, R s t → (act.run t).1 = (act.run s).1 ∧ R (act.run s).2 (act.run t).2

variable {R : σ → σ → Prop}

theorem related_pure (b : β) : Related R (pure b : ExceptT ε (StateM σ) β) :=
  fun _ _ h => ⟨rfl, h⟩

theorem related_throw (e : ε) : Related R (throw e : ExceptT ε (StateM σ) β) :=
  fun _ _ h => ⟨rfl, h⟩

theorem related_modify {f : σ → σ} (hf : ∀ s t, R s t → R (f s) (f t)) :
    Related R (modify f : ExceptT ε (StateM σ) PUnit) := fun s t h => ⟨rfl, hf s t h⟩

theorem related_modifyGet {f : σ → β × σ}
    (hf : ∀ s t, R s t → (f t).1 = (f s).1 ∧ R (f s).2 (f t).2) :
    Related R (modifyGet f : ExceptT ε (StateM σ) β) :=
  fun s t h => ⟨congrArg Except.ok (hf s t h).1, (hf s t h).2⟩

theorem related_bind {act : ExceptT ε (StateM σ) β} {next : β → ExceptT ε (StateM σ) γ}
    (h : Related R act) (hnext : ∀ b, Related R (next b)) : Related R (act >>= next) := by
  intro s t hst
  obtain ⟨hresult, hstate⟩ := h s t hst
  rw [run_bind, run_bind]
  rcases hs : act.run s with ⟨r, s'⟩
  rcases ht : act.run t with ⟨r', t'⟩
  simp only [hs, ht] at hresult hstate
  subst hresult
  cases r' with
  | error e => exact ⟨rfl, hstate⟩
  | ok b => exact hnext b s' t' hstate

/-- What is read may differ as long as what follows takes it the same way. -/
theorem related_get_bind {next : σ → ExceptT ε (StateM σ) γ}
    (h : ∀ s t, R s t → ((next t).run t).1 = ((next s).run s).1 ∧
      R ((next s).run s).2 ((next t).run t).2) :
    Related R (get >>= next : ExceptT ε (StateM σ) γ) := by
  intro s t hst
  rw [run_bind, run_bind]
  exact h s t hst

end Folio
