import Folio.Proofs.Compile.Alike
import Folio.Proofs.Compile.Keeps
import Folio.Proofs.Json.Zeros

/-!
# What the table of content guards

Pictures and drawings are computed behind the table of content, under their node and context. What
is computed there does not look at the state, so a key is asked for in one of three ways: it is in
the table, or its content cannot be computed, or it is computed and stored. No key is computed with
success twice; and as long as no two keys have one digest and differ only in the signs of zeros,
whatever is found in the table is what would be computed.
-/
namespace Folio.Compile

open Style Markup

variable {α : Type}

/-! ## Runs that do not look at the state -/

/-- A run with one result whatever the state is, which at most counts drawings. -/
def Steady {β : Type} (act : CompileM α β) : Prop :=
  ∃ r k, ∀ s, act.run s = (r, { s with renders := s.renders + k })

theorem steady_pure {β : Type} (b : β) : Steady (pure b : CompileM α β) := ⟨.ok b, 0, fun _ => rfl⟩

theorem steady_throw {β : Type} (e : CompileError) : Steady (throw e : CompileM α β) :=
  ⟨.error e, 0, fun _ => rfl⟩

theorem Steady.bind {β γ : Type} {act : CompileM α β} {next : β → CompileM α γ} (h : Steady act)
    (hnext : ∀ b, Steady (next b)) : Steady (act >>= next) := by
  obtain ⟨r, k, hact⟩ := h
  cases r with
  | error e =>
    refine ⟨.error e, k, fun s => ?_⟩
    rw [run_bind, hact]
  | ok b =>
    obtain ⟨r, l, hrun⟩ := hnext b
    refine ⟨r, k + l, fun s => ?_⟩
    simp only [run_bind, hact, hrun, Nat.add_assoc]

theorem Steady.cache {β : Type} {act : CompileM α β} (h : Steady act) (s : State α) :
    (act.run s).2.cache = s.cache := by
  obtain ⟨r, k, hact⟩ := h
  rw [hact]

theorem steady_imageSource (env : Env α) (e : Element) (context : Context) :
    Steady (imageSource env e context) := by
  unfold imageSource
  split
  · split
    · exact steady_pure _
    · exact steady_throw _
  · split
    · split
      · split
        · exact steady_pure _
        · exact steady_throw _
      · split
        · exact steady_pure _
        · exact steady_throw _
    · split
      · exact steady_pure _
      · exact steady_throw _
    · exact steady_throw _

theorem steady_render (env : Env α) (kind : RendererKind) (e : Element) (context : Context) :
    Steady (render env kind e context) := by
  unfold render
  split
  · exact steady_throw _
  · refine Steady.bind ⟨.ok (), 1, fun _ => rfl⟩ fun _ => ?_
    split
    · exact steady_pure _
    · exact steady_throw _

variable [Scalar α]

theorem steady_readImage (env : Env α) (e : Element) (context : Context) :
    Steady (readImage env e context) := by
  refine (steady_imageSource env e context).bind fun source => ?_
  obtain ⟨data, origin⟩ := source
  simp only
  split
  · exact steady_throw _
  · split
    · exact steady_throw _
    · exact steady_pure _

/-! ## What is behind a key -/

/-- What is computed for a picture or a drawing. Nothing else is stored under its node. -/
def drawing? (env : Env α) (e : Element) (context : Context) : Tag → Option (CompileM α (Node α))
  | .image => some (readImage env e context)
  | .chart => some (render env .chart e context)
  | .svg => some (render env .svg e context)
  | .graphics => some (render env .graphics e context)
  | _ => none

/-- What the key of a node in its own context guards. -/
def guarded? (env : Env α) (node : Json) (context : Context) : Option (CompileM α (Node α)) :=
  (Element.parse node).toOption.bind fun e => e.tag?.bind (drawing? env e context)

/-- The key that a node below a context asks for if it is a picture or a drawing: the node itself,
in its own context. -/
def askedKey? (env : Env α) (call : Json × Context) : Option (Json × Context) :=
  resolved env (fun tag e context => (drawing? env e context tag).map fun _ => (call.1, context))
    call.2 call.1

theorem guarded?_of_parse {env : Env α} {node : Json} {e : Element} {tag : Tag}
    (hparse : Element.parse node = .ok e) (htag : e.tag? = some tag) (context : Context) :
    guarded? env node context = drawing? env e context tag := by
  simp [guarded?, hparse, Except.toOption, htag]

theorem askedKey?_of_parse {env : Env α} {node : Json} {e : Element} {tag : Tag}
    (hparse : Element.parse node = .ok e) (htag : e.tag? = some tag) {context : Context}
    {act : CompileM α (Node α)}
    (hdrawing : drawing? env e (resolve context env.sheet e.token.classes e.attrs) tag = some act) :
    askedKey? env (node, context) =
      some (node, resolve context env.sheet e.token.classes e.attrs) := by
  unfold askedKey?
  rw [resolved_of_parse hparse htag, hdrawing]
  rfl

theorem steady_of_drawing? {env : Env α} {e : Element} {context : Context} {tag : Tag}
    {act : CompileM α (Node α)} (h : drawing? env e context tag = some act) : Steady act := by
  cases tag with
  | image =>
    obtain rfl := Option.some.inj h
    exact steady_readImage env e context
  | chart | svg | graphics =>
    obtain rfl := Option.some.inj h
    exact steady_render env _ e context
  | _ => cases h

theorem steady_of_guarded? {env : Env α} {node : Json} {context : Context}
    {act : CompileM α (Node α)} (h : guarded? env node context = some act) : Steady act := by
  obtain ⟨e, _, hrest⟩ := Option.bind_eq_some_iff.mp h
  obtain ⟨tag, _, hdrawing⟩ := Option.bind_eq_some_iff.mp hrest
  exact steady_of_drawing? hdrawing

/-! ## Asking for a key -/

section

omit [Scalar α]

variable {key : Cache.Key} {act : CompileM α (Node α)} {s t : State α} {n : Node α}

theorem run_memo_of_found (h : s.cache.find? key = some n) :
    (memo key act).run s =
      (.ok n, { s with cache := { s.cache with hits := s.cache.hits + 1 } }) := by
  rw [memo_eq_partOf]
  exact Cache.run_getOrCompute_of_found State.cache (fun cache s => { s with cache }) h

theorem run_memo_of_failed {e : CompileError} (h : s.cache.find? key = none)
    (hrun : act.run { s with cache := s.cache.countMiss } = (.error e, t)) :
    (memo key act).run s = (.error e, t) := by
  rw [memo_eq_partOf]
  exact Cache.run_getOrCompute_of_failed State.cache (fun cache s => { s with cache }) rfl h hrun

theorem run_memo_of_ok (h : s.cache.find? key = none)
    (hrun : act.run { s with cache := s.cache.countMiss } = (.ok n, t)) :
    (memo key act).run s =
      (.ok (t.cache.store key n).1, { t with cache := (t.cache.store key n).2 }) := by
  rw [memo_eq_partOf]
  exact Cache.run_getOrCompute_of_ok State.cache (fun cache s => { s with cache }) rfl h hrun

theorem run_memo_of_computed (hsteady : Steady act) (h : s.cache.find? key = none)
    (hrun : act.run { s with cache := s.cache.countMiss } = (.ok n, t)) :
    (memo key act).run s =
      (.ok n, { t with cache := { t.cache with entries := t.cache.entries ++ [(key, n)] } }) := by
  have hcache : t.cache = s.cache.countMiss := by
    simpa [hrun] using hsteady.cache { s with cache := s.cache.countMiss }
  have habsent : t.cache.find? key = none := by rw [hcache, Cache.find?_countMiss, h]
  rw [run_memo_of_ok h hrun, Cache.store, habsent]

/-- No entry stands in the table under a key that is taken for one that is absent. -/
theorem beq_of_find?_none (h : s.cache.find? key = none) {entry : Cache.Key × Node α}
    (hentry : entry ∈ s.cache.entries) : (entry.1 == key) = false := by
  have hnone := List.find?_eq_none.mp (Option.map_eq_none_iff.mp h) entry hentry
  simpa using hnone

end

/-! ## At most once -/

/-- How pictures and drawings have been asked for, from the start on; `runs` are the keys for which
something has been computed with success, in this order. -/
inductive Uses (env : Env α) : List Cache.Key → State α → Prop
  | start : Uses env [] .initial
  | found {runs : List Cache.Key} {s : State α} {key : Cache.Key} {n : Node α}
      (h : Uses env runs s) (hfound : s.cache.find? key = some n) :
      Uses env runs { s with cache := { s.cache with hits := s.cache.hits + 1 } }
  | failed {runs : List Cache.Key} {s t : State α} {node : Json} {context : Context}
      {act : CompileM α (Node α)} {e : CompileError} (h : Uses env runs s)
      (hguarded : guarded? env node context = some act)
      (habsent : s.cache.find? (.ofNode node context) = none)
      (hrun : act.run { s with cache := s.cache.countMiss } = (.error e, t)) : Uses env runs t
  | computed {runs : List Cache.Key} {s t : State α} {node : Json} {context : Context}
      {act : CompileM α (Node α)} {n : Node α} (h : Uses env runs s)
      (hguarded : guarded? env node context = some act)
      (habsent : s.cache.find? (.ofNode node context) = none)
      (hrun : act.run { s with cache := s.cache.countMiss } = (.ok n, t)) :
      Uses env (runs ++ [.ofNode node context]) { t with cache := { t.cache with
        entries := t.cache.entries ++ [(.ofNode node context, n)] } }

theorem Uses.memo {env : Env α} {runs : List Cache.Key} {s : State α} {node : Json}
    {context : Context} {act : CompileM α (Node α)} (h : Uses env runs s)
    (hguarded : guarded? env node context = some act) :
    ∃ runs, Uses env runs ((memo (.ofNode node context) act).run s).2 := by
  cases hfind : s.cache.find? (.ofNode node context) with
  | some n =>
    rw [run_memo_of_found hfind]
    exact ⟨runs, h.found hfind⟩
  | none =>
    rcases hrun : act.run { s with cache := s.cache.countMiss } with ⟨r, t⟩
    cases r with
    | error e =>
      rw [run_memo_of_failed hfind hrun]
      exact ⟨runs, h.failed hguarded hfind hrun⟩
    | ok n =>
      rw [run_memo_of_computed (steady_of_guarded? hguarded) hfind hrun]
      exact ⟨_, h.computed hguarded hfind hrun⟩

/-- The table holds exactly what has been computed, and no key twice. -/
theorem Uses.distinct {env : Env α} {runs : List Cache.Key} {s : State α} (h : Uses env runs s) :
    s.cache.entries.map Prod.fst = runs ∧ runs.Pairwise fun k l => (k == l) = false := by
  induction h with
  | start => exact ⟨rfl, .nil⟩
  | found _ _ ih => exact ih
  | @failed runs s t node context act e _ hguarded _ hrun ih =>
    have hcache := (steady_of_guarded? hguarded).cache { s with cache := s.cache.countMiss }
    rw [hrun] at hcache
    rw [hcache]
    exact ih
  | @computed runs s t node context act n _ hguarded habsent hrun ih =>
    have hcache := (steady_of_guarded? hguarded).cache { s with cache := s.cache.countMiss }
    rw [hrun] at hcache
    have hentries : t.cache.entries = s.cache.entries := by rw [hcache]; rfl
    obtain ⟨hkeys, hdistinct⟩ := ih
    refine ⟨by simp [hentries, hkeys], List.pairwise_append.mpr ⟨hdistinct, by simp, ?_⟩⟩
    intro k hk l hl
    rw [← hkeys] at hk
    obtain ⟨entry, hentry, rfl⟩ := List.mem_map.mp hk
    rw [List.mem_singleton.mp hl]
    exact beq_of_find?_none habsent hentry

/-! ## The same as computed -/

variable {env : Env α} {K : Json × Context → Prop}

/-- An entry with what is computed for its key, which is one of those in `K`. -/
def StoredFor (env : Env α) (K : Json × Context → Prop) (entry : Cache.Key × Node α) : Prop :=
  ∃ key act, entry.1 = .ofNode key.1 key.2 ∧ K key ∧
    guarded? env key.1 key.2 = some act ∧ (act.run .initial).1 = .ok entry.2

/-- What is stored is what is computed for its key, and the key is one of those in `K`. -/
def Faithful (env : Env α) (K : Json × Context → Prop) (s : State α) : Prop :=
  ∀ entry ∈ s.cache.entries, ∃ key act, entry.1 = .ofNode key.1 key.2 ∧ K key ∧
    guarded? env key.1 key.2 = some act ∧ (act.run .initial).1 = .ok entry.2

theorem faithful_initial : Faithful env K .initial := nofun

/-- The digest of a node in its context. -/
def keyDigest (key : Json × Context) : UInt64 :=
  digest (key.1.stream ++ Fields.stream key.2.attrs)

/-- Keys with one digest that are the same but for the signs of zeros. -/
def Confusable (k l : Json × Context) : Prop :=
  keyDigest k = keyDigest l ∧ k.1.unsignZeros = l.1.unsignZeros ∧
    Json.unsignFields k.2.attrs = Json.unsignFields l.2.attrs

theorem confusable_of_beq {k l : Json × Context}
    (h : Cache.Key.ofNode k.1 k.2 == .ofNode l.1 l.2) : Confusable k l := by
  obtain ⟨hfirst, hcontext⟩ := Bool.and_eq_true_iff.mp h
  obtain ⟨hdigest, hnode⟩ := Bool.and_eq_true_iff.mp hfirst
  exact ⟨eq_of_beq hdigest, Json.unsignZeros_eq_of_beq hnode, Json.unsignFields_eq_of_beq hcontext⟩

/-- No two keys can be taken for each other. -/
def Unconfused (K : Json × Context → Prop) : Prop :=
  ∀ k l, K k → K l → Confusable k l → k = l

/-- Where what is taken for a key is stored for it, asking for the key comes to what would be
computed, and stores at most that. -/
theorem run_memo_stored (hkeys : Unconfused K) {s : State α} {key : Json × Context}
    {act : CompileM α (Node α)} (hkey : K key) (hguarded : guarded? env key.1 key.2 = some act)
    (h : ∀ entry ∈ s.cache.entries, entry.1 == .ofNode key.1 key.2 → StoredFor env K entry) :
    ((memo (.ofNode key.1 key.2) act).run s).1 = (act.run .initial).1 ∧
      ∃ more cache renders, ((memo (.ofNode key.1 key.2) act).run s).2 = { s with cache, renders } ∧
        cache.entries = s.cache.entries ++ more ∧
        ∀ entry ∈ more, entry.1 = .ofNode key.1 key.2 ∧ StoredFor env K entry := by
  obtain ⟨r, k, hact⟩ := steady_of_guarded? hguarded
  cases hfind : s.cache.find? (.ofNode key.1 key.2) with
  | some n =>
    rw [run_memo_of_found hfind]
    obtain ⟨_, hmem, htaken⟩ := mem_of_find? hfind
    obtain ⟨other, stored, rfl, hother, hstored, hresult⟩ := h _ hmem htaken
    obtain rfl := hkeys other key hother hkey (confusable_of_beq htaken)
    obtain rfl := Option.some.inj (hguarded.symm.trans hstored)
    exact ⟨hresult.symm, [], _, _, rfl, (List.append_nil _).symm, nofun⟩
  | none =>
    have hrun := hact { s with cache := s.cache.countMiss }
    cases r with
    | error e =>
      rw [run_memo_of_failed hfind hrun, hact]
      exact ⟨rfl, [], _, _, rfl, (List.append_nil _).symm, nofun⟩
    | ok n =>
      rw [run_memo_of_computed (steady_of_guarded? hguarded) hfind hrun, hact]
      refine ⟨rfl, [(.ofNode key.1 key.2, n)], _, _, rfl, rfl, fun entry hentry => ?_⟩
      obtain rfl := List.mem_singleton.mp hentry
      exact ⟨rfl, key, act, rfl, hkey, hguarded, congrArg Prod.fst (hact .initial)⟩

/-- What is found in such a table is what would be computed, and the table stays so. -/
theorem Faithful.memo (hkeys : Unconfused K) {s : State α} (h : Faithful env K s)
    {key : Json × Context} {act : CompileM α (Node α)} (hkey : K key)
    (hguarded : guarded? env key.1 key.2 = some act) :
    ((Compile.memo (.ofNode key.1 key.2) act).run s).1 = (act.run .initial).1 ∧
      Faithful env K ((Compile.memo (.ofNode key.1 key.2) act).run s).2 := by
  obtain ⟨hresult, more, cache, renders, hafter, hentries, hmore⟩ :=
    run_memo_stored hkeys hkey hguarded fun entry hentry _ => h entry hentry
  refine ⟨hresult, fun entry hentry => ?_⟩
  rw [hafter] at hentry
  simp only [hentries] at hentry
  exact (List.mem_append.mp hentry).elim (h entry) fun hentry => (hmore entry hentry).2

end Folio.Compile
