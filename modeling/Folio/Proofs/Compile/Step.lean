import Folio.Proofs.Compile.Blocks
import Folio.Proofs.Compile.Tables

/-!
# One step of the compiler

What is drawn has no text and is stored under its node and context. With the rules for everything
else, one step of the compiler keeps what is to be kept as soon as compiling the parts does; only
references are left to those who know what is stored under them.
-/
namespace Folio.Compile

open Style Markup

variable {α : Type} [Scalar α] {G : Json → String → Prop} {blame : Prop} {I : State α → Prop}
  {E : CompileError → Prop} {env : Env α} {compile : Compiling α}

/-! ## What is drawn -/

omit [Scalar α] in
/-- Content without text may be stored under a node and a context. -/
theorem keeps_memo_ofNode (keeps : Keepable blame I E G) {node : Json} {context : Context}
    {compute : CompileM α (Node α)} (h : Keeps I E (fun n => n.textContent = "") compute) :
    Keeps I E (fun n => n.textContent = "") (memo (.ofNode node context) compute) :=
  keeps_memo (fun _ _ hs hfind => keeps.stored hs hfind) (fun _ _ _ hs => keeps.frame hs rfl rfl)
    (fun _ _ hs hn => keeps.store hs hn) h

omit [Scalar α] in
theorem keeps_imageSource (keeps : Keepable blame I E G) (env : Env α) (e : Element)
    (context : Context) : Keeps I E (fun _ => True) (imageSource env e context) := by
  unfold imageSource
  split
  · split
    · exact keeps_pure trivial
    · exact keeps_throw (keeps.own trivial)
  · split
    · split
      · split
        · exact keeps_pure trivial
        · exact keeps_throw (keeps.own trivial)
      · split
        · exact keeps_pure trivial
        · exact keeps_throw (keeps.own trivial)
    · split
      · exact keeps_pure trivial
      · exact keeps_throw (keeps.own trivial)
    · exact keeps_throw (keeps.own trivial)

theorem keeps_readImage (keeps : Keepable blame I E G) (env : Env α) (e : Element)
    (context : Context) :
    Keeps I E (fun n => n.textContent = "") (readImage env e context) := by
  refine (keeps_imageSource keeps env e context).bind fun source _ => ?_
  obtain ⟨data, origin⟩ := source
  simp only
  split
  · exact keeps_throw (keeps.own trivial)
  · split
    · exact keeps_throw (keeps.own trivial)
    · exact keeps_pure (by simp only [Node.textContent])

omit [Scalar α] in
theorem keeps_render (keeps : Keepable blame I E G) (env : Env α) (kind : RendererKind)
    (e : Element) (context : Context) :
    Keeps I E (fun n => n.textContent = "") (render env kind e context) := by
  unfold render
  split
  · exact keeps_throw (keeps.own trivial)
  · have hcount : Keeps I E (fun _ => True)
        (modify fun s : State α => { s with renders := s.renders + 1 }) :=
      keeps_modify fun s hs => keeps.frame hs rfl rfl
    refine hcount.bind fun _ _ => ?_
    split
    · refine keeps_pure ?_
      cases kind <;> simp only [drawnNode, Node.textContent]
    · exact keeps_throw (keeps.own trivial)

theorem keeps_ruleNode (keeps : Keepable blame I E G) {context : Context}
    (hc : Blames blame context) :
    Keeps I E (fun n => n.textContent = "") (ruleNode context : CompileM α (Node α)) :=
  (keeps_colorOf? keeps hc _).map fun _ _ => by simp only [Node.textContent]

theorem keeps_spacerNode (keeps : Keepable blame I E G) (e : Element) {context : Context}
    (hc : Blames blame context) :
    Keeps I E (fun n => n.textContent = "") (spacerNode e context : CompileM α (Node α)) := by
  unfold spacerNode
  simp only
  split
  · exact keeps_pure (by simp only [Node.textContent])
  · exact (keeps_fontOf keeps hc).map fun _ _ => by simp only [Node.textContent]

theorem keeps_rectangleNode (keeps : Keepable blame I E G) {context : Context}
    (hc : Blames blame context) :
    Keeps I E (fun n => n.textContent = "") (rectangleNode context : CompileM α (Node α)) := by
  refine (keeps_firstColor? keeps hc _ _).bind fun color _ => ?_
  exact (keeps_colorOf? keeps hc _).map fun _ _ => by simp only [Node.textContent]

/-! ## References -/

omit [Scalar α] in
/-- An id that is open is a cycle; any other is opened behind the open ones and closed again. -/
theorem keeps_resolving {β : Type} {id : String} {act : CompileM α β} {Q : β → Prop}
    {J : State α → Prop}
    (hcycle : ∀ s, I s → id ∈ s.resolving →
      E (.referenceCycle id (s.resolving.dropWhile (· != id) ++ [id])))
    (henter : ∀ s, I s → id ∉ s.resolving → J { s with resolving := s.resolving ++ [id] })
    (hleave : ∀ s, J s → I { s with resolving := s.resolving.dropLast })
    (h : Keeps J E Q act) : Keeps I E Q (resolving id act) := by
  intro s hs
  unfold resolving
  rw [run_bind, run_get]
  by_cases hopen : id ∈ s.resolving
  · have hcontains : s.resolving.contains id = true := List.contains_iff_mem.mpr hopen
    simp only [hcontains, ↓reduceIte, run_throw]
    exact ⟨hs, hcycle s hs hopen⟩
  · have hcontains : s.resolving.contains id = false := by simpa using hopen
    simp only [hcontains, Bool.false_eq_true, ↓reduceIte]
    obtain ⟨hstate, hresult⟩ := h _ (henter s hs hopen)
    exact ⟨hleave _ hstate, hresult⟩

/-- Content that may stand for the target of an id. -/
def Targets (env : Env α) (G : Json → String → Prop) (id : String) (n : Node α) : Prop :=
  ∃ raw, Fields.get? id env.references = some raw ∧ G raw n.textContent

/-- What may be stored: content without text for what is drawn, content of its target for an id. -/
def Stored (env : Env α) (G : Json → String → Prop) : Cache.Key → Node α → Prop
  | .structural _ _ _, n => n.textContent = ""
  | .reference id, n => Targets env G id n

def AllStored (env : Env α) (G : Json → String → Prop) (s : State α) : Prop :=
  ∀ entry ∈ s.cache.entries, Stored env G entry.1 entry.2

omit [Scalar α] in
theorem allStored_initial (env : Env α) (G : Json → String → Prop) : AllStored env G .initial :=
  nofun

omit [Scalar α] in
theorem AllStored.congr {s t : State α} (h : AllStored env G s)
    (hentries : t.cache.entries = s.cache.entries) : AllStored env G t := by
  intro entry hentry
  rw [hentries] at hentry
  exact h entry hentry

omit [Scalar α] in
theorem AllStored.append {s : State α} (h : AllStored env G s) {key : Cache.Key} {n : Node α}
    (hn : Stored env G key n) : AllStored env G { s with cache := { s.cache with
      entries := s.cache.entries ++ [(key, n)] } } := by
  intro entry hentry
  rcases List.mem_append.mp hentry with hentry | hentry
  · exact h entry hentry
  · rw [List.mem_singleton.mp hentry]
    exact hn

omit [Scalar α] in
theorem AllStored.drawn {s : State α} (h : AllStored env G s) {digest : UInt64} {node : Json}
    {context : Context} {n : Node α}
    (hfind : s.cache.find? (.structural digest node context) = some n) : n.textContent = "" := by
  obtain ⟨_, _, _, hmem⟩ := mem_of_find?_structural hfind
  exact h _ hmem

omit [Scalar α] in
theorem AllStored.targets {s : State α} (h : AllStored env G s) {id : String} {n : Node α}
    (hfind : s.cache.find? (.reference id) = some n) : Targets env G id n :=
  h _ (mem_of_find?_reference hfind)

/-- A text that an element may have by its parts, if it has any. -/
def BuiltFrom (G : Json → String → Prop) (parts : Option (List Json)) (text : String) : Prop :=
  ∃ ps, parts = some ps ∧ Built G ps text

omit [Scalar α] in
theorem keeps_compileReference (keeps : Keepable blame I E G) {e : Element} {context : Context}
    (hstored : ∀ id s n, I s → s.cache.find? (.reference id) = some n → Targets env G id n)
    (hstore : ∀ id s n, I s → Targets env G id n →
      I { s with cache := { s.cache with entries := s.cache.entries ++ [(.reference id, n)] } })
    (h : ∀ id raw, referenceId? e context = some id → Fields.get? id env.references = some raw →
      Keeps I E (fun n => G raw n.textContent) (resolving id (compile raw context.inheritable))) :
    Keeps I E (fun n => BuiltFrom G (elementParts? env .reference e context) n.textContent)
      (compileReference env compile e context) := by
  unfold compileReference
  split
  · exact keeps_invalid keeps
  · next id hid =>
    refine Keeps.map (P := Targets env G id) (f := Node.reference id) ?_ fun n hn => ?_
    · refine keeps_memo (hstored id) (fun _ _ _ hs => keeps.frame hs rfl rfl) (hstore id) ?_
      split
      · exact keeps_throw (keeps.own trivial)
      · next raw hraw => exact (h id raw hid hraw).weaken fun n hn => ⟨raw, hraw, hn⟩
    · obtain ⟨raw, hraw, htext⟩ := hn
      refine ⟨[raw], by simp [elementParts?, hid, hraw], built_singleton.mpr ?_⟩
      simpa only [Node.textContent] using htext

/-! ## The step -/

omit [Scalar α] in
theorem keeps_drawn {parts : Option (List Json)} {act : CompileM α (Node α)}
    (h : Keeps I E (fun n => n.textContent = "") act) (hparts : parts = some []) :
    Keeps I E (fun n => BuiltFrom G parts n.textContent) act := by
  refine h.weaken fun n hn => ⟨[], hparts, ?_⟩
  rw [hn]
  exact .nil

theorem keeps_compileTag (keeps : Keepable blame I E G) {tag : Tag} (htag : tag ≠ .reference)
    {e : Element} {context : Context} (hc : Blames blame context)
    (h : Handles env blame I E G compile (tagParts env tag e context)) :
    Keeps I E (fun n => BuiltFrom G (elementParts? env tag e context) n.textContent)
      (compileTag env compile tag e context) := by
  have hchildren {act : CompileM α (Node α)}
      (hact : Keeps I E (fun n => Built G e.children n.textContent) act) :
      Keeps I E (fun n => BuiltFrom G (some e.children) n.textContent) act :=
    hact.weaken fun n hn => ⟨e.children, rfl, hn⟩
  have hcell {grid : Bool} (hact : Keeps I E (fun c => Built G e.children (Node.textOfCell c))
      (compileCell compile grid e context)) {f : Cell α → Node α}
      (hf : ∀ c, (f c).textContent = Node.textOfCell c) :
      Keeps I E (fun n => BuiltFrom G (some e.children) n.textContent)
        (compileCell compile grid e context >>= fun c => pure (f c)) :=
    hchildren (hact.map fun c hbuilt => by rwa [hf])
  cases tag with
  | chunk => exact hchildren (keeps_compileChunk keeps hc e)
  | heading => exact hchildren (keeps_compileHeading keeps h hc)
  | paragraph => exact hchildren (keeps_compileParagraph keeps h hc)
  | phrase => exact hchildren (keeps_compilePhrase keeps h hc)
  | subscript => exact hchildren (keeps_compileSubscript keeps hc e)
  | superscript => exact hchildren (keeps_compileSuperscript keeps hc e)
  | list => exact hchildren (keeps_compileList keeps h hc)
  | table => exact (keeps_compileTable keeps h hc).weaken fun n hn => ⟨_, rfl, hn⟩
  | gridTable => exact (keeps_compileGridTable keeps h hc).weaken fun n hn => ⟨_, rfl, hn⟩
  | cell =>
    exact hcell (keeps_compileCell keeps false h hc) fun c => by simp only [Node.textContent]
  | gridCell =>
    exact hcell (keeps_compileCell keeps true h hc) fun c => by simp only [Node.textContent]
  | image => exact keeps_drawn (keeps_memo_ofNode keeps (keeps_readImage keeps env e context)) rfl
  | chart => exact keeps_drawn (keeps_memo_ofNode keeps (keeps_render keeps env _ e context)) rfl
  | svg => exact keeps_drawn (keeps_memo_ofNode keeps (keeps_render keeps env _ e context)) rfl
  | graphics =>
    exact keeps_drawn (keeps_memo_ofNode keeps (keeps_render keeps env _ e context)) rfl
  | anchor => exact hchildren (keeps_compileAnchor keeps h hc)
  | note => exact hchildren (keeps_compileNote keeps e context)
  | chapter => exact hchildren (keeps_compileChapter keeps h hc)
  | subsection => exact hchildren (keeps_compileSection keeps h hc)
  | line => exact keeps_drawn (keeps_ruleNode keeps hc) rfl
  | spacer => exact keeps_drawn (keeps_spacerNode keeps e hc) rfl
  | rectangle => exact keeps_drawn (keeps_rectangleNode keeps hc) rfl
  | reference => exact absurd rfl htag
  | pageBreak => exact keeps_invalid keeps
  | clearDoublePage => exact keeps_invalid keeps

omit [Scalar α] in
theorem blames_resolve {context : Context} (hc : Blames blame context) {node : Json}
    (hnode : cutsColor node → blame) (hsheet : env.sheet.CutsColor → blame) {e : Element}
    (h : Element.parse node = .ok e) :
    Blames blame (resolve context env.sheet e.token.classes e.attrs) := by
  intro hcut
  rcases cutsColorFields_resolve hcut with hcut | hcut | hcut
  · exact hc hcut
  · exact hsheet hcut
  · obtain ⟨entry, hentry, hvalue⟩ := (cutsColorFields_iff _).mp hcut
    exact hnode (cutsColor_of_inside (inside_of_mem_attrs h hentry) hvalue)

/-- A step keeps what compiling the parts keeps. A text or a number has its own text, an element one
that is put together from texts of its parts. -/
theorem keeps_compileStep (keeps : Keepable blame I E G) {node : Json} {context : Context}
    (hc : Blames blame context) (hnode : cutsColor node → blame)
    (hsheet : env.sheet.CutsColor → blame)
    (h : Handles env blame I E G compile (innerParts env context node))
    (hreference : ∀ e, Element.parse node = .ok e → e.tag? = some .reference →
      Keeps I E (fun n => BuiltFrom G (elementParts? env .reference e
          (resolve context env.sheet e.token.classes e.attrs)) n.textContent)
        (compileReference env compile e (resolve context env.sheet e.token.classes e.attrs))) :
    Keeps I E (fun n => leafText? node = some n.textContent ∨
        (leafText? node = none ∧ BuiltFrom G (parts? env context node) n.textContent))
      (compileStep env compile node context) := by
  have hstep := dispatched_compileStep env compile node context
  generalize compileStep env compile node context = act at hstep ⊢
  cases hstep with
  | @leaf text hleaf =>
    refine (keeps_textNode keeps hc text).weaken fun n hn => .inl ?_
    rw [hleaf, hn]
  | malformed => exact keeps_invalid keeps
  | unknown => exact keeps_throw (keeps.own trivial)
  | @element e tag hleaf hparse htag =>
    have hblames := blames_resolve hc hnode hsheet hparse
    have hparts : parts? env context node = elementParts? env tag e
        (resolve context env.sheet e.token.classes e.attrs) := resolved_of_parse hparse htag
    refine Keeps.weaken (P := fun n => BuiltFrom G (parts? env context node) n.textContent) ?_
      fun n hn => .inr ⟨hleaf, hn⟩
    by_cases href : tag = .reference
    · subst href
      rw [hparts]
      exact hreference e hparse htag
    · rw [innerParts_of_parse hparse htag href] at h
      rw [hparts]
      exact keeps_compileTag keeps href hblames h

/-! ## Earlier nodes -/

/-- The state that nodes leave which are compiled one after the other, with or without success. -/
def afterCompiling (env : Env α) (earlier : List (Json × Context)) : State α :=
  earlier.foldl (fun s node => ((Compile.compile env node.1 node.2).run s).2) .initial

theorem afterCompiling_induction {earlier : List (Json × Context)} (hinitial : I .initial)
    (h : ∀ node ∈ earlier, ∀ s, I s → I ((Compile.compile env node.1 node.2).run s).2) :
    I (afterCompiling env earlier) := by
  have hfold : ∀ s, I s →
      I (earlier.foldl (fun s node => ((Compile.compile env node.1 node.2).run s).2) s) := by
    induction earlier with
    | nil => exact fun s hs => hs
    | cons node earlier ih =>
      intro s hs
      have hrest := ih fun n hn => h n (List.mem_cons_of_mem node hn)
      exact hrest _ (h node List.mem_cons_self s hs)
  exact hfold .initial hinitial

theorem afterCompiling_keeps {Q : Json → Context → Node α → Prop} {E : Json → Context →
    CompileError → Prop} (hinitial : I .initial)
    (h : ∀ node context,
      Keeps I (E node context) (Q node context) (Compile.compile env node context))
    (earlier : List (Json × Context)) : I (afterCompiling env earlier) :=
  afterCompiling_induction hinitial fun node _ s hs => (h node.1 node.2 s hs).1

end Folio.Compile
