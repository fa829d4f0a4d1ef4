import Folio.Proofs.Compile.Resolution
import Folio.Proofs.Compile.TableRules
import Folio.Proofs.Flow.NamedPlaces

/-!
# Texts in attributes

The title of a note, the symbol of a list and the two ends of an anchor are texts of the author's
own. Only the target of an anchor is read as it is written; the others are read as keywords are, and
lose a colon in front. So they are carried as they are exactly if they do not begin with one, and an
anchor whose id does is found under what is left of it.
-/
namespace Folio

open Style Markup Flow

/-! ## Reading -/

namespace Style

theorem stripKeyword_eq_self_iff (s : String) :
    stripKeyword s = s ↔ s.toList.head? ≠ some ':' := by
  refine ⟨fun h hcolon => ?_, stripKeyword_of_plain⟩
  obtain ⟨rest, hrest⟩ := List.head?_eq_some_iff.mp hcolon
  have hstripped : stripKeyword s = String.ofList rest := by simp only [stripKeyword, hrest]
  have hshorter : rest = ':' :: rest := by
    rw [← hrest, ← h, hstripped, String.toList_ofList]
  exact absurd (congrArg List.length hshorter) (by simp)

theorem Context.keyword?_of_text {context : Context} {key s : String}
    (h : context.get? key = some (.string s)) : context.keyword? key = some (stripKeyword s) := by
  simp [keyword?, h, Json.asString?]

theorem Context.text?_of_text {context : Context} {key s : String}
    (h : context.get? key = some (.string s)) : context.text? key = some s := by
  simp [text?, h, Json.asString?]

end Style

namespace Compile

variable {α : Type} [Scalar α]

/-! ## Elements -/

/-- The attributes that ask for a list to be numbered, or for a glyph. -/
def numberingFlags : List String :=
  ["roman", "greek", "dingbats", "dingbat-number", "lettered", "numbered"]

theorem listKind_of_symbol {context : Context}
    (hflags : ∀ flag ∈ numberingFlags, context.flag flag = false) {s : String}
    (h : context.get? "symbol" = some (.string s)) :
    listKind context = .bulleted (stripKeyword s) := by
  have hflag (flag : String) (hmem : flag ∈ numberingFlags) : ¬ context.flag flag = true := by
    simp [hflags flag hmem]
  unfold listKind
  rw [if_neg (hflag _ (by decide)), if_neg (hflag _ (by decide)), if_neg (hflag _ (by decide)),
    if_neg (hflag _ (by decide)), if_neg (hflag _ (by decide)), if_neg (hflag _ (by decide)),
    Context.keyword?_of_text h]
  rfl

/-- All items are labelled by the symbol of their list. -/
theorem gives_symbolList (compile : Compiling α) (e : Element) {context : Context}
    (hflags : ∀ flag ∈ numberingFlags, context.flag flag = false) {s : String}
    (h : context.get? "symbol" = some (.string s)) :
    Gives (fun r => ∃ style items, r = .list style items ∧
      ∀ index, style.kind.label index style.lowercase = stripKeyword s)
      (compileList compile e context) := by
  unfold compileList
  refine (gives_any _).bind fun font _ => ?_
  refine (gives_any _).map fun items _ => ⟨_, items, rfl, fun index => ?_⟩
  rw [listKind_of_symbol hflags h]
  rfl

omit [Scalar α] in
theorem compileNote_of_title (e : Element) {context : Context} {s : String}
    (h : context.get? "title" = some (.string s)) :
    (compileNote e context : CompileM α (Node α)) =
      leafText e >>= fun text => pure (.note (stripKeyword s) text) := by
  unfold compileNote
  rw [Context.keyword?_of_text h]
  rfl

theorem gives_compileAnchor (compile : Compiling α) (e : Element) (context : Context) :
    Gives (fun r => ∃ shape content,
      r = .anchor ⟨context.keyword? "id", context.text? "target"⟩ shape content)
      (compileAnchor compile e context) := by
  unfold compileAnchor
  refine (gives_any _).bind fun shape _ => ?_
  exact (gives_any _).map fun body _ => ⟨shape, body, rfl⟩

/-! ## Links -/

/-- In every document that the node has been added to, a link to the id without its colon is found,
and leads to the node unless one that is added later has that name again. A link to the id as it is
written is left out if no node has it for a name. -/
def FoundWithoutColon (n : Node α) (id : String) : Prop :=
  ∀ before after t, (replay before).phase = .opened → (add n).run (replay before) = (.ok (), t) →
    let done := (replay (before ++ .add n :: after)).conclude
    let link (first : Nat) (name : String) :=
      linkAction (pageNumbers first done.finished.length) done.destinations ("#" ++ name)
    (∃ d, ∀ first, link first (stripKeyword id) = some (placeEntry first d)) ∧
      ((∀ m, .add m ∈ after → stripKeyword id ∉ namesIn m) →
        ∃ d, MarkedAt n (replay before) (stripKeyword id) d ∧
          ∀ first, link first (stripKeyword id) = some (placeEntry first d)) ∧
      ((∀ m, .add m ∈ before ++ .add n :: after → id ∉ namesIn m) → ∀ first, link first id = none)

theorem foundWithoutColon {n : Node α} {id : String} (h : stripKeyword id ∈ namesIn n) :
    FoundWithoutColon n id := by
  intro before after t hopen hrun done link
  obtain ⟨hlinks, hnames, hothers⟩ := replay_names hopen hrun after
  obtain ⟨hfound, hplaced⟩ := hnames (stripKeyword id) h
  obtain ⟨d, hd⟩ := Option.isSome_iff_exists.mp hfound
  refine ⟨⟨d, fun first => ?_⟩, fun hlater => ?_, fun hnone first => ?_⟩
  · exact (hlinks first _).trans (by rw [hd]; rfl)
  · obtain ⟨d, hd, hplace⟩ := hplaced hlater
    exact ⟨d, hplace, fun first => (hlinks first _).trans (by rw [hd]; rfl)⟩
  · exact (hlinks first id).trans (by rw [hothers id hnone]; rfl)

/-! ## What becomes of a text -/

/-- What texts in attributes come to in an element that compiles in its own context. The title of a
note, the symbol of a list and the id of an anchor lose a colon in front; the target of an anchor
loses nothing. So an anchor is found under its id without the colon, by itself or inside any node
that marks its name. -/
theorem compileWithin_freeText (env : Env α) (steps : Nat) {node : Json} {e : Element}
    (hparse : Element.parse node = .ok e) (context : Context) :
    let own := resolve context env.sheet e.token.classes e.attrs
    let run := compileWithin env (steps + 1) node context
    (e.tag? = some .note → ∀ s, own.get? "title" = some (.string s) →
      Gives (fun r => ∃ text, r = .note (stripKeyword s) text) run ∧
        ∀ text, leafTexts? e.children = some text →
          ∀ state, run.run state = (.ok (.note (stripKeyword s) text), state)) ∧
    (e.tag? = some .list → (∀ flag ∈ numberingFlags, own.flag flag = false) →
      ∀ s, own.get? "symbol" = some (.string s) →
        Gives (fun r => ∃ style items, r = .list style items ∧
          ∀ index, style.kind.label index style.lowercase = stripKeyword s) run) ∧
    (e.tag? = some .anchor → Gives (fun r => ∃ ends shape content, r = .anchor ends shape content ∧
      (∀ s, own.get? "target" = some (.string s) → ends.target = some s) ∧
      ∀ s, own.get? "id" = some (.string s) →
        ends.id = some (stripKeyword s) ∧ stripKeyword s ∈ namesIn r ∧
          ∀ n : Node α, stripKeyword s ∈ namesIn n → FoundWithoutColon n s) run) ∧
    ∀ s, stripKeyword s = s ↔ s.toList.head? ≠ some ':' := by
  intro own run
  have hrun {tag : Tag} (htag : e.tag? = some tag) :
      run = compileTag env (compileWithin env steps) tag e own :=
    compileStep_of_parse env _ hparse htag context
  refine ⟨fun htag s hs => ?_, fun htag hflags s hs => ?_, fun htag => ?_, stripKeyword_eq_self_iff⟩
  · have hnote : run = leafText e >>= fun text => pure (.note (stripKeyword s) text) :=
      (hrun htag).trans (compileNote_of_title e hs)
    rw [hnote]
    refine ⟨(gives_any _).map fun text _ => ⟨text, rfl⟩, fun text htext state => ?_⟩
    have hleaf : (leafText e : CompileM α String) = pure text := by simp only [leafText, htext]
    rw [hleaf]
    rfl
  · rw [hrun htag]
    exact gives_symbolList _ e hflags hs
  · rw [hrun htag]
    refine (gives_compileAnchor _ e own).weaken ?_
    rintro r ⟨shape, content, rfl⟩
    refine ⟨_, shape, content, rfl, fun s hs => Context.text?_of_text hs, fun s hs => ?_⟩
    have hid := Context.keyword?_of_text hs
    exact ⟨hid, id_mem_namesIn hid shape content, fun n => foundWithoutColon⟩

/-- An element with a single attribute and a single text. -/
def attributed (tag key value text : String) : Json :=
  .array [.string tag, .object [(key, .string value)], .string text]

/-- An anchor whose id begins with a colon. -/
theorem compileWithin_freeText_anchor : ∃ e n,
    Element.parse (attributed "anchor" "id" ":a" "here") = .ok e ∧ e.tag? = some .anchor ∧
      (compileWithin bareEnv 2 (attributed "anchor" "id" ":a" "here") .empty).run .initial =
        (.ok n, .initial) ∧
      "a" ∈ namesIn n ∧ FoundWithoutColon n ":a" := by
  obtain ⟨n, hrun⟩ : ∃ n, (compileWithin bareEnv 2 (attributed "anchor" "id" ":a" "here")
      .empty).run .initial = (.ok n, .initial) := ⟨_, rfl⟩
  obtain ⟨e, hparse, htag, hid⟩ : ∃ e,
      Element.parse (attributed "anchor" "id" ":a" "here") = .ok e ∧ e.tag? = some .anchor ∧
        (resolve .empty bareEnv.sheet e.token.classes e.attrs).get? "id" = some (.string ":a") :=
    ⟨_, rfl, by decide +kernel, rfl⟩
  obtain ⟨-, -, hanchor, -⟩ := compileWithin_freeText bareEnv 1 hparse .empty
  obtain ⟨ends, shape, content, -, -, hids⟩ := (hanchor htag).of_result hrun
  obtain ⟨-, hname, hfound⟩ := hids ":a" hid
  exact ⟨e, n, hparse, htag, hrun, hname, hfound n hname⟩

/-- The colon of a title and of a symbol is lost, and so is that of an id, but not that of the
target that asks for it: the link leads nowhere. -/
theorem compile_losesColon :
    (compile bareEnv (attributed "annotation" "title" ":x" "y") .empty).run .initial =
        (.ok (.note "x" "y"), .initial) ∧
      (∃ style items, (compile bareEnv (attributed "list" "symbol" ":-" "y") .empty).run .initial =
        (.ok (.list style items), .initial) ∧ style.kind.label 1 style.lowercase = "-") ∧
      ∃ named linking shape content,
        (compile bareEnv (attributed "anchor" "id" ":a" "here") .empty).run .initial =
          (.ok named, .initial) ∧
        (compile bareEnv (attributed "anchor" "target" "#:a" "go") .empty).run .initial =
          (.ok linking, .initial) ∧
        linking = .anchor ⟨none, some ("#" ++ ":a")⟩ shape content ∧
        let done := (replay [.openDocument, .add named, .add linking]).conclude
        ∀ first, linkAction (pageNumbers first done.finished.length) done.destinations
          ("#" ++ ":a") = none := by
  obtain ⟨named, linking, shape, content, hnamed, hlinking, htarget, hmarks⟩ :
      ∃ named linking shape content,
        (compile bareEnv (attributed "anchor" "id" ":a" "here") .empty).run .initial =
          (.ok named, .initial) ∧
        (compile bareEnv (attributed "anchor" "target" "#:a" "go") .empty).run .initial =
          (.ok linking, .initial) ∧
        linking = .anchor ⟨none, some ("#" ++ ":a")⟩ shape content ∧
        namesIn named ++ namesIn linking = ["a"] :=
    ⟨_, _, _, _, rfl, rfl, rfl, rfl⟩
  refine ⟨rfl, ⟨_, _, rfl, rfl⟩, named, linking, shape, content, hnamed, hlinking, htarget, ?_⟩
  intro done first
  have hopened : (replay (α := Single) [.openDocument]).phase = .opened := rfl
  have hbound : Bound done := conclude_bound
    ((replay_sound _).opened (replay_append_opened hopened [.add named, .add linking]))
  have hnone : done.destination? ":a" = none := by
    rw [conclude_destination?]
    refine foldl_apply_destination? _ (fun m hm hmark => ?_) .initial
    have hmem : ":a" ∈ namesIn named ++ namesIn linking := by
      rcases (by simpa using hm : m = named ∨ m = linking) with rfl | rfl
      · exact List.mem_append_left _ hmark
      · exact List.mem_append_right _ hmark
    rw [hmarks] at hmem
    exact absurd hmem (by decide)
  rw [linkAction_hash hbound, hnone]
  rfl

end Compile

end Folio
