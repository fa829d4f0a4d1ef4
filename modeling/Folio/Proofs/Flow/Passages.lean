import Folio.Proofs.Flow.Ink
import Mathlib.Data.List.Forall2
import Mathlib.Data.List.GetD

/-!
# What inline content comes from

The texts and names of inline content in reading order, each text with the anchors around it. A run
is gathered from them: every text has become words, spaces and line ends of one style, which leads
where the innermost anchor with a target leads, and every name has become a mark. A block that is
all of an anchor's content is the exception: its text stands there as if the anchor had no target.
-/
namespace Folio.Flow

open Style

/-- A text of inline content with the anchors around it, the innermost first, or the name of an
anchor in front of its content. -/
inductive Origin where
  /-- A text is reduced if it stands for a block that is all of the innermost anchor's content. -/
  | text (words : String) (within : List AnchorEnds) (reduced : Bool)
  | name (id content : String)
  deriving DecidableEq, Repr

/-- Where the innermost anchor with a target leads. -/
def targetOf (within : List AnchorEnds) : Option String := within.findSome? (·.target)

/-- Where a text leads. -/
def linkOf (within : List AnchorEnds) (reduced : Bool) : Option String :=
  targetOf (if reduced then within.tail else within)

namespace Origin

def letters : Origin → List Char
  | text words _ _ => words.toList
  | name .. => []

def id? : Origin → Option String
  | text .. => none
  | name id _ => some id

end Origin

def lettersOf (os : List Origin) : List Char := os.flatMap Origin.letters

/-- The names of anchors. -/
def namesOf (os : List Origin) : List String := os.filterMap Origin.id?

variable {α : Type}

mutual

/-- What inline content comes from; a block has no inline form. -/
def originsOf (within : List AnchorEnds) : Node α → Option (List Origin)
  | .text t | .subscript t | .superscript t => some [.text t.text within false]
  | .phrase _ children => some (originsOfNodes within children)
  | .anchor ends _ content =>
    let front := (ends.id.map fun id => Origin.name id content.textContent).toList
    match originsOf (ends :: within) content with
    | some os => some (front ++ os)
    | none => some (front ++ [.text content.textContent (ends :: within) true])
  | .reference _ target => originsOf within target
  | _ => none

/-- Nodes in order; the text of a block stands for it. -/
def originsOfNodes (within : List AnchorEnds) : List (Node α) → List Origin
  | [] => []
  | n :: ns => (originsOf within n).getD [.text n.textContent within false] ++
      originsOfNodes within ns

end

/-! ## Letters and names -/

/-- Behind every name comes the content of its anchor. -/
def Fronted (os : List Origin) : Prop :=
  ∀ before id content after, os = before ++ .name id content :: after →
    ∃ inner rest, after = inner ++ rest ∧ lettersOf inner = content.toList

@[simp] theorem lettersOf_nil : lettersOf [] = [] := rfl

@[simp] theorem lettersOf_cons (o : Origin) (os : List Origin) :
    lettersOf (o :: os) = o.letters ++ lettersOf os := by
  simp [lettersOf]

@[simp] theorem lettersOf_append (os more : List Origin) :
    lettersOf (os ++ more) = lettersOf os ++ lettersOf more := by
  simp [lettersOf]

@[simp] theorem namesOf_append (os more : List Origin) :
    namesOf (os ++ more) = namesOf os ++ namesOf more := by
  simp [namesOf]

theorem fronted_nil : Fronted [] := by
  intro before id content after h
  simp at h

theorem fronted_text (words : String) (within : List AnchorEnds) (reduced : Bool) :
    Fronted [.text words within reduced] := by
  intro before id content after h
  cases before with
  | nil => simp at h
  | cons o before => simp at h

theorem Fronted.append {os more : List Origin} (h : Fronted os) (k : Fronted more) :
    Fronted (os ++ more) := by
  intro before id content after he
  rcases List.append_eq_append_iff.mp he with ⟨rest, rfl, hmore⟩ | ⟨rest, hos, hrest⟩
  · exact k _ _ _ _ hmore
  · cases rest with
    | nil => exact k [] id content after hrest.symm
    | cons o rest =>
      simp only [List.cons_append, List.cons.injEq] at hrest
      obtain ⟨rfl, rfl⟩ := hrest
      obtain ⟨inner, behind, rfl, hinner⟩ := h _ _ _ _ hos
      exact ⟨inner, behind ++ more, by simp, hinner⟩

/-- An anchor's name in front of its content. -/
theorem Fronted.name {os : List Origin} {id content : String} (h : Fronted os)
    (hcontent : lettersOf os = content.toList) : Fronted (.name id content :: os) := by
  intro before id' content' after he
  cases before with
  | nil =>
    simp only [List.nil_append, List.cons.injEq, Origin.name.injEq] at he
    obtain ⟨⟨rfl, rfl⟩, rfl⟩ := he
    exact ⟨os, [], by simp, hcontent⟩
  | cons o before =>
    simp only [List.cons_append, List.cons.injEq] at he
    exact h _ _ _ _ he.2

theorem Fronted.front {os : List Origin} (id : Option String) {content : String} (h : Fronted os)
    (hcontent : lettersOf os = content.toList) :
    Fronted ((id.map fun id => Origin.name id content).toList ++ os) ∧
      lettersOf ((id.map fun id => Origin.name id content).toList ++ os) = content.toList := by
  cases id with
  | none => exact ⟨h, hcontent⟩
  | some id => exact ⟨h.name hcontent, hcontent⟩

mutual

/-- The letters of inline content are its text. -/
theorem originsOf_fronted : (n : Node α) → ∀ {within : List AnchorEnds} {os : List Origin},
    originsOf within n = some os → Fronted os ∧ lettersOf os = n.textContent.toList
  | .text t, within, os, h | .subscript t, within, os, h | .superscript t, within, os, h => by
    simp only [originsOf, Option.some.injEq] at h
    rw [← h]
    exact ⟨fronted_text _ _ _, by simp [Origin.letters, Node.textContent]⟩
  | .phrase style children, within, os, h => by
    simp only [originsOf, Option.some.injEq] at h
    rw [← h]
    simpa only [Node.textContent] using originsOfNodes_fronted within children
  | .anchor ends shape content, within, os, h => by
    simp only [originsOf] at h
    simp only [Node.textContent]
    split at h
    · next inner hinner =>
      obtain ⟨hfronted, hletters⟩ := originsOf_fronted content hinner
      rw [← Option.some.inj h]
      exact hfronted.front ends.id hletters
    · rw [← Option.some.inj h]
      exact (fronted_text _ _ _).front ends.id (by simp [Origin.letters])
  | .reference id target, within, os, h => by
    simp only [originsOf] at h
    simpa only [Node.textContent] using originsOf_fronted target h
  | .paragraph .., _, _, h | .list .., _, _, h | .table .., _, _, h
  | .gridTable .., _, _, h | .cell _, _, _, h | .gridCell _, _, _, h
  | .image _, _, _, h | .chart _, _, _, h | .vectorGraphic _, _, _, h
  | .note .., _, _, h | .chapter .., _, _, h | .subsection .., _, _, h
  | .rule _, _, _, h | .spacer .., _, _, h | .rectangle _, _, _, h => by
    simp [originsOf] at h

theorem originsOfNodes_fronted (within : List AnchorEnds) : (ns : List (Node α)) →
    Fronted (originsOfNodes within ns) ∧
      lettersOf (originsOfNodes within ns) = (Node.textOfNodes ns).toList
  | [] => ⟨fronted_nil, rfl⟩
  | n :: ns => by
    obtain ⟨hrest, hletters⟩ := originsOfNodes_fronted within ns
    rw [originsOfNodes, Node.textOfNodes_cons, String.toList_append, lettersOf_append, hletters]
    cases hn : originsOf within n with
    | none => exact ⟨(fronted_text _ _ _).append hrest, by simp [Origin.letters]⟩
    | some os =>
      obtain ⟨hfronted, hos⟩ := originsOf_fronted n hn
      exact ⟨hfronted.append hrest, by simp [hos]⟩

end

/-! ## Rows side by side -/

section Rows

variable {β γ : Type} {R : β → γ → Prop}

/-- What a row of two parts has become falls into two parts. -/
theorem exists_of_forall₂_append {as bs : List β} {cs : List γ}
    (h : List.Forall₂ R (as ++ bs) cs) :
    ∃ front back, cs = front ++ back ∧ List.Forall₂ R as front ∧ List.Forall₂ R bs back :=
  ⟨cs.take as.length, cs.drop as.length, (List.take_append_drop ..).symm,
    (List.forall₂_take_append cs as bs h.flip).flip,
    (List.forall₂_drop_append cs as bs h.flip).flip⟩

theorem exists_right_of_forall₂ {bs : List β} {cs : List γ} (h : List.Forall₂ R bs cs) {b : β}
    (hb : b ∈ bs) : ∃ c ∈ cs, R b c := by
  induction h with
  | nil => cases hb
  | cons hc _ ih =>
    rcases List.mem_cons.mp hb with rfl | hb
    · exact ⟨_, List.mem_cons_self, hc⟩
    · obtain ⟨c, hc, hR⟩ := ih hb
      exact ⟨c, List.mem_cons_of_mem _ hc, hR⟩

theorem exists_left_of_forall₂ {bs : List β} {cs : List γ} (h : List.Forall₂ R bs cs) {c : γ}
    (hc : c ∈ cs) : ∃ b ∈ bs, R b c :=
  exists_right_of_forall₂ (R := fun c b => R b c) h.flip hc

end Rows

/-! ## Gathering -/

variable [Scalar α]

/-- The tokens that a text or a name of a run has become. -/
def Yields (run : InlineRun α) : Origin → List (Token α) → Prop
  | .text words within reduced, ts => ∃ index font, index < run.styles.length ∧
      ts = tokenize index font [] words.toList ∧
        (run.styleAt index).link = linkOf within reduced
  | .name id _, ts => ∃ index, ts = [⟨id, index, 0, .mark⟩]

/-- The run has been gathered from `os`. -/
def Gathered (run : InlineRun α) (os : List Origin) : Prop :=
  ∃ parts, run.tokens = parts.flatten ∧ List.Forall₂ (Yields run) os parts

theorem gathered_empty : Gathered (.empty : InlineRun α) [] := ⟨[], rfl, .nil⟩

/-- Styles are only added. -/
theorem Yields.mono {run more : InlineRun α} (h : run.styles <+: more.styles) {o : Origin}
    {ts : List (Token α)} (k : Yields run o ts) : Yields more o ts := by
  cases o with
  | name id content => exact k
  | text words within reduced =>
    obtain ⟨index, font, hindex, hts, hlink⟩ := k
    obtain ⟨rest, hrest⟩ := h
    refine ⟨index, font, ?_, hts, ?_⟩
    · rw [← hrest, List.length_append]
      omega
    · rw [← hlink]
      unfold InlineRun.styleAt
      rw [← hrest, List.getD_append _ _ _ _ hindex]

/-- A style is found under its index, or one that is equal to it. -/
theorem styleIndex_spec (run : InlineRun α) (style : RunStyle α) :
    run.styles <+: (run.styleIndex style).2.styles ∧
      (run.styleIndex style).1 < (run.styleIndex style).2.styles.length ∧
      ((run.styleIndex style).2.styleAt (run.styleIndex style).1).link = style.link := by
  unfold InlineRun.styleIndex
  split
  · next index hindex =>
    obtain ⟨hlt, heq, -⟩ := List.findIdx?_eq_some_iff_getElem.mp hindex
    refine ⟨List.prefix_rfl, hlt, ?_⟩
    have hbeq : (run.styles[index].link == style.link) = true := by
      have hall : (run.styles[index].font == style.font && run.styles[index].rise == style.rise &&
        run.styles[index].background == style.background &&
          run.styles[index].link == style.link) = true := heq
      simp only [Bool.and_eq_true] at hall
      exact hall.2
    simpa [InlineRun.styleAt, hlt] using hbeq
  · refine ⟨List.prefix_append _ _, ?_, ?_⟩
    · simp
    · simp [InlineRun.styleAt]

/-- One more origin with its tokens. -/
theorem Gathered.concat {run more : InlineRun α} {os : List Origin} {o : Origin}
    {ts : List (Token α)} (h : Gathered run os) (hstyles : run.styles <+: more.styles)
    (htokens : more.tokens = run.tokens ++ ts) (ho : Yields more o ts) :
    Gathered more (os ++ [o]) := by
  obtain ⟨parts, hparts, hyields⟩ := h
  refine ⟨parts ++ [ts], ?_, ?_⟩
  · rw [htokens, hparts, List.flatten_append, List.flatten_singleton]
  · exact List.rel_append (hyields.imp fun _ _ k => k.mono hstyles) (.cons ho .nil)

theorem Gathered.pushText {run : InlineRun α} {os : List Origin} (h : Gathered run os)
    (words : String) {style : RunStyle α} {within : List AnchorEnds} {reduced : Bool}
    (hlink : style.link = linkOf within reduced) :
    Gathered (run.pushText words style) (os ++ [.text words within reduced]) := by
  obtain ⟨hstyles, hlt, hstyle⟩ := styleIndex_spec run style
  have htokens : (run.pushText words style).tokens =
      run.tokens ++ tokenize (run.styleIndex style).1 style.font [] words.toList := by
    simp [InlineRun.pushText, tokens_styleIndex]
  exact h.concat hstyles htokens
    ⟨(run.styleIndex style).1, style.font, hlt, rfl, hstyle.trans hlink⟩

theorem Gathered.pushMark {run : InlineRun α} {os : List Origin} (h : Gathered run os)
    (id content : String) (style : RunStyle α) :
    Gathered (run.pushMark id style) (os ++ [.name id content]) := by
  obtain ⟨hstyles, -, -⟩ := styleIndex_spec run style
  have htokens : (run.pushMark id style).tokens =
      run.tokens ++ [⟨id, (run.styleIndex style).1, 0, .mark⟩] := by
    simp [InlineRun.pushMark, tokens_styleIndex]
  exact h.concat hstyles htokens ⟨(run.styleIndex style).1, rfl⟩

/-- What collecting a node comes to: both are blocks for it, or the run has gained the origins. -/
def Collected (os : List Origin) : Option (InlineRun α) → Option (List Origin) → Prop
  | some grown, some more => Gathered grown (os ++ more)
  | none, none => True
  | _, _ => False

theorem targetOf_cons (ends : AnchorEnds) (within : List AnchorEnds) :
    targetOf (ends :: within) = ends.target.or (targetOf within) := by
  unfold targetOf
  rw [List.findSome?_cons]
  cases ends.target <;> rfl

mutual

theorem collectInline_gathered : (n : Node α) → ∀ (within : List AnchorEnds) {run : InlineRun α}
    {os : List Origin}, Gathered run os →
    Collected os (collectInline (targetOf within) run n) (originsOf within n)
  | .text t, within, run, os, h | .subscript t, within, run, os, h
  | .superscript t, within, run, os, h => by
    simp only [collectInline, originsOf]
    exact h.pushText t.text rfl
  | .phrase style children, within, run, os, h => by
    simp only [collectInline, originsOf]
    exact collectChildren_gathered children within style.font h
  | .anchor ends shape content, within, run, os, h => by
    have hmarked : Gathered (match ends.id with
        | some id => run.pushMark id (.plain .standard (targetOf within))
        | none => run)
        (os ++ (ends.id.map fun id => Origin.name id content.textContent).toList) := by
      cases ends.id with
      | none => simpa using h
      | some id => exact h.pushMark id content.textContent _
    have hcontent := collectInline_gathered content (ends :: within) hmarked
    rw [targetOf_cons] at hcontent
    simp only [collectInline, originsOf]
    revert hcontent
    generalize collectInline _ _ content = collected
    cases collected with
    | some grown =>
      cases originsOf (ends :: within) content with
      | some inner => exact fun hcontent => by simpa [Collected] using hcontent
      | none => exact False.elim
    | none =>
      cases originsOf (ends :: within) content with
      | some inner => exact False.elim
      | none =>
        intro _
        have hlink : (.plain .standard (targetOf within) : RunStyle α).link =
            linkOf (ends :: within) true := rfl
        have htext := hmarked.pushText content.textContent hlink
        rw [List.append_assoc] at htext
        exact htext
  | .reference id target, within, run, os, h => by
    simp only [collectInline, originsOf]
    exact collectInline_gathered target within h
  | .paragraph .., _, _, _, _ | .list .., _, _, _, _ | .table .., _, _, _, _
  | .gridTable .., _, _, _, _ | .cell _, _, _, _, _ | .gridCell _, _, _, _, _
  | .image _, _, _, _, _ | .chart _, _, _, _, _ | .vectorGraphic _, _, _, _, _
  | .note .., _, _, _, _ | .chapter .., _, _, _, _ | .subsection .., _, _, _, _
  | .rule _, _, _, _, _ | .spacer .., _, _, _, _ | .rectangle _, _, _, _, _ => by
    simp [collectInline, originsOf, Collected]

theorem collectChildren_gathered : (ns : List (Node α)) → ∀ (within : List AnchorEnds)
    (font : Font α) {run : InlineRun α} {os : List Origin}, Gathered run os →
    Gathered (collectChildren font (targetOf within) run ns) (os ++ originsOfNodes within ns)
  | [], within, font, run, os, h => by
    simpa [collectChildren, originsOfNodes] using h
  | n :: ns, within, font, run, os, h => by
    have hn := collectInline_gathered n within h
    simp only [collectChildren, originsOfNodes]
    revert hn
    cases collectInline (targetOf within) run n with
    | some grown =>
      cases originsOf within n with
      | some more =>
        intro hn
        simpa using collectChildren_gathered ns within font hn
      | none => exact False.elim
    | none =>
      cases originsOf within n with
      | some more => exact False.elim
      | none =>
        intro _
        have hlink : (.plain font (targetOf within) : RunStyle α).link = linkOf within false := rfl
        have htext := h.pushText n.textContent hlink
        simpa using collectChildren_gathered ns within font htext

end

end Folio.Flow
