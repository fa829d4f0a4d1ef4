import Folio.Flow.Block
import Folio.Proofs.Extended

/-!
# Content with finite measures

A node is finite if every size, width and spacing that layout reads from it is a finite number. Its
runs of inline content, the lines they are broken into and the rows of its tables then have finite
measures too: widths of columns are divided by their sum only if that is more than nought, and
whatever else is divided by is a whole number that is not nought.
-/
namespace Folio

open Style Flow

/-! ## Operands -/

namespace Pdf

variable {α : Type}

mutual

/-- All numbers inside an object that are not whole. -/
def Obj.numbers : Obj α → List α
  | .real x => [x]
  | .array items => numbersOfItems items
  | .dictionary entries | .stream entries _ => numbersOfEntries entries
  | .null | .bool _ | .integer _ | .name _ | .string .. | .reference .. => []

def numbersOfItems : List (Obj α) → List α
  | [] => []
  | o :: os => o.numbers ++ numbersOfItems os

def numbersOfEntries : List (Bytes × Obj α) → List α
  | [] => []
  | entry :: entries => entry.2.numbers ++ numbersOfEntries entries

end

attribute [simp] Obj.numbers numbersOfItems

@[simp] theorem numbersOfItems_append (os more : List (Obj α)) :
    numbersOfItems (os ++ more) = numbersOfItems os ++ numbersOfItems more := by
  induction os with
  | nil => simp
  | cons o os ih => simp [ih]

@[simp] theorem numbersOfItems_reals (xs : List α) : numbersOfItems (reals xs) = xs := by
  induction xs with
  | nil => simp [reals]
  | cons x xs ih => simpa [reals] using ih

/-- All numbers among the operands that are not whole. -/
def Operation.numbers (op : Operation α) : List α := numbersOfItems op.operands

@[simp] theorem numbers_operation (operator : String) (operands : List (Obj α)) :
    (operation operator operands).numbers = numbersOfItems operands := rfl

def Operation.Finite (op : Operation Extended) : Prop := ∀ x ∈ op.numbers, x.Finite

end Pdf

namespace Style

/-- A channel is a part of 255. -/
theorem Color.finite_unit (color : Color) : ∀ x ∈ (color.unit : List Extended), x.Finite := by
  intro x hx
  obtain ⟨channel, -, rfl⟩ := List.mem_map.mp hx
  simp

theorem Font.finite_standard : (standard : Font Extended).size.Finite := by simp [standard]

end Style

/-! ## Nodes -/

structure BlockStyle.Finite (style : BlockStyle Extended) : Prop where
  font : style.font.size.Finite
  leading : ∀ x ∈ style.leading, x.Finite
  indent : style.indent.Finite
  firstLineIndent : style.firstLineIndent.Finite
  spacingBefore : style.spacingBefore.Finite
  spacingAfter : style.spacingAfter.Finite

structure TableStyle.Finite (style : TableStyle Extended) : Prop where
  widths : ∀ ws ∈ style.widths, ∀ w ∈ ws, w.Finite
  widthPercent : style.widthPercent.Finite
  padding : style.padding.Finite
  spacing : style.spacing.Finite

/-- The operators of a drawing are its own, as far as they can be read. -/
structure Drawable.Finite (d : Drawable Extended) : Prop where
  width : d.width.Finite
  height : d.height.Finite
  drawing : ∀ content ops, d.drawing = .vector content → Pdf.decodeOperations? content = some ops →
    ∀ op ∈ ops, op.Finite

/-- All measures of the node that layout reads are finite. The leading of a phrase and the shape of
an anchor are not among them. -/
inductive Node.Finite : Node Extended → Prop
  | text {run : TextRun Extended} (hsize : run.font.size.Finite) : Finite (.text run)
  | subscript {run : TextRun Extended} (hsize : run.font.size.Finite) : Finite (.subscript run)
  | superscript {run : TextRun Extended} (hsize : run.font.size.Finite) : Finite (.superscript run)
  | paragraph {style : BlockStyle Extended} {children : List (Node Extended)}
      (hstyle : style.Finite) (hchildren : ∀ n ∈ children, Finite n) :
      Finite (.paragraph style children)
  | phrase {style : PhraseStyle Extended} {children : List (Node Extended)}
      (hsize : style.font.size.Finite) (hchildren : ∀ n ∈ children, Finite n) :
      Finite (.phrase style children)
  | list {style : ListStyle Extended} {items : List (ListItem Extended)}
      (hsize : style.font.size.Finite) (hindent : style.indent.Finite)
      (hitems : ∀ item ∈ items, Finite item.node) : Finite (.list style items)
  | table {style : TableStyle Extended} {header : List (Cell Extended)}
      {rows : List (List (Cell Extended))} (hstyle : style.Finite)
      (hpaddings : ∀ row ∈ header :: rows, ∀ c ∈ row, c.style.padding.Finite)
      (hcontents : ∀ row ∈ header :: rows, ∀ c ∈ row, Finite c.content) :
      Finite (.table style header rows)
  | gridTable {style : TableStyle Extended} {header : List (Cell Extended)}
      {rows : List (List (Cell Extended))} (hstyle : style.Finite)
      (hpaddings : ∀ row ∈ header :: rows, ∀ c ∈ row, c.style.padding.Finite)
      (hcontents : ∀ row ∈ header :: rows, ∀ c ∈ row, Finite c.content) :
      Finite (.gridTable style header rows)
  | cell {c : Cell Extended} (hpadding : c.style.padding.Finite) (hcontent : Finite c.content) :
      Finite (.cell c)
  | gridCell {c : Cell Extended} (hpadding : c.style.padding.Finite)
      (hcontent : Finite c.content) : Finite (.gridCell c)
  | image {image : Image Extended} (hwidth : image.width.Finite) (hheight : image.height.Finite) :
      Finite (.image image)
  | chart {d : Drawable Extended} (hd : d.Finite) : Finite (.chart d)
  | vectorGraphic {d : Drawable Extended} (hd : d.Finite) : Finite (.vectorGraphic d)
  | anchor {ends : AnchorEnds} {shape : AnchorShape Extended} {content : Node Extended}
      (hcontent : Finite content) : Finite (.anchor ends shape content)
  | note (title text : String) : Finite (.note title text)
  | chapter {number : ℕ} {title : Node Extended} {children : List (Node Extended)}
      (htitle : Finite title) (hchildren : ∀ n ∈ children, Finite n) :
      Finite (.chapter number title children)
  | subsection {number : List ℕ} {indent : Extended} {title : Node Extended}
      {children : List (Node Extended)} (hindent : indent.Finite) (htitle : Finite title)
      (hchildren : ∀ n ∈ children, Finite n) : Finite (.subsection number indent title children)
  | rule {r : Rule Extended} (hgap : r.gap.Finite) (hlineWidth : r.lineWidth.Finite) :
      Finite (.rule r)
  | spacer {lines : ℕ} {leading : Extended} (hleading : leading.Finite) :
      Finite (.spacer lines leading)
  | rectangle {r : Rectangle Extended} (hwidth : r.width.Finite) (hheight : r.height.Finite) :
      Finite (.rectangle r)
  | reference {id : String} {target : Node Extended} (htarget : Finite target) :
      Finite (.reference id target)

structure Cell.Finite (c : Cell Extended) : Prop where
  padding : c.style.padding.Finite
  content : c.content.Finite

mutual

/-- The font that a title or a cell falls back on. -/
theorem Node.finite_firstFont : (n : Node Extended) → n.Finite → ∀ font ∈ n.firstFont?,
    font.size.Finite
  | .text run, h, font, hfont
  | .subscript run, h, font, hfont
  | .superscript run, h, font, hfont => by
    unfold firstFont? at hfont
    cases h with | _ hsize => exact Option.some.inj hfont ▸ hsize
  | .paragraph style children, .paragraph hstyle hchildren, font, hfont => by
    unfold firstFont? at hfont
    exact finite_firstFontOf children hchildren hstyle.font font hfont
  | .phrase style children, .phrase hsize hchildren, font, hfont => by
    unfold firstFont? at hfont
    exact finite_firstFontOf children hchildren hsize font hfont
  | .anchor _ _ content, .anchor hcontent, font, hfont => by
    unfold firstFont? at hfont
    exact content.finite_firstFont hcontent font hfont
  | .reference _ target, .reference htarget, font, hfont => by
    unfold firstFont? at hfont
    exact target.finite_firstFont htarget font hfont
  | .cell (.mk style content), .cell _ hcontent, font, hfont
  | .gridCell (.mk style content), .gridCell _ hcontent, font, hfont => by
    unfold firstFont? firstFontOfCell? at hfont
    exact content.finite_firstFont hcontent font hfont
  | .list .., _, font, hfont | .table .., _, font, hfont | .gridTable .., _, font, hfont
  | .image _, _, font, hfont | .chart _, _, font, hfont | .vectorGraphic _, _, font, hfont
  | .note .., _, font, hfont | .chapter .., _, font, hfont | .subsection .., _, font, hfont
  | .rule _, _, font, hfont | .spacer .., _, font, hfont | .rectangle _, _, font, hfont => by
    unfold firstFont? at hfont
    cases hfont

theorem Node.finite_firstFontOf : (ns : List (Node Extended)) → (∀ n ∈ ns, n.Finite) →
    ∀ {around : Font Extended}, around.size.Finite →
      ∀ font ∈ (firstFontOf? ns).or (some around), font.size.Finite
  | [], _, around, haround, font, hfont => by
    unfold firstFontOf? at hfont
    exact Option.some.inj hfont ▸ haround
  | n :: ns, h, around, haround, font, hfont => by
    have hrest := finite_firstFontOf ns (fun m hm => h m (List.mem_cons_of_mem n hm)) haround
    unfold firstFontOf? at hfont
    cases hfirst : n.firstFont? with
    | some first =>
      simp only [hfirst, Option.some_or, Option.mem_def, Option.some.injEq] at hfont
      exact hfont ▸ n.finite_firstFont (h n List.mem_cons_self) first hfirst
    | none =>
      simp only [hfirst, Option.none_or] at hfont
      exact hrest font hfont

end

namespace Flow

/-! ## Runs of inline content -/

theorem finite_textWidth (text : String) {font : Font Extended} (h : font.size.Finite) :
    (textWidth text font).Finite := by
  simp only [textWidth]
  split_ifs <;> simp [h]

structure RunStyle.Finite (style : RunStyle Extended) : Prop where
  size : style.font.size.Finite
  rise : style.rise.Finite

theorem RunStyle.finite_plain {font : Font Extended} (h : font.size.Finite)
    (link : Option String) : (RunStyle.plain font link).Finite :=
  ⟨h, Extended.finite_ofNat 0⟩

structure InlineRun.Finite (run : InlineRun Extended) : Prop where
  styles : ∀ style ∈ run.styles, style.Finite
  tokens : ∀ t ∈ run.tokens, t.width.Finite

namespace InlineRun.Finite

variable {run : InlineRun Extended}

theorem empty : (.empty : InlineRun Extended).Finite :=
  ⟨fun _ h => absurd h List.not_mem_nil, fun _ h => absurd h List.not_mem_nil⟩

theorem styleAt (h : run.Finite) (index : ℕ) : (run.styleAt index).Finite := by
  unfold InlineRun.styleAt
  rw [List.getD_eq_getElem?_getD]
  cases hstyle : run.styles[index]? with
  | none => exact RunStyle.finite_plain Font.finite_standard none
  | some style => exact h.styles style (List.mem_of_getElem? hstyle)

theorem styleIndex (h : run.Finite) {style : RunStyle Extended} (hstyle : style.Finite) :
    (run.styleIndex style).2.Finite := by
  unfold InlineRun.styleIndex
  split
  · exact h
  · refine ⟨fun other hother => ?_, h.tokens⟩
    rcases List.mem_append.mp hother with hother | hother
    · exact h.styles other hother
    · exact List.mem_singleton.mp hother ▸ hstyle

/-- More tokens of the same styles. -/
theorem extend (h : run.Finite) {ts : List (Token Extended)} (hts : ∀ t ∈ ts, t.width.Finite) :
    ({ run with tokens := run.tokens ++ ts } : InlineRun Extended).Finite := by
  refine ⟨h.styles, fun t ht => ?_⟩
  rcases List.mem_append.mp ht with ht | ht
  · exact h.tokens t ht
  · exact hts t ht

end InlineRun.Finite

theorem finite_wordToken (style : ℕ) {font : Font Extended} (h : font.size.Finite)
    (reversed : List Char) : ∀ t ∈ wordToken style font reversed, t.width.Finite := by
  unfold wordToken
  split
  · exact nofun
  · intro t ht
    obtain rfl := List.mem_singleton.mp ht
    exact finite_textWidth _ h

theorem finite_tokenize (style : ℕ) {font : Font Extended} (h : font.size.Finite)
    (letters : List Char) : ∀ word, ∀ t ∈ tokenize style font word letters, t.width.Finite := by
  induction letters with
  | nil => exact fun word => finite_wordToken style h word
  | cons c cs ih =>
    -- What ends a word stands behind it, and the rest is cut in turn.
    have hended (word : List Char) {ending : Token Extended} (hending : ending.width.Finite) :
        ∀ t ∈ wordToken style font word ++ ending :: tokenize style font [] cs, t.width.Finite := by
      intro t ht
      rcases List.mem_append.mp ht with ht | ht
      · exact finite_wordToken style h word t ht
      · rcases List.mem_cons.mp ht with rfl | ht
        · exact hending
        · exact ih [] t ht
    intro word
    unfold tokenize
    split_ifs
    · exact hended word (Extended.finite_ofNat 0)
    · exact hended word (finite_textWidth " " h)
    · exact ih (c :: word)

namespace InlineRun.Finite

variable {run : InlineRun Extended}

theorem pushText (h : run.Finite) (text : String) {style : RunStyle Extended}
    (hstyle : style.Finite) : (run.pushText text style).Finite :=
  (h.styleIndex hstyle).extend (finite_tokenize _ hstyle.size _ [])

theorem pushMark (h : run.Finite) (name : String) {style : RunStyle Extended}
    (hstyle : style.Finite) : (run.pushMark name style).Finite := by
  refine (h.styleIndex hstyle).extend fun t ht => ?_
  obtain rfl := List.mem_singleton.mp ht
  exact Extended.finite_ofNat 0

/-- Text of a block, in the font around it. -/
theorem pushPlain (h : run.Finite) (text : String) {font : Font Extended} (hfont : font.size.Finite)
    (link : Option String) : (run.pushText text (.plain font link)).Finite :=
  h.pushText text (RunStyle.finite_plain hfont link)

end InlineRun.Finite

mutual

theorem finite_collectInline : (n : Node Extended) → n.Finite →
    ∀ (link : Option String) {run : InlineRun Extended}, run.Finite →
      ∀ collected ∈ collectInline link run n, collected.Finite
  | .text t, .text hsize, link, run, h, collected, hcollected => by
    unfold collectInline at hcollected
    exact Option.some.inj hcollected ▸ h.pushText _ ⟨hsize, Extended.finite_ofNat 0⟩
  | .subscript t, .subscript hsize, link, run, h, collected, hcollected => by
    unfold collectInline at hcollected
    exact Option.some.inj hcollected ▸ h.pushText _ ⟨hsize, by simp [hsize]⟩
  | .superscript t, .superscript hsize, link, run, h, collected, hcollected => by
    unfold collectInline at hcollected
    exact Option.some.inj hcollected ▸ h.pushText _ ⟨hsize, by simp [hsize]⟩
  | .phrase style children, .phrase hsize hchildren, link, run, h, collected, hcollected => by
    unfold collectInline at hcollected
    exact Option.some.inj hcollected ▸ finite_collectChildren children hchildren hsize link h
  | .anchor ends shape content, .anchor hcontent, link, run, h, collected, hcollected => by
    have hmarked : (match ends.id with
        | some id => run.pushMark id (.plain .standard link)
        | none => run).Finite := by
      split
      · exact h.pushMark _ (RunStyle.finite_plain Font.finite_standard link)
      · exact h
    have hinside := finite_collectInline content hcontent (ends.target.or link) hmarked
    unfold collectInline at hcollected
    simp only at hcollected
    split at hcollected
    · next inside hsome => exact Option.some.inj hcollected ▸ hinside inside hsome
    · exact Option.some.inj hcollected ▸ hmarked.pushPlain _ Font.finite_standard link
  | .reference _ target, .reference htarget, link, run, h, collected, hcollected => by
    unfold collectInline at hcollected
    exact finite_collectInline target htarget link h collected hcollected
  | .paragraph .., _, link, run, h, collected, hcollected
  | .list .., _, link, run, h, collected, hcollected
  | .table .., _, link, run, h, collected, hcollected
  | .gridTable .., _, link, run, h, collected, hcollected
  | .cell _, _, link, run, h, collected, hcollected
  | .gridCell _, _, link, run, h, collected, hcollected
  | .image _, _, link, run, h, collected, hcollected
  | .chart _, _, link, run, h, collected, hcollected
  | .vectorGraphic _, _, link, run, h, collected, hcollected
  | .note .., _, link, run, h, collected, hcollected
  | .chapter .., _, link, run, h, collected, hcollected
  | .subsection .., _, link, run, h, collected, hcollected
  | .rule _, _, link, run, h, collected, hcollected
  | .spacer .., _, link, run, h, collected, hcollected
  | .rectangle _, _, link, run, h, collected, hcollected => by
    unfold collectInline at hcollected
    cases hcollected

theorem finite_collectChildren : (ns : List (Node Extended)) → (∀ n ∈ ns, n.Finite) →
    ∀ {font : Font Extended}, font.size.Finite → ∀ (link : Option String)
      {run : InlineRun Extended}, run.Finite → (collectChildren font link run ns).Finite
  | [], _, font, hfont, link, run, h => by
    unfold collectChildren
    exact h
  | n :: ns, hns, font, hfont, link, run, h => by
    have hn := finite_collectInline n (hns n List.mem_cons_self) link h
    have hrest {run : InlineRun Extended} (h : run.Finite) :
        (collectChildren font link run ns).Finite :=
      finite_collectChildren ns (fun m hm => hns m (List.mem_cons_of_mem n hm)) hfont link h
    unfold collectChildren
    split
    · next collected hcollected => exact hrest (hn collected hcollected)
    · exact hrest (h.pushPlain _ hfont link)

end

/-- An inline node as a block of its own. -/
theorem finite_inlineRun {n : Node Extended} (h : n.Finite) :
    ((collectInline none .empty n).getD .empty).Finite := by
  cases hrun : collectInline none .empty n with
  | none => exact .empty
  | some run => exact finite_collectInline n h none .empty run hrun

end Flow

end Folio
