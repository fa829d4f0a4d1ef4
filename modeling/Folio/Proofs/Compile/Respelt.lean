import Mathlib.Data.List.Forall2
import Folio.Compile.Compiler
import Folio.Proofs.Style.Spelling

/-!
# Markup in keyword spelling

The tags, classes, attribute keys and reference ids of markup may be spelt with a colon in front.
What a value is, a node or a row, a header or a map, decides where its spelling may differ. Elements
that differ in their spelling have the same tag and the same classes, and the contexts they stand in
show the same, but for maps and headers inside that are themselves spelt in another way.
-/
namespace Folio

open Style

namespace Markup

/-! ## Tokens -/

/-- The parts of a token, some of them spelt as keywords. -/
def TokenSpelt (s t : String) : Prop :=
  List.Forall₂ (fun p q => Spelt (String.ofList p) (String.ofList q)) (splitPoints s.toList)
    (splitPoints t.toList)

theorem TokenSpelt.refl (s : String) : TokenSpelt s s :=
  List.forall₂_same.mpr fun _ _ => .plain

def stripPart (part : List Char) : String := stripKeyword (String.ofList part)

theorem splitPoints_cons (c : Char) (cs : List Char) :
    ∃ part parts, splitPoints cs = part :: parts ∧
      splitPoints (c :: cs) = if c == '.' then [] :: part :: parts else (c :: part) :: parts := by
  cases h : splitPoints cs with
  | nil => exact absurd h (splitPoints_ne_nil cs)
  | cons part parts => exact ⟨part, parts, rfl, by rw [splitPoints, h]⟩

/-- Taking the colon off a token takes it off the first part. -/
theorem splitPoints_stripKeyword (s : String) :
    ∃ part parts, splitPoints s.toList = part :: parts ∧
      splitPoints (stripKeyword s).toList = (stripPart part).toList :: parts := by
  unfold stripPart stripKeyword
  cases hs : s.toList with
  | nil => exact ⟨[], [], rfl, by simp [hs, splitPoints]⟩
  | cons c cs =>
    obtain ⟨part, parts, hcs, hsplit⟩ := splitPoints_cons c cs
    by_cases hcolon : c = ':'
    · subst hcolon
      exact ⟨':' :: part, parts, hsplit, by simp [hcs]⟩
    · by_cases hpoint : c = '.'
      · subst hpoint
        exact ⟨[], part :: parts, hsplit, by simp [hs, hsplit]⟩
      · refine ⟨c :: part, parts, by simp [hsplit, hpoint], ?_⟩
        simp [hs, hsplit, hpoint, hcolon]

/-- Names of tags have no points in them. -/
theorem splitPoints_of_parse? {name : String} {tag : Tag} (h : Tag.parse? name = some tag) :
    splitPoints name.toList = [name.toList] ∧ name ≠ "" := by
  unfold Tag.parse? at h
  split at h
  all_goals first | exact ⟨by decide, by decide⟩ | cases h

def tokenTag? (token : String) : Option Tag := Tag.parse? (Token.parse token).primary

/-- Is a part empty that must not be? -/
def malformedParts (part : List Char) (parts : List (List Char)) : Bool :=
  part.isEmpty || (parts.map stripPart).any (·.isEmpty)

theorem Token.parse_eq {s : String} {part : List Char} {parts : List (List Char)}
    (h : splitPoints (stripKeyword s).toList = part :: parts) :
    Token.parse s = if malformedParts part parts then ⟨stripKeyword s, []⟩
      else ⟨String.ofList part, parts.map stripPart⟩ := by
  unfold Token.parse malformedParts
  simp only [h]
  rfl

theorem tokenTag?_of_malformed {s : String} {part : List Char} {parts : List (List Char)}
    (h : splitPoints (stripKeyword s).toList = part :: parts)
    (hmalformed : malformedParts part parts) : tokenTag? s = none := by
  unfold tokenTag?
  rw [Token.parse_eq h, if_pos hmalformed]
  cases htag : Tag.parse? (stripKeyword s) with
  | none => rfl
  | some tag =>
    obtain ⟨hwhole, hne⟩ := splitPoints_of_parse? htag
    obtain ⟨rfl, rfl⟩ := List.cons.inj (h.symm.trans hwhole)
    simp [malformedParts, hne] at hmalformed

/-- A token is read the same in every spelling, unless it is malformed and names no tag. -/
theorem TokenSpelt.parse {s t : String} (h : TokenSpelt s t) :
    Token.parse s = Token.parse t ∨ tokenTag? s = none ∧ tokenTag? t = none := by
  obtain ⟨p, ps, hs, hstrip⟩ := splitPoints_stripKeyword s
  obtain ⟨q, qs, ht, hstrip'⟩ := splitPoints_stripKeyword t
  unfold TokenSpelt at h
  rw [hs, ht] at h
  obtain ⟨hpart, hparts⟩ := List.forall₂_cons.mp h
  have hfirst : stripPart q = stripPart p := hpart.stripKeyword_eq
  have hrest : qs.map stripPart = ps.map stripPart := by
    clear hs ht hstrip hstrip' h
    induction hparts with
    | nil => rfl
    | cons hpart _ ih =>
      rw [List.map_cons, List.map_cons, ih, stripPart, hpart.stripKeyword_eq]
      rfl
  have hsame : malformedParts (stripPart q).toList qs = malformedParts (stripPart p).toList ps := by
    unfold malformedParts
    rw [hfirst, hrest]
  by_cases hmalformed : malformedParts (stripPart p).toList ps
  · exact .inr ⟨tokenTag?_of_malformed hstrip hmalformed,
      tokenTag?_of_malformed hstrip' (hsame.trans hmalformed)⟩
  · refine .inl ?_
    rw [Token.parse_eq hstrip, Token.parse_eq hstrip', hsame, if_neg hmalformed, if_neg hmalformed,
      hfirst, hrest]

end Markup

namespace Compile

open Markup

/-! ## Values -/

/-- What a value is in markup. -/
inductive Place where
  | node
  | row
  /-- What stands under the key of a header. -/
  | header
  /-- An entry of a header. -/
  | entry
  /-- Attributes, perhaps those of a reference itself. -/
  | attrs (reference : Bool)
  /-- The id of a reference. -/
  | id
  /-- Anything else. -/
  | fixed

def valuePlace (reference : Bool) : String → Place
  | "style" => .attrs false
  | "header" => .header
  | "id" => if reference then .id else .fixed
  | _ => .fixed

/-- What the children of an element are. -/
def childPlace : Option Tag → Place
  | some .reference => .id
  | some .table | some .gridTable => .row
  | some .image | some .chart | some .svg | some .graphics => .fixed
  | _ => .node

theorem childPlace_ne_attrs (tag : Option Tag) (reference : Bool) :
    childPlace tag ≠ .attrs reference := by
  unfold childPlace
  split <;> exact nofun

/-- Is it a map behind content that is not itself the name of a tag? -/
def isStyledEntry (entry : Json) : Bool :=
  match entry, tagOf? entry with
  | .array [_, .object _], none => true
  | _, _ => false

/-- Values in their place, the second with colons in front of some of the tags, classes, keys and
ids of the first, in which no map has a key in two spellings. -/
inductive Respelt : Place → Json → Json → Prop
  | same (place : Place) (v : Json) : Respelt place v v
  | element {s t : String} {xs ys : List Json} (token : TokenSpelt s t)
      (length : xs.length = ys.length)
      (children : ∀ x y, (x, y) ∈ xs.zip ys → Respelt (childPlace (tokenTag? s)) x y) :
      Respelt .node (.array (.string s :: xs)) (.array (.string t :: ys))
  | elementWith {s t : String} {fs gs : Fields} {xs ys : List Json} (token : TokenSpelt s t)
      (attrs : Respelt (.attrs (tokenTag? s == some .reference)) (.object fs) (.object gs))
      (length : xs.length = ys.length)
      (children : ∀ x y, (x, y) ∈ xs.zip ys → Respelt (childPlace (tokenTag? s)) x y) :
      Respelt .node (.array (.string s :: .object fs :: xs))
        (.array (.string t :: .object gs :: ys))
  | row {xs ys : List Json} (length : xs.length = ys.length)
      (items : ∀ x y, (x, y) ∈ xs.zip ys → Respelt .node x y) :
      Respelt .row (.array xs) (.array ys)
  | header {xs ys : List Json} (length : xs.length = ys.length)
      (entries : ∀ x y, (x, y) ∈ xs.zip ys → Respelt .entry x y) :
      Respelt .header (.array xs) (.array ys)
  | headerWith {fs gs : Fields} {xs ys : List Json}
      (style : Respelt (.attrs false) (.object fs) (.object gs)) (length : xs.length = ys.length)
      (entries : ∀ x y, (x, y) ∈ xs.zip ys → Respelt .entry x y) :
      Respelt .header (.array (.object fs :: xs)) (.array (.object gs :: ys))
  | entry {x y : Json} (plain : isStyledEntry x = false) (content : Respelt .node x y) :
      Respelt .entry x y
  | styledEntry {x y : Json} {fs gs : Fields} (styled : isStyledEntry (.array [x, .object fs]))
      (content : Respelt .node x y) (attrs : Respelt (.attrs false) (.object fs) (.object gs)) :
      Respelt .entry (.array [x, .object fs]) (.array [y, .object gs])
  | attrs {reference : Bool} {fs gs : Fields} (keys : SameKeys fs gs)
      (values : ∀ e ∈ fs, ∀ w ∈ gs, stripKeyword e.1 = stripKeyword w.1 →
        Respelt (valuePlace reference (stripKeyword e.1)) e.2 w.2) :
      Respelt (.attrs reference) (.object fs) (.object gs)
  | id {s t : String} (h : Spelt s t) : Respelt .id (.string s) (.string t)

namespace Respelt

theorem fixed_eq {x y : Json} (h : Respelt .fixed x y) : x = y := by
  cases h
  rfl

/-- Only attributes are maps that may differ. -/
theorem eq_of_object {place : Place} {x y : Json} (h : Respelt place x y)
    (hplace : ∀ reference, place ≠ .attrs reference) (hmap : x.isObject ∨ y.isObject) : x = y := by
  induction h with
  | same => rfl
  | entry _ _ ih => exact ih nofun hmap
  | attrs => exact absurd rfl (hplace _)
  | _ => simp [Json.isObject] at hmap

/-- Texts and numbers of markup do not differ. -/
theorem leafText?_eq {x y : Json} (h : Respelt .node x y) : leafText? x = leafText? y := by
  cases h <;> rfl

theorem of_zip_self {place : Place} {xs : List Json} {x y : Json} (h : (x, y) ∈ xs.zip xs) :
    Respelt place x y :=
  (List.forall₂_iff_zip.mp (List.forall₂_same.mpr fun v _ => .same place v)).2 h

theorem forall₂ {place : Place} {xs ys : List Json} (length : xs.length = ys.length)
    (h : ∀ x y, (x, y) ∈ xs.zip ys → Respelt place x y) : List.Forall₂ (Respelt place) xs ys :=
  List.forall₂_iff_zip.mpr ⟨length, fun {x y} => h x y⟩

end Respelt

/-! ## Depth -/

theorem depthItems_congr {xs ys : List Json}
    (h : List.Forall₂ (fun x y => x.depth = y.depth) xs ys) :
    Json.depthItems xs = Json.depthItems ys := by
  induction h with
  | nil => rfl
  | cons hxy _ ih => rw [Json.depthItems, Json.depthItems, hxy, ih]

theorem depthFields_le {fs : Fields} {n : Nat} (h : ∀ e ∈ fs, e.2.depth ≤ n) :
    Json.depthFields fs ≤ n := by
  induction fs with
  | nil => exact Nat.zero_le n
  | cons e fs ih =>
    obtain ⟨k, v⟩ := e
    rw [Json.depthFields]
    exact Nat.max_le.mpr ⟨h _ List.mem_cons_self, ih fun e he => h e (List.mem_cons_of_mem _ he)⟩

theorem depthFields_congr {fs gs : Fields} (h : Rekeyed (fun _ x y => x.depth = y.depth) fs gs) :
    Json.depthFields fs = Json.depthFields gs := by
  refine Nat.le_antisymm (depthFields_le fun e he => ?_) (depthFields_le fun w hw => ?_)
  · obtain ⟨w, hw, hspelt⟩ := h.keys.forth e he
    rw [h.values e he w hw hspelt.stripKeyword_eq.symm]
    exact depth_le_depthFields hw
  · obtain ⟨e, he, hspelt⟩ := h.keys.back w hw
    rw [← h.values e he w hw hspelt.stripKeyword_eq.symm]
    exact depth_le_depthFields he

namespace Respelt

/-- Markup is as deep in every spelling. -/
theorem depth_eq {place : Place} {x y : Json} (h : Respelt place x y) : x.depth = y.depth := by
  have hitems {xs ys : List Json} (length : xs.length = ys.length)
      (h : ∀ x y, (x, y) ∈ xs.zip ys → x.depth = y.depth) :
      Json.depthItems xs = Json.depthItems ys :=
    depthItems_congr (List.forall₂_iff_zip.mpr ⟨length, fun {x y} => h x y⟩)
  induction h with
  | same => rfl
  | element _ length _ ih =>
    simp only [Json.depth, Json.depthItems, hitems length ih]
  | elementWith _ _ length _ ihattrs ih =>
    simp only [Json.depth, Json.depthItems, Nat.add_right_cancel_iff] at ihattrs ⊢
    rw [ihattrs, hitems length ih]
  | row length _ ih | header length _ ih => simp only [Json.depth, hitems length ih]
  | headerWith _ length _ ihstyle ih =>
    simp only [Json.depth, Json.depthItems, Nat.add_right_cancel_iff] at ihstyle ⊢
    rw [ihstyle, hitems length ih]
  | entry _ _ ih => exact ih
  | styledEntry _ _ _ ihcontent ihattrs =>
    simp only [Json.depth, Json.depthItems, Nat.add_right_cancel_iff] at ihattrs ⊢
    rw [ihcontent, ihattrs]
  | attrs keys _ ih => simp only [Json.depth, depthFields_congr ⟨keys, ih⟩]
  | id => rfl

end Respelt

/-! ## Elements -/

/-- Attributes in their spellings. -/
abbrev AttrsRespelt (reference : Bool) (fs gs : Fields) : Prop :=
  Respelt (.attrs reference) (.object fs) (.object gs)

/-- Elements of a tag that differ in their spelling. -/
structure ElementRespelt (tag : Tag) (e f : Element) : Prop where
  token : e.token = f.token
  attrs : Option.Rel (AttrsRespelt (tag == .reference)) e.attrs f.attrs
  children : List.Forall₂ (Respelt (childPlace (some tag))) e.children f.children

theorem ElementRespelt.refl (tag : Tag) (e : Element) : ElementRespelt tag e e where
  token := rfl
  attrs := rel_refl (fun _ => .same _ _) e.attrs
  children := List.forall₂_same.mpr fun _ _ => .same _ _

/-- What two spellings of a node are read as: the same fault, or elements both of no tag or both of
one. -/
inductive ReadAlike : Except Malformed Element → Except Malformed Element → Prop
  | malformed (fault : Malformed) : ReadAlike (.error fault) (.error fault)
  | unknown {e f : Element} (left : e.tag? = none) (right : f.tag? = none) :
    ReadAlike (.ok e) (.ok f)
  | known {tag : Tag} {e f : Element} (left : e.tag? = some tag) (right : f.tag? = some tag)
    (h : ElementRespelt tag e f) : ReadAlike (.ok e) (.ok f)

theorem readAlike_refl (r : Except Malformed Element) : ReadAlike r r := by
  cases r with
  | error fault => exact .malformed fault
  | ok e =>
    cases htag : e.tag? with
    | none => exact .unknown htag htag
    | some tag => exact .known htag htag (.refl tag e)

theorem readAlike_of_token {s t : String} (token : TokenSpelt s t) {attrs attrs' : Option Fields}
    {xs ys : List Json} {node node' : Json}
    (hattrs : Option.Rel (AttrsRespelt (tokenTag? s == some .reference)) attrs attrs')
    (hchildren : List.Forall₂ (Respelt (childPlace (tokenTag? s))) xs ys) :
    ReadAlike (.ok ⟨Token.parse s, attrs, xs, node⟩) (.ok ⟨Token.parse t, attrs', ys, node'⟩) := by
  rcases token.parse with hsame | ⟨hs, ht⟩
  · cases htag : tokenTag? s with
    | none => exact .unknown htag (by rwa [tokenTag?, hsame] at htag)
    | some tag =>
      rw [htag] at hattrs hchildren
      exact .known htag (by rwa [tokenTag?, hsame] at htag) ⟨hsame, hattrs, hchildren⟩
  · exact .unknown hs ht

theorem Element.parse_of_head {token : String} {x : Json} (hx : x.isObject = false)
    (xs : List Json) : Element.parse (.array (.string token :: x :: xs)) =
      .ok ⟨Token.parse token, none, x :: xs, .array (.string token :: x :: xs)⟩ := by
  cases x with
  | object fs => cases hx
  | _ => rfl

/-- Two spellings of a node are read alike. -/
theorem Respelt.readAlike {node node' : Json} (h : Respelt .node node node') :
    ReadAlike (Element.parse node) (Element.parse node') := by
  cases h with
  | same => exact readAlike_refl _
  | @element s t xs ys token length children =>
    cases forall₂ length children with
    | nil => exact readAlike_of_token token .none .nil
    | @cons x y xs ys hxy hrest =>
      by_cases hmap : x.isObject ∨ y.isObject
      · obtain rfl := hxy.eq_of_object (childPlace_ne_attrs _) hmap
        cases x with
        | object fs => exact readAlike_of_token token (.some (.same _ _)) hrest
        | _ => simp [Json.isObject] at hmap
      · obtain ⟨hx, hy⟩ := not_or.mp hmap
        rw [Element.parse_of_head (by simpa using hx), Element.parse_of_head (by simpa using hy)]
        exact readAlike_of_token token .none (.cons hxy hrest)
  | elementWith token attrs length children =>
    exact readAlike_of_token token (.some attrs) (forall₂ length children)

theorem Respelt.tagOf?_eq {x y : Json} (h : Respelt .node x y) : tagOf? x = tagOf? y := by
  rw [Markup.tagOf?_eq, Markup.tagOf?_eq]
  have hread := h.readAlike
  generalize Element.parse x = r at hread ⊢
  generalize Element.parse y = r' at hread ⊢
  cases hread with
  | malformed fault => rfl
  | unknown left right => simp [Except.toOption, left, right]
  | known left right => simp [Except.toOption, left, right]

/-! ## Contexts -/

/-- Contexts that show the same, but for the spelling of what they show. -/
abbrev ContextRespelt (reference : Bool) (c d : Context) : Prop :=
  Context.Rel (fun key => Respelt (valuePlace reference key)) c d

/-- The keys under which there may be another spelling. -/
def speltKeys : List String := ["style", "header", "id"]

theorem valuePlace_fixed (reference : Bool) {key : String} (h : key ∉ speltKeys) :
    valuePlace reference key = .fixed := by
  unfold valuePlace
  split
  · exact absurd (by decide) h
  · exact absurd (by decide) h
  · exact absurd (by decide) h
  · rfl

theorem valuePlace_of_ne (reference : Bool) {key : String} (h : key ≠ "id") :
    valuePlace reference key = valuePlace false key := by
  unfold valuePlace
  split
  · rfl
  · rfl
  · exact absurd rfl h
  · rfl

theorem AttrsRespelt.rekeyed {reference : Bool} {fs gs : Fields}
    (h : AttrsRespelt reference fs gs) :
    fs = gs ∨ Rekeyed (fun key => Respelt (valuePlace reference key)) fs gs := by
  cases h with
  | same => exact .inl rfl
  | attrs keys values => exact .inr ⟨keys, values⟩

namespace ContextRespelt

variable {reference : Bool} {c d : Context}

theorem refl (c : Context) : ContextRespelt reference c c := Context.Rel.refl (fun _ => .same _) c

theorem shown (h : ContextRespelt reference c d) (key : String) :
    Option.Rel (Respelt (valuePlace reference key)) (c.get? key) (d.get? key) := h key

/-- The attributes of a reference may differ in an id too. -/
theorem widen (h : ContextRespelt false c d) : ContextRespelt reference c d := by
  intro key
  have hkey := h.shown key
  by_cases hid : key = "id"
  · subst hid
    generalize c.get? "id" = a at hkey ⊢
    generalize d.get? "id" = b at hkey ⊢
    cases hkey with
    | none => exact .none
    | @some x y hxy =>
      obtain rfl : x = y := Respelt.fixed_eq hxy
      exact .some (.same _ _)
  · rwa [← valuePlace_of_ne reference hid] at hkey

theorem merge (h : ContextRespelt reference c d) {fs gs : Fields}
    (hattrs : AttrsRespelt reference fs gs) :
    ContextRespelt reference (c.merge fs) (d.merge gs) := by
  rcases hattrs.rekeyed with rfl | hmaps
  · exact Context.Rel.merge_same h (fun _ => .same _) fs
  · exact Context.Rel.merge h hmaps

theorem without (h : ContextRespelt reference c d) (keys : List String) :
    ContextRespelt reference (c.without keys) (d.without keys) := Context.Rel.without h keys

/-- Ids are not inherited. -/
theorem inheritable (h : ContextRespelt reference c d) :
    ContextRespelt false c.inheritable d.inheritable := by
  intro key
  by_cases hkey : key ∈ localAttributes
  · have hnone (e : Context) : e.inheritable.get? key = none := Context.get?_without_of_mem hkey e
    rw [hnone, hnone]
    exact .none
  · have hid : key ≠ "id" := by
      rintro rfl
      exact hkey (by decide)
    have hshown := (h.without localAttributes).shown key
    rwa [valuePlace_of_ne reference hid] at hshown

/-- The classes of an element are the same in every spelling. -/
theorem resolve (h : ContextRespelt false c d) (sheet : Sheet) (classes : List String)
    {inlined inlined' : Option Fields}
    (hinlined : Option.Rel (AttrsRespelt reference) inlined inlined') :
    ContextRespelt reference (Style.resolve c sheet classes inlined)
      (Style.resolve d sheet classes inlined') := by
  -- the sheet gives both the same attributes, so only the inline ones can be spelt in two ways
  induction classes generalizing c d with
  | nil =>
    cases hinlined with
    | none => exact h.widen
    | some hattrs => exact h.widen.merge hattrs
  | cons name classes ih =>
    refine ih ?_
    simp only
    split
    · exact h.merge (.same _ _)
    · exact h

/-! ### Readers -/

variable {key : String} (h : ContextRespelt reference c d)

include h

theorem get?_eq (hkey : key ∉ speltKeys) : c.get? key = d.get? key := by
  have hshown := h.shown key
  rw [valuePlace_fixed reference hkey] at hshown
  generalize c.get? key = a at hshown ⊢
  generalize d.get? key = b at hshown ⊢
  cases hshown with
  | none => rfl
  | some hxy => rw [hxy.fixed_eq]

theorem scalar?_eq {α : Type} [Scalar α] (hkey : key ∉ speltKeys) :
    (c.scalar? key : Option α) = d.scalar? key := by
  unfold Context.scalar?
  rw [h.get?_eq hkey]

theorem count?_eq (hkey : key ∉ speltKeys) : c.count? key = d.count? key := by
  unfold Context.count?
  rw [h.get?_eq hkey]

theorem flag_eq (hkey : key ∉ speltKeys) : c.flag key = d.flag key := by
  unfold Context.flag
  rw [h.get?_eq hkey]

theorem keyword?_eq (hkey : key ∉ speltKeys) : c.keyword? key = d.keyword? key := by
  unfold Context.keyword?
  rw [h.get?_eq hkey]

theorem text?_eq (hkey : key ∉ speltKeys) : c.text? key = d.text? key := by
  unfold Context.text?
  rw [h.get?_eq hkey]

theorem color?_eq (hkey : key ∉ speltKeys) : c.color? key = d.color? key := by
  unfold Context.color?
  rw [h.get?_eq hkey]

/-- The id that an element names does not depend on its spelling. -/
theorem keyword?_id : c.keyword? "id" = d.keyword? "id" := by
  have hshown := h.shown "id"
  unfold Context.keyword?
  generalize c.get? "id" = a at hshown ⊢
  generalize d.get? "id" = b at hshown ⊢
  cases hshown with
  | none => rfl
  | @some x y hxy =>
    cases reference with
    | false => rw [hxy.fixed_eq]
    | true =>
      cases hxy with
      | same => rfl
      | id hspelt => exact congrArg some hspelt.stripKeyword_eq.symm

/-- A style that is a text does not differ, and a map of styles is a map in every spelling. -/
theorem style_rel : Option.Rel (Respelt (.attrs false)) (c.get? "style") (d.get? "style") :=
  h.shown "style"

theorem fields?_rel : Option.Rel (AttrsRespelt false) (c.fields? "style") (d.fields? "style") := by
  have hshown := h.style_rel
  unfold Context.fields?
  generalize c.get? "style" = a at hshown ⊢
  generalize d.get? "style" = b at hshown ⊢
  cases hshown with
  | none => exact .none
  | some hxy =>
    cases hxy with
    | same v => exact rel_refl (fun _ => .same _ _) _
    | attrs keys values => exact .some (.attrs keys values)

theorem font_eq {α : Type} [Scalar α] :
    (Font.ofContext c : Except Color.Fault (Font α)) = Font.ofContext d := by
  have hstyle : (Fields.get? "style" c.attrs).bind Json.asString? =
      (Fields.get? "style" d.attrs).bind Json.asString? := by
    have hshown := h.style_rel
    unfold Context.get? at hshown
    generalize Fields.get? "style" c.attrs = a at hshown ⊢
    generalize Fields.get? "style" d.attrs = b at hshown ⊢
    cases hshown with
    | none => rfl
    | some hxy =>
      cases hxy with
      | same => rfl
      | attrs => rfl
  have hfamily : Fields.get? "family" c.attrs = Fields.get? "family" d.attrs :=
    h.get?_eq (by decide)
  have hsize : Fields.get? "size" c.attrs = Fields.get? "size" d.attrs := h.get?_eq (by decide)
  have hcolor : Context.color? ⟨c.attrs⟩ "color" = Context.color? ⟨d.attrs⟩ "color" :=
    h.color?_eq (by decide)
  unfold Font.ofContext Font.overriddenBy
  simp only [← Option.bind_assoc, hstyle, hfamily, hsize, hcolor]

end ContextRespelt

/-! ## Headers -/

/-- Headers that differ in their spelling. -/
structure HeaderRespelt (row row' : HeaderRow) : Prop where
  style : Option.Rel (AttrsRespelt false) row.style row'.style
  entries : List.Forall₂ (Respelt .entry) row.entries row'.entries

theorem HeaderRespelt.refl (row : HeaderRow) : HeaderRespelt row row where
  style := rel_refl (fun _ => .same _ _) row.style
  entries := List.forall₂_same.mpr fun _ _ => .same _ _

theorem HeaderRow.parse?_of_head {x : Json} (hx : x.isObject = false) (xs : List Json) :
    HeaderRow.parse? (some (.array (x :: xs))) = some ⟨none, x :: xs⟩ := by
  cases x with
  | object fs => cases hx
  | _ => rfl

theorem Respelt.header_rel {x y : Json} (h : Respelt .header x y) :
    Option.Rel HeaderRespelt (HeaderRow.parse? (some x)) (HeaderRow.parse? (some y)) := by
  cases h with
  | same => exact rel_refl HeaderRespelt.refl _
  | @header xs ys length entries =>
    have hentries := forall₂ length entries
    cases hentries with
    | nil => exact .some ⟨.none, .nil⟩
    | @cons x y xs ys hxy hrest =>
      by_cases hmap : x.isObject ∨ y.isObject
      · obtain rfl := hxy.eq_of_object nofun hmap
        cases x with
        | object fs => exact .some ⟨.some (.same _ _), hrest⟩
        | _ => simp [Json.isObject] at hmap
      · obtain ⟨hx, hy⟩ := not_or.mp hmap
        rw [HeaderRow.parse?_of_head (by simpa using hx),
          HeaderRow.parse?_of_head (by simpa using hy)]
        exact .some ⟨.none, .cons hxy hrest⟩
  | headerWith style length entries => exact .some ⟨.some style, forall₂ length entries⟩

theorem ContextRespelt.header_rel {reference : Bool} {c d : Context}
    (h : ContextRespelt reference c d) :
    Option.Rel HeaderRespelt (HeaderRow.parse? (c.get? "header"))
      (HeaderRow.parse? (d.get? "header")) := by
  have hshown := h.shown "header"
  generalize c.get? "header" = a at hshown ⊢
  generalize d.get? "header" = b at hshown ⊢
  cases hshown with
  | none => exact .none
  | some hxy => exact Respelt.header_rel hxy

end Compile

end Folio
