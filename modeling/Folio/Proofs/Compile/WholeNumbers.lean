import Folio.Proofs.Compile.Guarded
import Folio.Proofs.Compile.TableRules

/-!
# Whole numbers in elements

The whole numbers of the markup have 64 bits, and what they are compiled to has less. Where a number
does not fit, spans, glyphs and series take their default instead, and an image fails for want of a
source. Only the lines of a spacer are reduced: a spacer of 2 ^ 32 lines and more has as many as the
last 32 bits say.
-/
namespace Folio.Compile

open Style Markup

variable {α : Type} [Scalar α]

/-- A number that is below the bound, and else the default. -/
def fitting (bound default n : Nat) : Nat := if n < bound then n else default

/-! ## Attributes -/

theorem count?_of_whole {context : Context} {key : String} {n : UInt64}
    (h : context.get? key = some (.number (.whole n))) :
    context.count? key = if n.toNat < 2 ^ 32 then some n.toNat else none := by
  simp [Context.count?, h, Json.asCount?, Number.toCount?, Option.filter_some]

theorem getD_count?_of_whole {context : Context} {key : String} {n : UInt64}
    (h : context.get? key = some (.number (.whole n))) (default : Nat) :
    (context.count? key).getD default = fitting (2 ^ 32) default n.toNat := by
  rw [count?_of_whole h, fitting]
  split <;> rfl

/-- The spans of a cell are the numbers that its context has for them, nought being taken as one. -/
def SpansAsWritten (context : Context) (style : CellStyle α) : Prop :=
  (∀ n, context.get? "colspan" = some (.number (.whole n)) →
    style.colspan = max 1 (fitting (2 ^ 32) 1 n.toNat)) ∧
  ∀ n, context.get? "rowspan" = some (.number (.whole n)) →
    style.rowspan = max 1 (fitting (2 ^ 32) 1 n.toNat)

theorem gives_spansAsWritten (context : Context) :
    Gives (SpansAsWritten context) (cellStyle context : CompileM α (CellStyle α)) := by
  refine (gives_any _).map fun background _ => ⟨fun n hn => ?_, fun n hn => ?_⟩
  · exact congrArg (max 1) (getD_count?_of_whole hn 1)
  · exact congrArg (max 1) (getD_count?_of_whole hn 1)

theorem gives_compileCell (compile : Compiling α) (grid : Bool) (e : Element) (context : Context) :
    Gives (fun c => SpansAsWritten context c.style) (compileCell compile grid e context) := by
  unfold compileCell
  refine (gives_any _).bind fun content _ => ?_
  exact (gives_spansAsWritten context).map fun style hstyle => hstyle

/-- The attributes of an entry of a header are those of its cell. -/
theorem gives_headerCell (compile : Compiling α) (grid : Bool) (context : Context) {content : Json}
    {inlined : Fields} (htag : tagOf? (.array [content, .object inlined]) = none) :
    Gives (fun c => SpansAsWritten (context.merge inlined) c.style)
      (headerCell compile grid context (.array [content, .object inlined])) := by
  unfold headerCell
  rw [htag]
  refine (gives_any _).bind fun content _ => ?_
  exact (gives_spansAsWritten _).map fun style hstyle => hstyle

/-! ## Glyphs -/

theorem fitting_fitting {bound wide : Nat} (h : bound ≤ wide) (hpos : 0 < bound) (n : Nat) :
    fitting bound 0 (fitting wide 0 n) = fitting bound 0 n := by
  unfold fitting
  split_ifs <;> omega

/-- A series that does not exist is the first one. -/
theorem getElem?_dingbatSeries (m : Nat) :
    dingbatSeries[fitting 4 0 m]? = some (dingbatSeries.getD m (dingbatSeries.headD 0)) := by
  match m with
  | 0 | 1 | 2 | 3 => rfl
  | m + 4 => simp [fitting, dingbatSeries]

/-- The glyph of a list, or the series of its glyphs, is the one that its context asks for. -/
def GlyphsAsWritten (context : Context) (kind : ListKind) : Prop :=
  context.flag "roman" = false → context.flag "greek" = false →
    (∀ n, context.get? "dingbats" = some (.number (.whole n)) →
      ∃ glyph, kind = .dingbat glyph ∧ glyph.toNat = fitting 256 108 n.toNat) ∧
    (context.flag "dingbats" = false → context.flag "dingbat-number" →
      ∀ n, context.get? "type" = some (.number (.whole n)) →
        ∃ first, kind = .dingbatNumber first ∧ dingbatSeries[fitting 4 0 n.toNat]? = some first)

theorem glyphsAsWritten_listKind (context : Context) :
    GlyphsAsWritten context (listKind context) := by
  intro hroman hgreek
  unfold listKind
  rw [hroman, hgreek]
  refine ⟨fun n hn => ?_, fun hdingbats hnumber n hn => ?_⟩
  · have hflag : context.flag "dingbats" := by simp [Context.flag, hn]
    have hglyph : (context.count? "dingbats").filter (· < 256) =
        if n.toNat < 256 then some n.toNat else none := by
      rw [count?_of_whole hn]
      split
      · simp [Option.filter]
      · simp; omega
    simp only [hflag, hglyph, fitting, Bool.false_eq_true, if_false, if_true]
    by_cases hfits : n.toNat < 256
    · simpa only [hfits, if_true] using ⟨_, rfl, Nat.mod_eq_of_lt hfits⟩
    · simpa only [hfits, if_false] using ⟨_, rfl, rfl⟩
  · simp only [hdingbats, hnumber, getD_count?_of_whole hn, Bool.false_eq_true, if_false, if_true]
    refine ⟨_, rfl, ?_⟩
    rw [← getElem?_dingbatSeries, fitting_fitting (by decide) (by decide)]

theorem gives_compileList (compile : Compiling α) (e : Element) (context : Context) :
    Gives (fun r => ∃ style items, r = .list style items ∧ GlyphsAsWritten context style.kind)
      (compileList compile e context) := by
  unfold compileList
  refine (gives_any _).bind fun font _ => ?_
  exact (gives_any _).map fun items _ => ⟨_, _, rfl, glyphsAsWritten_listKind context⟩

/-! ## Lines and bytes -/

theorem gives_spacerNode {e : Element} {n : UInt64}
    (h : e.children.head? = some (.number (.whole n))) (context : Context) :
    Gives (fun r => ∃ leading, r = .spacer (n.toNat % 2 ^ 32) leading)
      (spacerNode e context : CompileM α (Node α)) := by
  have hlines : e.children.head?.bind Json.asCount? = some n.toNat := by rw [h]; rfl
  simp only [spacerNode, hlines]
  split
  · exact keeps_pure ⟨_, rfl⟩
  · exact (gives_any _).map fun font _ => ⟨_, rfl⟩

theorem toNat_imageByte? {n : UInt64} {b : UInt8}
    (h : imageByte? (.number (.whole n)) = some b) : b.toNat = n.toNat := by
  obtain ⟨m, hm, rfl⟩ := Option.map_eq_some_iff.mp h
  obtain ⟨hcount, hfits⟩ := Option.filter_eq_some_iff.mp hm
  obtain rfl : n.toNat = m := Option.some.inj hcount
  exact Nat.mod_eq_of_lt (of_decide_eq_true hfits)

theorem imageByte?_of_le {n : UInt64} (h : 256 ≤ n.toNat) :
    imageByte? (.number (.whole n)) = none := by
  simp [imageByte?, Json.asCount?, Number.toCount?, Option.filter, h.not_gt]

theorem forall₂_imageByte? {items : List Json} {data : List UInt8}
    (h : items.mapM imageByte? = some data) :
    List.Forall₂ (fun item b => imageByte? item = some b) items data := by
  induction items generalizing data with
  | nil =>
    obtain rfl := Option.some.inj h
    exact .nil
  | cons item items ih =>
    rw [List.mapM_cons] at h
    obtain ⟨b, hb, h⟩ := Option.bind_eq_some_iff.mp h
    obtain ⟨bs, hbs, h⟩ := Option.bind_eq_some_iff.mp h
    obtain rfl := Option.some.inj h
    exact .cons hb (ih hbs)

theorem mapM_imageByte?_of_mem {items : List Json} {item : Json} (hmem : item ∈ items)
    (h : imageByte? item = none) : items.mapM imageByte? = none := by
  cases hdata : items.mapM imageByte? with
  | none => rfl
  | some data =>
    have hbytes := (forall₂_imageByte? hdata).imp fun _ _ hb => Option.isSome_of_eq_some hb
    have hitem := forall_mem_of_forall₂ (Q := fun x => (imageByte? x).isSome) hbytes.flip item hmem
    rw [h] at hitem
    cases hitem

/-- Where an item is a whole number, the byte that stands for it is that number. -/
def BytesAsWritten (items : List Json) (data : List UInt8) : Prop :=
  List.Forall₂ (fun item b => ∀ n, item = .number (.whole n) → b.toNat = n.toNat) items data

section

variable {env : Env α} {e : Element} {context : Context} {items rest : List Json}

omit [Scalar α] in
theorem imageSource_of_bytes (hhandle : context.keyword? "handle" = none)
    (hchildren : e.children = .array items :: rest) (hitems : items ≠ []) :
    imageSource env e context = (items.mapM imageByte?).elim
      (throw (.unsupportedImageSource e.raw)) fun data => pure (data, .bytes) := by
  obtain ⟨b, bs, rfl⟩ := List.exists_cons_of_ne_nil hitems
  simp only [imageSource, hhandle, hchildren]
  cases (b :: bs).mapM imageByte? <;> rfl

theorem gives_readImage_bytes (hhandle : context.keyword? "handle" = none)
    (hchildren : e.children = .array items :: rest) (hitems : items ≠ []) :
    Gives (fun r => ∃ image, r = .image image ∧ BytesAsWritten items image.data)
      (readImage env e context) := by
  unfold readImage
  rw [imageSource_of_bytes hhandle hchildren hitems]
  cases hdata : items.mapM imageByte? with
  | none => exact keeps_throw trivial
  | some data =>
    have hbytes : BytesAsWritten items data :=
      (forall₂_imageByte? hdata).imp fun _ _ hb n hn => toNat_imageByte? (hn ▸ hb)
    refine Keeps.bind (keeps_pure (Q := (· = (data, .bytes))) rfl) ?_
    rintro _ rfl
    dsimp only
    split
    · exact keeps_throw trivial
    · split
      · exact keeps_throw trivial
      · exact keeps_pure ⟨_, rfl, hbytes⟩

theorem run_readImage_of_le (hhandle : context.keyword? "handle" = none)
    (hchildren : e.children = .array items :: rest) {n : UInt64}
    (hmem : .number (.whole n) ∈ items) (hn : 256 ≤ n.toNat) (s : State α) :
    (readImage env e context).run s = (.error (.unsupportedImageSource e.raw), s) := by
  unfold readImage
  rw [imageSource_of_bytes hhandle hchildren (List.ne_nil_of_mem hmem),
    mapM_imageByte?_of_mem hmem (imageByte?_of_le hn)]
  rfl

end

/-! ## Elements -/

/-- What a whole number of 64 bits comes to in an element that compiles in its own context. -/
theorem compileWithin_wholeNumbers (env : Env α) (steps : Nat) {node : Json} {e : Element}
    (hparse : Element.parse node = .ok e) (context : Context) :
    let own := resolve context env.sheet e.token.classes e.attrs
    let run := compileWithin env (steps + 1) node context
    (e.tag? = some .spacer → ∀ n, e.children.head? = some (.number (.whole n)) →
      Gives (fun r => ∃ leading, r = .spacer (n.toNat % 2 ^ 32) leading) run) ∧
    (e.tag? = some .cell ∨ e.tag? = some .gridCell →
      Gives (fun r => ∃ c, (r = .cell c ∨ r = .gridCell c) ∧ SpansAsWritten own c.style) run) ∧
    (∀ grid styled content inlined, tagOf? (.array [content, .object inlined]) = none →
      Gives (fun c => SpansAsWritten (styled.merge inlined) c.style)
        (headerCell (compileWithin env steps) grid styled (.array [content, .object inlined]))) ∧
    (e.tag? = some .list →
      Gives (fun r => ∃ style items, r = .list style items ∧ GlyphsAsWritten own style.kind) run) ∧
    (e.tag? = some .image → own.keyword? "handle" = none →
      ∀ items rest, e.children = .array items :: rest → items ≠ [] →
        ∀ s, s.cache.find? (.ofNode e.raw own) = none →
          (∀ r after, run.run s = (.ok r, after) →
            ∃ image, r = .image image ∧ BytesAsWritten items image.data) ∧
          ∀ n, .number (.whole n) ∈ items → 256 ≤ n.toNat →
            ∃ after, run.run s = (.error (.unsupportedImageSource e.raw), after)) := by
  intro own run
  have hrun {tag : Tag} (htag : e.tag? = some tag) :
      run = compileTag env (compileWithin env steps) tag e own :=
    compileStep_of_parse env _ hparse htag context
  refine ⟨fun htag n hn => ?_, fun htag => ?_, fun grid styled content inlined htag => ?_,
    fun htag => ?_, fun htag hhandle items rest hchildren hitems s habsent => ?_⟩
  · rw [hrun htag]
    exact gives_spacerNode hn own
  · rcases htag with htag | htag
    · rw [hrun htag]
      exact (gives_compileCell _ false e own).map fun c hc => ⟨c, .inl rfl, hc⟩
    · rw [hrun htag]
      exact (gives_compileCell _ true e own).map fun c hc => ⟨c, .inr rfl, hc⟩
  · exact gives_headerCell _ grid styled htag
  · rw [hrun htag]
    exact gives_compileList _ e own
  · -- the key is new, so the image is read, and a failure to read it is that of the element
    have hmemo : run = memo (.ofNode e.raw own) (readImage env e own) := hrun htag
    rw [hmemo]
    refine ⟨fun r after hok => ?_, fun n hmem hn => ?_⟩
    · rcases hread : (readImage env e own).run { s with cache := s.cache.countMiss } with ⟨out, t⟩
      cases out with
      | error error => rw [run_memo_of_failed habsent hread] at hok; cases hok
      | ok image =>
        rw [run_memo_of_computed (steady_readImage env e own) habsent hread] at hok
        obtain rfl := Except.ok.inj (Prod.mk.inj hok).1
        exact (gives_readImage_bytes hhandle hchildren hitems).of_result hread
    · exact ⟨_, run_memo_of_failed habsent (run_readImage_of_le hhandle hchildren hmem hn _)⟩

def spacerOf (n : UInt64) : Json := .array [.string "spacer", .number (.whole n)]

/-- One line more than 32 bits can count. -/
theorem compileWithin_wholeNumbers_spacer : ∃ e, Element.parse (spacerOf 4294967296) = .ok e ∧
    Gives (fun r => ∃ leading, r = .spacer 0 leading)
      (compileWithin bareEnv 1 (spacerOf 4294967296) .empty) := by
  obtain ⟨e, hparse, htag, hn⟩ : ∃ e, Element.parse (spacerOf 4294967296) = .ok e ∧
      e.tag? = some .spacer ∧ e.children.head? = some (.number (.whole 4294967296)) :=
    ⟨_, rfl, by decide +kernel, rfl⟩
  exact ⟨e, hparse, (compileWithin_wholeNumbers bareEnv 0 hparse .empty).1 htag _ hn⟩

/-- Spacers of 2 ^ 32 lines and of one line more are smaller than a spacer of two lines. -/
theorem compile_spacer_wraps :
    (∃ leading, (compile bareEnv (spacerOf 2) .empty).run .initial =
      (.ok (.spacer 2 leading), .initial)) ∧
    (∃ leading, (compile bareEnv (spacerOf 4294967296) .empty).run .initial =
      (.ok (.spacer 0 leading), .initial)) ∧
    ∃ leading, (compile bareEnv (spacerOf 4294967297) .empty).run .initial =
      (.ok (.spacer 1 leading), .initial) :=
  ⟨⟨_, rfl⟩, ⟨_, rfl⟩, ⟨_, rfl⟩⟩

end Folio.Compile
