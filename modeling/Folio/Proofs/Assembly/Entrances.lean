import Folio.Proofs.Assembly.Builds
import Folio.Proofs.Json.Taken
import Folio.Proofs.Run
import Mathlib.Data.List.Permutation

/-!
# The entrances of a build

A document may come as one value, as metadata with the items behind it, or as a text of forms one
behind the other. Whichever way it comes, it is built alike: the builds are one and the same run, so
they make the same calls of whatever engine there is, end alike and write the same. And it does not
matter whether items stand by themselves or in a group.
-/
namespace Folio

open Style Compile

/-- The forms that reading on finds, up to the end of the text. -/
inductive Json.Forms.Yields : Json.Forms → List Json → Prop
  | done {f g : Json.Forms} (h : f.next = (.finished, g)) : Yields f []
  | value {f g : Json.Forms} {v : Json} {vs : List Json} (h : f.next = (.value v, g))
      (k : Yields g vs) : Yields f (v :: vs)

/-- There is nothing behind the end. -/
theorem Json.Forms.next_of_finished {f g : Json.Forms} (h : f.next = (.finished, g)) :
    g.next = (.finished, g) := by
  unfold Json.Forms.next at h
  split at h
  · next hended =>
    cases h
    exact Json.Forms.next_ended f hended
  · split at h
    · cases h
      rfl
    · split at h
      · cases h
      · split at h <;> cases h

theorem Json.Forms.Yields.length_le {f : Json.Forms} {vs : List Json} (h : f.Yields vs) :
    vs.length ≤ f.rest.length := by
  induction h with
  | done _ => exact Nat.zero_le _
  | value hnext _ ih =>
    have hshorter := Json.Forms.length_next hnext
    rw [List.length_cons]
    omega

namespace Assembly

/-! ## Sources -/

namespace Source

theorem takeAll_cons {source rest : Source} {v : Json} {vs : List Json} {calls : Nat}
    (hnext : source.next = (.item v, rest)) (hrest : takeAll calls rest = (vs, false)) :
    takeAll (calls + 1) source = (v :: vs, false) := by
  simp only [takeAll, hnext, hrest]

theorem takeAll_held (items : List Json) :
    takeAll (items.length + 1) (held items) = (items, false) := by
  induction items with
  | nil => rfl
  | cons v items ih => exact takeAll_cons (next_held_cons v items) ih

theorem drain_held (items : List Json) : (held items).drain = (items, false) := takeAll_held items

/-- As many calls as there are forms, and one more for the end. -/
theorem takeAll_forms {f : Json.Forms} {vs : List Json} (h : f.Yields vs) :
    ∀ {calls : Nat}, vs.length < calls → takeAll calls (forms f) = (vs, false) := by
  induction h with
  | done hnext =>
    intro calls hcalls
    obtain ⟨calls, rfl⟩ := Nat.exists_eq_add_of_lt hcalls
    simp only [takeAll, next, hnext, ofForm]
  | value hnext _ ih =>
    intro calls hcalls
    cases calls with
    | zero => cases hcalls
    | succ calls =>
      refine takeAll_cons ?_ (ih (Nat.lt_of_succ_lt_succ hcalls))
      simp only [next, hnext, ofForm]

theorem drain_forms {f : Json.Forms} {vs : List Json} (h : f.Yields vs) :
    (forms f).drain = (vs, false) := by
  have hle := h.length_le
  refine takeAll_forms h ?_
  simp only [bound]
  omega

theorem drain_prepended {f : Json.Forms} {vs : List Json} (h : f.Yields vs) (v : Json) :
    (prepended v f).drain = (v :: vs, false) := by
  have hle := h.length_le
  have hnext : (prepended v f).next = (.item v, forms f) := rfl
  exact takeAll_cons hnext (takeAll_forms h (by omega))

end Source

/-! ## Groups -/

variable {σ : Type}

/-- An array that begins with an array stands for its members. -/
def IsGroup (item : Json) : Prop := ∃ first rest, item = .array (.array first :: rest)

theorem membersOf_of_not_group {item : Json} (h : ¬IsGroup item) : membersOf item = [item] := by
  unfold membersOf
  split
  · next first rest => exact absurd ⟨first, rest, rfl⟩ h
  · rfl

theorem flatMap_membersOf {items : List Json} (h : ∀ item ∈ items, ¬IsGroup item) :
    items.flatMap membersOf = items := by
  induction items with
  | nil => rfl
  | cons item items ih =>
    have hrest := ih fun other hother => h other (List.mem_cons_of_mem item hother)
    rw [List.flatMap_cons, hrest, membersOf_of_not_group (h item List.mem_cons_self)]
    rfl

/-- A group may be opened in place as long as there is no group in it. -/
theorem flatMap_membersOf_group {members : List Json} (hgroup : IsGroup (.array members))
    (hmembers : ∀ m ∈ members, ¬IsGroup m) (before after : List Json) :
    (before ++ members ++ after).flatMap membersOf =
      (before ++ .array members :: after).flatMap membersOf := by
  obtain ⟨first, rest, hfirst⟩ := hgroup
  obtain rfl := Json.array.inj hfirst
  rw [List.flatMap_append, List.flatMap_append, flatMap_membersOf hmembers, List.flatMap_append,
    List.flatMap_cons, List.append_assoc]
  rfl

theorem appendEach_append (s : Setting σ) (items more : List Json) :
    appendEach s (items ++ more) = (appendEach s items >>= fun _ => appendEach s more) := by
  induction items with
  | nil => exact (pure_bind () fun _ => appendEach s more).symm
  | cons item items ih => simp only [List.cons_append, appendEach, ih, bind_assoc]

/-- Groups are opened one level deep, and then all is appended in order. -/
theorem appendAll_eq (s : Setting σ) (items : List Json) :
    appendAll s items = appendEach s (items.flatMap membersOf) := by
  induction items with
  | nil => rfl
  | cons item items ih => rw [appendAll, ih, List.flatMap_cons, appendEach_append]

namespace Assembler

variable (a : Assembler σ)

/-! ## Builds -/

/-- A build sees of its source the items, groups opened, and whether there is a fault in it. -/
theorem run_congr (config : DocumentConfig) {source other : Source}
    (hitems : source.drain.1.flatMap membersOf = other.drain.1.flatMap membersOf)
    (hfault : source.drain.2 = other.drain.2) : a.run config source = a.run config other := by
  have hassemble (strategy : OutputStrategy) :
      a.assemble config strategy source = a.assemble config strategy other := by
    unfold assemble
    simp only [appendAll_eq _ source.drain.1, appendAll_eq _ other.drain.1, hitems, hfault]
  unfold run
  simp only [hassemble]

theorem run_of_drain (config : DocumentConfig) {source : Source} {items : List Json}
    (h : source.drain = (items, false)) : a.run config source = a.run config (.held items) :=
  a.run_congr config (by rw [h, Source.drain_held]) (by rw [h, Source.drain_held])

theorem run_group (config : DocumentConfig) {members : List Json}
    (hgroup : IsGroup (.array members)) (hmembers : ∀ m ∈ members, ¬IsGroup m)
    (before after : List Json) : a.run config (.held (before ++ members ++ after)) =
      a.run config (.held (before ++ .array members :: after)) := by
  refine a.run_congr config ?_ ?_
  · simp only [Source.drain_held]
    exact flatMap_membersOf_group hgroup hmembers before after
  · simp only [Source.drain_held]

/-- Without metadata in front all of the document is items. -/
theorem build_of_plain {items : List Json} (h : ∀ fs rest, items ≠ .object fs :: rest) :
    a.build (.array items) = a.run .standard (.held items) := by
  unfold build
  split
  · next fs rest heq => exact absurd (Json.array.inj heq) (h fs rest)
  · next heq =>
    obtain rfl := Json.array.inj heq
    rfl
  · next hshape => exact absurd rfl (hshape items)

theorem build_object (fs : List (String × Json)) (items : List Json) :
    a.build (.array (.object fs :: items)) =
      (ofExcept (DocumentConfig.read (.object fs)) >>= fun config => a.run config (.held items)) :=
  rfl

/-- What comes behind the first form decides alike, however the first form decides. -/
theorem build_of_forms {first : Json} {items others : List Json}
    (hplain : a.run .standard (.held (first :: items)) = a.run .standard (.held (first :: others)))
    (hrest : ∀ config, a.run config (.held items) = a.run config (.held others)) :
    a.build (.array (first :: items)) = a.build (.array (first :: others)) := by
  by_cases hfirst : ∃ fs, first = .object fs
  · obtain ⟨fs, rfl⟩ := hfirst
    simp only [build_object, hrest]
  · have hno (forms : List Json) : ∀ fs rest, first :: forms ≠ .object fs :: rest :=
      fun fs _ heq => hfirst ⟨fs, (List.cons.inj heq).1⟩
    rw [a.build_of_plain (hno items), a.build_of_plain (hno others), hplain]

theorem buildFromText_eq {text : String} {forms : List Json}
    (h : (Json.Forms.ofText text).Yields forms) :
    a.buildFromText text = a.build (.array forms) := by
  unfold buildFromText
  cases h with
  | done hnext =>
    simp only [hnext]
    rw [a.build_of_plain fun _ _ heq => by cases heq]
    exact a.run_of_drain .standard (Source.drain_forms (.done (Json.Forms.next_of_finished hnext)))
  | @value _ rest first items hnext hrest =>
    have hitems (config : DocumentConfig) := a.run_of_drain config (Source.drain_forms hrest)
    have hplain := a.run_of_drain .standard (Source.drain_prepended hrest first)
    simp only [hnext]
    split
    · next fs heq =>
      cases heq
      simp only [hitems, build_object]
    · next first' hobject heq =>
      cases heq
      rw [hplain, a.build_of_plain fun fs _ heq => hobject fs (List.cons.inj heq).1]
    · next heq => cases heq
    · next heq => cases heq

theorem build_group {members : List Json} (hgroup : IsGroup (.array members))
    (hmembers : ∀ m ∈ members, ¬IsGroup m) (before after : List Json) :
    a.build (.array (before ++ members ++ after)) =
      a.build (.array (before ++ .array members :: after)) := by
  have hrun (config : DocumentConfig) := a.run_group config hgroup hmembers
  cases before with
  | nil =>
    obtain ⟨first, rest, hfirst⟩ := hgroup
    obtain rfl := Json.array.inj hfirst
    have hplain (head tail : List Json) : ∀ fs items,
        .array head :: tail ≠ Json.object fs :: items := fun _ _ heq => by cases heq
    calc a.build (.array (.array first :: (rest ++ after)))
        = a.run .standard (.held (.array first :: (rest ++ after))) := a.build_of_plain (hplain _ _)
      _ = a.run .standard (.held (.array (.array first :: rest) :: after)) :=
          hrun .standard [] after
      _ = a.build (.array (.array (.array first :: rest) :: after)) :=
          (a.build_of_plain (hplain _ _)).symm
  | cons item before =>
    exact a.build_of_forms (hrun .standard (item :: before) after) fun config =>
      hrun config before after

/-- Whichever way a document comes in, its build is the same run: of an array of forms, of a text
that they are read from, and of the metadata and the items by themselves. A group of items may be
replaced by its members, wherever it stands and whichever way it comes in. -/
theorem build_entrances (forms : List Json) :
    (∀ text, (Json.Forms.ofText text).Yields forms →
      a.buildFromText text = a.build (.array forms)) ∧
    (∀ first items config, forms = first :: items → DocumentConfig.read first = .ok config →
      a.buildItems config items = a.build (.array forms)) ∧
    ∀ before members after, forms = before ++ .array members :: after →
      IsGroup (.array members) → (∀ m ∈ members, ¬IsGroup m) →
      a.build (.array (before ++ members ++ after)) = a.build (.array forms) ∧
        (∀ config, a.buildItems config (before ++ members ++ after) = a.buildItems config forms) ∧
        ∀ text flat, (Json.Forms.ofText text).Yields forms →
          (Json.Forms.ofText flat).Yields (before ++ members ++ after) →
          a.buildFromText flat = a.buildFromText text := by
  refine ⟨fun text h => a.buildFromText_eq h, ?_, ?_⟩
  · rintro first items config rfl hread
    cases first with
    | object fs =>
      unfold build buildItems
      simp only [hread]
      rfl
    | _ => cases hread
  · rintro before members after rfl hgroup hmembers
    have hbuild := a.build_group hgroup hmembers before after
    refine ⟨hbuild, fun config => a.run_group config hgroup hmembers before after,
      fun text flat htext hflat => ?_⟩
    rw [a.buildFromText_eq htext, a.buildFromText_eq hflat, hbuild]

/-- A letter, whose lines may stand in a group or not. -/
theorem build_entrances_letter : ∃ config,
    bundled.buildFromText "\x7b\"title\": \"A\"\x7d [[\"line\"], \"B\"] \"C\"" =
        bundled.buildItems config [.array [.array [.string "line"], .string "B"], .string "C"] ∧
      bundled.buildFromText "\x7b\"title\": \"A\"\x7d [\"line\"] \"B\" \"C\"" =
        bundled.buildFromText "\x7b\"title\": \"A\"\x7d [[\"line\"], \"B\"] \"C\"" := by
  obtain ⟨config, hread⟩ : ∃ config,
      DocumentConfig.read (.object [("title", .string "A")]) = .ok config := ⟨_, rfl⟩
  have htext : (Json.Forms.ofText "\x7b\"title\": \"A\"\x7d [[\"line\"], \"B\"] \"C\"").Yields
      [.object [("title", .string "A")], .array [.array [.string "line"], .string "B"],
        .string "C"] :=
    .value (by cbv) (.value (by cbv) (.value (by cbv) (.done (by cbv))))
  have hflat : (Json.Forms.ofText "\x7b\"title\": \"A\"\x7d [\"line\"] \"B\" \"C\"").Yields
      ([.object [("title", .string "A")]] ++ [.array [.string "line"], .string "B"] ++
        [.string "C"]) :=
    .value (by cbv) (.value (by cbv) (.value (by cbv) (.value (by cbv) (.done (by cbv)))))
  have hmembers : ∀ m ∈ [Json.array [.string "line"], .string "B"], ¬IsGroup m := by
    rintro m hm ⟨first, rest, rfl⟩
    simp at hm
  obtain ⟨hbuild, hitems, hgroup⟩ := bundled.build_entrances
    [.object [("title", .string "A")], .array [.array [.string "line"], .string "B"], .string "C"]
  obtain ⟨-, -, hopen⟩ := hgroup [.object [("title", .string "A")]] _ [.string "C"] rfl
    ⟨_, _, rfl⟩ hmembers
  exact ⟨config, (hbuild _ htext).trans (hitems _ _ config rfl hread).symm, hopen _ _ htext hflat⟩

end Assembler

end Assembly

end Folio
