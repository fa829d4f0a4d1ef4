import Folio.Proofs.Pdf.Displayed
import Mathlib.Data.List.Nodup

/-!
# Written documents

The document made of the finished pages displays them: the page tree holds one entry for each page,
in order, and the contents of each are the encoded operations that were drawn on it. The fonts and
the images of a page can be found by the names that its operations use.
-/
namespace Folio.Flow

open Style Pdf Document

variable {α : Type}

/-! ## Documents on the way -/

/-- Objects have different numbers, and none above those that were given out. -/
structure Numbered (doc : Document α) : Prop where
  distinct : (doc.objects.map (·.1)).Nodup
  below : ∀ number o, doc.find? number = some o → number ≤ doc.maxId

theorem mem_numbers_put {number other : Nat} {o : Obj α} {objects : List (Nat × Obj α)}
    (h : other ∈ (Document.put number o objects).map (·.1)) :
    other = number ∨ other ∈ objects.map (·.1) := by
  induction objects with
  | nil => simpa [Document.put] using h
  | cons entry rest ih =>
    obtain ⟨n, p⟩ := entry
    by_cases hn : n = number
    · exact .inr (by simpa [Document.put, hn] using h)
    · simp only [Document.put, beq_iff_eq, hn, ↓reduceIte, List.map_cons, List.mem_cons] at h ⊢
      rcases h with rfl | h
      · exact .inr (.inl rfl)
      · exact (ih h).imp_right .inr

theorem nodup_put {objects : List (Nat × Obj α)} (h : (objects.map (·.1)).Nodup) (number : Nat)
    (o : Obj α) : ((Document.put number o objects).map (·.1)).Nodup := by
  induction objects with
  | nil => simp [Document.put]
  | cons entry rest ih =>
    obtain ⟨n, p⟩ := entry
    rw [List.map_cons, List.nodup_cons] at h
    by_cases hn : n = number
    · subst hn
      simpa only [Document.put, beq_self_eq_true, ↓reduceIte, List.map_cons, List.nodup_cons]
        using h
    · simp only [Document.put, beq_iff_eq, hn, ↓reduceIte, List.map_cons, List.nodup_cons]
      refine ⟨fun hmem => ?_, ih h.2⟩
      rcases mem_numbers_put hmem with heq | hmem
      · exact hn heq
      · exact h.1 hmem

/-- `next` has grown out of `doc`: no object that was there has changed, but for some numbers. -/
structure Grown (changed : List Nat) (doc next : Document α) : Prop where
  numbered : Numbered doc → Numbered next
  maxId : doc.maxId ≤ next.maxId
  same : ∀ number ≤ doc.maxId, number ∉ changed → next.find? number = doc.find? number

theorem Grown.refl (doc : Document α) : Grown [] doc doc := ⟨id, Nat.le_refl _, fun _ _ _ => rfl⟩

theorem Grown.trans {first second : List Nat} {a b c : Document α} (h : Grown first a b)
    (k : Grown second b c) : Grown (first ++ second) a c where
  numbered := k.numbered ∘ h.numbered
  maxId := Nat.le_trans h.maxId k.maxId
  same number hle hnot := by
    rw [List.mem_append, not_or] at hnot
    exact (k.same number (Nat.le_trans hle h.maxId) hnot.2).trans (h.same number hle hnot.1)

/-- What is found stays. -/
theorem Grown.find? {changed : List Nat} {doc next : Document α} (h : Grown changed doc next)
    (hdoc : Numbered doc) {number : Nat} {o : Obj α} (hfind : doc.find? number = some o)
    (hnumber : number ∉ changed) : next.find? number = some o :=
  (h.same number (hdoc.below number o hfind) hnumber).trans hfind

theorem numbered_set {doc : Document α} (h : Numbered doc) {number : Nat}
    (hnumber : number ≤ doc.maxId) (o : Obj α) : Numbered (doc.set number o) where
  distinct := nodup_put h.distinct number o
  below other p hother := by
    by_cases heq : other = number
    · exact heq ▸ hnumber
    · exact h.below other p ((find?_set_of_ne heq doc o).symm.trans hother)

theorem grown_set {doc : Document α} {number : Nat} (hnumber : number ≤ doc.maxId) (o : Obj α) :
    Grown [number] doc (doc.set number o) where
  numbered h := numbered_set h hnumber o
  maxId := Nat.le_refl _
  same other _ hother := find?_set_of_ne (by simpa using hother) doc o

/-- Numbers that are given out without objects. -/
theorem grown_reserve (doc : Document α) {maxId : Nat} (h : doc.maxId ≤ maxId) :
    Grown [] doc { doc with maxId } :=
  ⟨fun hdoc => ⟨hdoc.distinct, fun number o hfind => Nat.le_trans (hdoc.below number o hfind) h⟩,
    h, fun _ _ _ => rfl⟩

/-- What stands at the end of a file is no object. -/
theorem grown_trailer (doc : Document α) (root : Nat) (info : Option Nat) :
    Grown [] doc { doc with root, info } :=
  ⟨fun hdoc => ⟨hdoc.distinct, hdoc.below⟩, Nat.le_refl _, fun _ _ _ => rfl⟩

theorem grown_add (doc : Document α) (o : Obj α) : Grown [] doc (doc.add o).2 where
  numbered h := numbered_set (grown_reserve doc (Nat.le_succ doc.maxId) |>.numbered h)
    (Nat.le_refl _) o
  maxId := Nat.le_succ doc.maxId
  same _ hle _ := find?_add_of_le doc hle o

/-- Every run of `act` adds objects and changes none. -/
def Adds {β : Type} (act : DocumentM α β) : Prop := ∀ doc, Grown [] doc (act.run doc).2

theorem adds_pure {β : Type} (b : β) : Adds (pure b : DocumentM α β) := .refl

theorem adds_addEntry (o : Obj α) : Adds (addEntry o) := fun doc => grown_add doc o

theorem adds_bind {β γ : Type} {act : DocumentM α β} {next : β → DocumentM α γ} (h : Adds act)
    (hnext : ∀ b, Adds (next b)) : Adds (act >>= next) := fun doc => (h doc).trans (hnext _ _)

theorem adds_addFonts (d : Dict α) (names : List String) : Adds (addFonts d names) := by
  induction names generalizing d with
  | nil => exact adds_pure d
  | cons name names ih => exact adds_bind (adds_addEntry _) fun _ => ih _

theorem adds_addImages (index : Nat) (images : List EmbeddedImage) :
    Adds (addImages index images : DocumentM α (Dict α)) := by
  induction images generalizing index with
  | nil => exact adds_pure []
  | cons image images ih =>
    exact adds_bind (adds_addEntry _) fun _ => adds_bind (ih _) fun _ => adds_pure _

theorem adds_addAll (ds : List (Dict α)) : Adds (addAll ds) := by
  induction ds with
  | nil => exact adds_pure []
  | cons d ds ih => exact adds_bind (adds_addEntry _) fun _ => adds_bind ih fun _ => adds_pure _

variable [Scalar α]

theorem adds_pageEntry (setting : PageSetting α) (page : Canvas α) :
    Adds (pageEntry setting page) :=
  adds_bind (adds_addEntry _) fun _ => adds_bind (adds_addImages _ _) fun _ =>
    adds_bind (adds_addAll _) fun _ => adds_bind (adds_addAll _) fun _ => adds_pure _

/-! ## The entry of a page -/

/-- The dictionary of a page. -/
def pageDict (setting : PageSetting α) (content : Nat) (images : Dict α) (marks : List (Obj α)) :
    Dict α :=
  Dict.ofList ([("Type", Obj.nameOf "Page"), ("Parent", .reference setting.tree),
    ("MediaBox", .array (reals [0, 0, setting.width, setting.height])),
    ("Contents", .reference content),
    ("Resources", .dictionary (pageResources setting.fonts images))]
    ++ if marks.isEmpty then [] else [("Annots", .array marks)])

/-- Nothing but references to objects. -/
def References (os : List (Obj α)) : Prop := ∀ o ∈ os, ∃ number, o = .reference number

omit [Scalar α] in
theorem references_addImages (index : Nat) (images : List EmbeddedImage) (doc : Document α) :
    References (((addImages index images).run doc).1.map (·.2)) := by
  induction images generalizing index doc with
  | nil => exact fun o ho => by cases ho
  | cons image images ih =>
    intro o ho
    rcases List.mem_cons.mp ho with rfl | ho
    · exact ⟨_, rfl⟩
    · exact ih _ _ o ho

omit [Scalar α] in
theorem references_addAll (ds : List (Dict α)) (doc : Document α) :
    References ((addAll ds).run doc).1 := by
  induction ds generalizing doc with
  | nil => exact fun o ho => by cases ho
  | cons d ds ih =>
    intro o ho
    rcases List.mem_cons.mp ho with rfl | ho
    · exact ⟨_, rfl⟩
    · exact ih _ o ho

/-- Each image stands under the name that it has on its page and is found by a number above
`floor`. -/
def Illustrates (floor : Nat) (doc : Document α) (entries : Dict α) (images : List EmbeddedImage) :
    Prop :=
  ∀ i (h : i < images.length), ∃ number, floor < number ∧
    valueUnder (Canvas.imageName (i + 1)) entries = some (.reference number) ∧
      doc.find? number = some (imageObject images[i])

omit [Scalar α] in
theorem imageName_inj {i j : Nat} : Canvas.imageName i = Canvas.imageName j ↔ i = j := by
  refine ⟨fun h => ?_, congrArg _⟩
  have hrepr : Nat.repr i = Nat.repr j := (String.append_right_inj "Im").mp h
  have hdigits : Nat.toDigits 10 i = Nat.toDigits 10 j := String.ofList_injective hrepr
  simpa using congrArg (Nat.ofDigitChars 10 · 0) hdigits

omit [Scalar α] in
theorem valueUnder_cons (key other : String) (value : Obj α) (d : Dict α) :
    valueUnder other ((bytesOf key, value) :: d) =
      if key = other then some value else valueUnder other d := by
  unfold valueUnder Dict.get?
  by_cases hkey : key = other
  · simp [hkey]
  · simp [hkey, bytesOf_inj]

omit [Scalar α] in
theorem run_addImages (images : List EmbeddedImage) : ∀ (first : Nat) (doc : Document α) (i : Nat)
    (h : i < images.length), ∃ number, doc.maxId < number ∧
      valueUnder (Canvas.imageName (first + i)) ((addImages first images).run doc).1 =
        some (.reference number) ∧
      ((addImages first images).run doc).2.find? number = some (imageObject images[i]) := by
  induction images with
  | nil => exact fun _ _ _ h => absurd h (Nat.not_lt_zero _)
  | cons image images ih =>
    intro first doc i h
    have hrun : ((addImages first (image :: images)).run doc).1 =
        (bytesOf (Canvas.imageName first), .reference (doc.maxId + 1)) ::
          ((addImages (first + 1) images).run (doc.add (imageObject image)).2).1 := rfl
    rw [hrun, valueUnder_cons]
    cases i with
    | zero =>
      refine ⟨doc.maxId + 1, Nat.lt_succ_self _, if_pos rfl, ?_⟩
      exact ((adds_addImages (first + 1) images (doc.add (imageObject image)).2).same _
        (Nat.le_refl _) (by simp)).trans (find?_set_self ..)
    | succ i =>
      obtain ⟨number, hlt, hvalue, hfind⟩ := ih (first + 1) (doc.add (imageObject image)).2 i
        (Nat.lt_of_succ_lt_succ h)
      refine ⟨number, Nat.lt_of_succ_lt hlt, ?_, hfind⟩
      rw [if_neg (by rw [imageName_inj]; omega), ← hvalue, Nat.add_right_comm, Nat.add_assoc]

omit [Scalar α] in
theorem Illustrates.mono {floor lower : Nat} {doc : Document α} {entries : Dict α}
    {images : List EmbeddedImage} (h : Illustrates floor doc entries images) (hle : lower ≤ floor) :
    Illustrates lower doc entries images := by
  intro i hi
  obtain ⟨number, hfloor, hfound⟩ := h i hi
  exact ⟨number, Nat.lt_of_le_of_lt hle hfloor, hfound⟩

omit [Scalar α] in
theorem Illustrates.grown {floor : Nat} {changed : List Nat} {doc next : Document α}
    {entries : Dict α} {images : List EmbeddedImage} (h : Illustrates floor doc entries images)
    (hgrown : Grown changed doc next) (hdoc : Numbered doc)
    (hchanged : ∀ n ∈ changed, n ≤ floor ∨ doc.find? n = some .null) :
    Illustrates floor next entries images := by
  intro i hi
  obtain ⟨number, hfloor, hvalue, hfind⟩ := h i hi
  refine ⟨number, hfloor, hvalue, hgrown.find? hdoc hfind fun hmem => ?_⟩
  rcases hchanged number hmem with hle | hnull
  · omega
  · simp [hnull, imageObject] at hfind

theorem run_pageEntry (setting : PageSetting α) (page : Canvas α) {doc : Document α}
    (hdoc : Numbered doc) :
    ∃ images marks, References (images.map (·.2)) ∧ References marks ∧
      ((pageEntry setting page).run doc).1 = pageDict setting (doc.maxId + 1) images marks ∧
      ((pageEntry setting page).run doc).2.find? (doc.maxId + 1) =
        some (.stream [] (setting.encode page.operations)) ∧
      Illustrates doc.maxId ((pageEntry setting page).run doc).2 images page.images := by
  let content : Obj α := .stream [] (setting.encode page.operations)
  let images := (addImages 1 page.images).run (doc.add content).2
  let links := (addAll (page.links.filterMap
    (linkEntry setting.pages setting.destinations))).run images.2
  let notes := (addAll (page.notes.map noteEntry)).run links.2
  have hgrown : Grown [] (doc.add content).2 notes.2 :=
    ((adds_addImages 1 page.images (doc.add content).2).trans (adds_addAll _ images.2)).trans
      (adds_addAll _ links.2)
  have hcontent : notes.2.find? (doc.maxId + 1) = some content :=
    (hgrown.same _ (Nat.le_refl _) (by simp)).trans (find?_set_self ..)
  refine ⟨images.1, links.1 ++ notes.1, references_addImages 1 _ _, fun o ho => ?_, rfl, hcontent,
    fun i hi => ?_⟩
  · rcases List.mem_append.mp ho with ho | ho
    · exact references_addAll _ _ o ho
    · exact references_addAll _ _ o ho
  · obtain ⟨number, hlt, hvalue, hfind⟩ := run_addImages page.images 1 (doc.add content).2 i hi
    have himages : Numbered images.2 :=
      (adds_addImages 1 page.images _).numbered ((grown_add doc content).numbered hdoc)
    have hmarks : Grown [] images.2 notes.2 :=
      (adds_addAll _ images.2).trans (adds_addAll _ links.2)
    refine ⟨number, Nat.lt_of_succ_lt hlt, ?_, hmarks.find? himages hfind (by simp)⟩
    rw [Nat.add_comm i 1]
    exact hvalue

theorem isPage_pageDict {doc : Document α} {setting : PageSetting α} {content : Nat}
    {images : Dict α} {marks : List (Obj α)} {entries : Dict α} {bytes : Bytes}
    (h : doc.find? content = some (.stream entries bytes)) :
    IsPage doc (pageDict setting content images marks) [bytes] where
  type := by simp [pageDict, valueUnder_ofList]
  contents := by
    have hcontents : valueUnder "Contents" (pageDict setting content images marks) =
        some (.reference content) := by simp [pageDict, valueUnder_ofList]
    rw [hcontents]
    exact .cons ⟨content, 0, entries, rfl, h⟩ .nil

/-! ## All pages -/

/-- The dictionary of a page stands under its number, and its content is there. -/
def Entered (setting : PageSetting α) (doc : Document α) (number : Nat) (page : Canvas α) : Prop :=
  ∃ content images marks,
    doc.find? number = some (.dictionary (pageDict setting content images marks)) ∧
    References (images.map (·.2)) ∧ References marks ∧
    doc.find? content = some (.stream [] (setting.encode page.operations))

/-- A page is entered with its images. -/
def Equipped (setting : PageSetting α) (doc : Document α) (number : Nat) (page : Canvas α) : Prop :=
  ∃ content images marks,
    doc.find? number = some (.dictionary (pageDict setting content images marks)) ∧
    References (images.map (·.2)) ∧ References marks ∧
    doc.find? content = some (.stream [] (setting.encode page.operations)) ∧
    Illustrates 0 doc images page.images

theorem Equipped.entered {setting : PageSetting α} {doc : Document α} {number : Nat}
    {page : Canvas α} (h : Equipped setting doc number page) : Entered setting doc number page := by
  obtain ⟨content, images, marks, hfind, himages, hmarks, hcontent, -⟩ := h
  exact ⟨content, images, marks, hfind, himages, hmarks, hcontent⟩

theorem run_addPages (setting : PageSetting α) (pages : List (Nat × Canvas α)) :
    ∀ {doc : Document α}, Numbered doc → (∀ p ∈ pages, p.1 ≤ doc.maxId) →
      (pages.map (·.1)).Nodup →
      Grown (pages.map (·.1)) doc ((addPages setting pages).run doc).2 ∧
        ∀ p ∈ pages, Equipped setting ((addPages setting pages).run doc).2 p.1 p.2 := by
  induction pages with
  | nil => exact fun _ _ _ => ⟨.refl _, fun p hp => by cases hp⟩
  | cons entry rest ih =>
    obtain ⟨number, page⟩ := entry
    intro doc hdoc hreserved hdistinct
    rw [List.map_cons, List.nodup_cons] at hdistinct
    obtain ⟨images, marks, himages, hmarks, hentry, hcontent, hillustrates⟩ :=
      run_pageEntry setting page hdoc
    have hadds := adds_pageEntry setting page doc
    have hreserve : ∀ p ∈ rest, p.1 ≤ doc.maxId := fun p hp =>
      hreserved p (List.mem_cons_of_mem _ hp)
    have hnumber : number ≤ doc.maxId := hreserved _ List.mem_cons_self
    let entered := ((pageEntry setting page).run doc).2.set number
      (.dictionary ((pageEntry setting page).run doc).1)
    have hentered : Grown ([] ++ [number]) doc entered :=
      hadds.trans (grown_set (Nat.le_trans hnumber hadds.maxId) _)
    obtain ⟨hrest, hpages⟩ := ih (hentered.numbered hdoc)
      (fun p hp => Nat.le_trans (hreserve p hp) hentered.maxId) hdistinct.2
    have hpassed : ∀ n ∈ rest.map (·.1), n ≤ doc.maxId := by
      intro n hn
      obtain ⟨p, hp, rfl⟩ := List.mem_map.mp hn
      exact hreserve p hp
    refine ⟨hentered.trans hrest, fun p hp => ?_⟩
    rcases List.mem_cons.mp hp with rfl | hp
    · refine ⟨doc.maxId + 1, images, marks, ?_, himages, hmarks, ?_, ?_⟩
      · refine hrest.find? (hentered.numbered hdoc) ?_ hdistinct.1
        rw [← hentry]
        exact find?_set_self ..
      · refine hrest.find? (hentered.numbered hdoc) ?_ fun hmem => ?_
        · exact (find?_set_of_ne (by omega) _ _).trans hcontent
        · have hlast := hpassed _ hmem
          omega
      · have hset : Illustrates doc.maxId entered images page.images :=
          hillustrates.grown (grown_set (Nat.le_trans hnumber hadds.maxId) _) (hadds.numbered hdoc)
            fun n hn => .inl (List.mem_singleton.mp hn ▸ hnumber)
        exact (hset.grown hrest (hentered.numbered hdoc) fun n hn => .inl (hpassed n hn)).mono
          (Nat.zero_le _)
    · exact hpages p hp

theorem Equipped.grown {setting : PageSetting α} {doc next : Document α} {number : Nat}
    {page : Canvas α} {changed : List Nat} (h : Equipped setting doc number page)
    (hgrown : Grown changed doc next) (hdoc : Numbered doc)
    (hnull : ∀ n ∈ changed, doc.find? n = some .null) : Equipped setting next number page := by
  obtain ⟨content, images, marks, hfind, himages, hmarks, hcontent, hillustrates⟩ := h
  refine ⟨content, images, marks, hgrown.find? hdoc hfind fun hmem => ?_, himages, hmarks,
    hgrown.find? hdoc hcontent fun hmem => ?_,
    hillustrates.grown hgrown hdoc fun n hn => .inr (hnull n hn)⟩
  · simp [hnull number hmem] at hfind
  · simp [hnull content hmem] at hcontent

/-! ## Fonts -/

/-- The font that a resource name stands for: the last one of that name. -/
def lastNamed (name : String) (fonts : List String) : Option String :=
  (fonts.filter (fontResourceName · == name)).getLast?

theorem lastNamed_cons (name font : String) (fonts : List String) : lastNamed name (font :: fonts) =
    (lastNamed name fonts).or (if fontResourceName font = name then some font else none) := by
  unfold lastNamed
  by_cases hfont : fontResourceName font = name
  · simp [hfont, List.getLast?_cons]
  · simp [hfont]

theorem mem_of_lastNamed {name base : String} {fonts : List String}
    (h : lastNamed name fonts = some base) : base ∈ fonts ∧ fontResourceName base = name := by
  simpa using List.mem_filter.mp (List.mem_of_getLast? h)

/-- Under the resource name of each font stands the font that it stands for. -/
def Provides (doc : Document α) (entries : Dict α) (fonts : List String) : Prop :=
  ∀ font ∈ fonts, ∃ base number, lastNamed (fontResourceName font) fonts = some base ∧
    valueUnder (fontResourceName font) entries = some (.reference number) ∧
      doc.find? number = some (fontObject base)

omit [Scalar α] in
theorem addFonts_other {key : String} (fonts : List String)
    (h : ∀ font ∈ fonts, fontResourceName font ≠ key) : ∀ (entries : Dict α) (doc : Document α),
      valueUnder key ((addFonts entries fonts).run doc).1 = valueUnder key entries := by
  induction fonts with
  | nil => exact fun _ _ => rfl
  | cons font fonts ih =>
    intro entries doc
    refine (ih (fun f hf => h f (List.mem_cons_of_mem _ hf)) _ _).trans ?_
    exact Dict.get?_set_of_ne (fun heq => h font List.mem_cons_self (bytesOf_inj.mp heq).symm) _ _

omit [Scalar α] in
theorem addFonts_provides (fonts : List String) : ∀ (entries : Dict α) (doc : Document α),
    Provides ((addFonts entries fonts).run doc).2 ((addFonts entries fonts).run doc).1 fonts := by
  induction fonts with
  | nil => exact fun _ _ => nofun
  | cons font fonts ih =>
    intro entries doc name hname
    let added := (doc.add (fontObject font)).2
    let entered := Dict.set (bytesOf (fontResourceName font)) (.reference (doc.maxId + 1)) entries
    cases hlater : lastNamed (fontResourceName name) fonts with
    | some base =>
      -- a later font of that resource name takes the place
      obtain ⟨hbase, heq⟩ := mem_of_lastNamed hlater
      obtain ⟨last, number, hlast, hvalue, hfind⟩ := ih entered added base hbase
      rw [heq] at hlast hvalue
      exact ⟨last, number, by rw [lastNamed_cons, hlast]; rfl, hvalue, hfind⟩
    | none =>
      have hnone : ∀ other ∈ fonts, fontResourceName other ≠ fontResourceName name := by
        simpa [lastNamed] using hlater
      obtain rfl : name = font := by
        rcases List.mem_cons.mp hname with rfl | hname
        · rfl
        · exact absurd rfl (hnone name hname)
      refine ⟨name, doc.maxId + 1, by simp [lastNamed_cons, hlater], ?_, ?_⟩
      · exact (addFonts_other fonts hnone entered added).trans (Dict.get?_set_self ..)
      · exact ((adds_addFonts entered fonts added).same _ (Nat.le_refl _) (by simp)).trans
          (find?_set_self ..)

omit [Scalar α] in
theorem Provides.grown {changed : List Nat} {doc next : Document α} {entries : Dict α}
    {fonts : List String} (h : Provides doc entries fonts) (hgrown : Grown changed doc next)
    (hdoc : Numbered doc) (hnull : ∀ n ∈ changed, ∀ o, doc.find? n = some o → o = .null) :
    Provides next entries fonts := by
  intro font hfont
  obtain ⟨base, number, hbase, hvalue, hfind⟩ := h font hfont
  refine ⟨base, number, hbase, hvalue, hgrown.find? hdoc hfind fun hmem => ?_⟩
  have hfont := hnull number hmem _ hfind
  simp [fontObject] at hfont

/-! ## The document -/

/-- A document with the entries of the pages and the tree above them, and the catalogue. -/
structure WrittenAs (setting : PageSetting α) (pages : List (Canvas α)) (doc : Document α) :
    Prop where
  numbered : Numbered doc
  distinct : setting.pages.Nodup
  length : setting.pages.length = pages.length
  root : doc.find? doc.root = some (.dictionary (Dict.ofList
    [("Type", Obj.nameOf "Catalog"), ("Pages", .reference setting.tree)]))
  tree : doc.find? setting.tree = some (.dictionary (pageTree setting.pages))
  entered : ∀ p ∈ setting.pages.zip pages, Entered setting doc p.1 p.2

/-- The setting of the pages of a layout. -/
structure SettingOf (encode : List (Operation α) → Bytes) (g : Geometry α)
    (setting : PageSetting α) : Prop where
  encode : setting.encode = encode
  width : setting.width = g.width
  height : setting.height = g.height

/-- A written document with its fonts and with the images of its pages. -/
structure Furnished (setting : PageSetting α) (pages : List (Canvas α)) (doc : Document α) :
    Prop where
  written : WrittenAs setting pages doc
  fonts : ∃ entries, doc.find? setting.fonts = some (.dictionary entries) ∧
    Provides doc entries (fontNames pages)
  equipped : ∀ p ∈ setting.pages.zip pages, Equipped setting doc p.1 p.2

theorem mem_pageNumbers {first count n : Nat} :
    n ∈ pageNumbers first count ↔ first ≤ n ∧ n < first + count := by
  simp only [pageNumbers, List.mem_map, List.mem_range]
  constructor
  · rintro ⟨i, hi, rfl⟩
    omega
  · exact fun ⟨hfirst, hlast⟩ => ⟨n - first, by omega, by omega⟩

theorem nodup_pageNumbers (first count : Nat) : (pageNumbers first count).Nodup :=
  List.Nodup.map (fun _ _ h => Nat.add_left_cancel h) List.nodup_range

theorem length_pageNumbers (first count : Nat) : (pageNumbers first count).length = count := by
  simp [pageNumbers]

/-- What stands in front of the pages: a place for the tree, the fonts, and the entries that name
them, with numbers for as many pages as there are. The number of the entries comes with it. -/
def frontPart (fonts : List String) (count : Nat) : Nat × Document α :=
  let named := (addFonts [] fonts).run (emptyDocument.add .null).2
  let shared := named.2.add (.dictionary named.1)
  (shared.1, { shared.2 with maxId := shared.1 + count })

/-- Ready for as many pages: their numbers are given out and free, and the fonts are there. -/
structure Begun (fonts : List String) (count : Nat) (front : Nat × Document α) : Prop where
  numbered : Numbered front.2
  maxId : front.2.maxId = front.1 + count
  vacant : ∀ number o, front.2.find? number = some o → number ≤ front.1
  behind : 1 < front.1
  place : front.2.find? 1 = some .null
  entries : ∃ entries, front.2.find? front.1 = some (.dictionary entries) ∧
    Provides front.2 entries fonts

omit [Scalar α] in
theorem frontPart_begun (fonts : List String) (count : Nat) :
    Begun fonts count (frontPart fonts count : Nat × Document α) := by
  let named : Dict α × Document α := (addFonts [] fonts).run (emptyDocument.add .null).2
  let shared := named.2.add (.dictionary named.1)
  have hempty : Numbered (emptyDocument : Document α) :=
    ⟨List.nodup_nil, fun number o h => by simp [emptyDocument, Document.find?] at h⟩
  have hnaming : Grown [] (emptyDocument.add (.null : Obj α)).2 named.2 := adds_addFonts [] fonts _
  have hnamed : Numbered named.2 :=
    hnaming.numbered ((grown_add emptyDocument .null).numbered hempty)
  have hplace : named.2.find? 1 = some .null :=
    (hnaming.same 1 (Nat.le_refl 1) (by simp)).trans (find?_set_self ..)
  have hshared : Numbered shared.2 := (grown_add named.2 _).numbered hnamed
  have hreserve : Grown [] shared.2 (frontPart fonts count).2 :=
    grown_reserve shared.2 (Nat.le_add_right shared.1 count)
  have hall : Grown ([] ++ []) named.2 (frontPart fonts count).2 :=
    (grown_add named.2 _).trans hreserve
  exact {
    numbered := hreserve.numbered hshared
    maxId := rfl
    vacant := hshared.below
    behind := Nat.succ_lt_succ hnaming.maxId
    place := hall.find? hnamed hplace (by simp)
    entries := ⟨named.1, hreserve.find? hshared (find?_set_self ..) (by simp),
      (addFonts_provides fonts [] _).grown hall hnamed (by simp)⟩ }

/-- The tree in its place and the catalogue behind it, with the number of the catalogue. -/
def rooted (pages : List Nat) (doc : Document α) : Nat × Document α :=
  (doc.set 1 (.dictionary (pageTree pages))).add
    (.dictionary (Dict.ofList [("Type", Obj.nameOf "Catalog"), ("Pages", .reference 1)]))

/-- What stands behind the pages: the tree, the catalogue and the information. -/
def endPart (pages : List Nat) (info : DocumentInfo) (doc : Document α) : Document α :=
  let informed := (rooted pages doc).2.add (.dictionary (infoEntry info))
  { informed.2 with root := (rooted pages doc).1, info := some informed.1 }

section

omit [Scalar α]

variable (pages : List Nat) (info : DocumentInfo) {doc : Document α}

theorem grown_endPart (h : 1 ≤ doc.maxId) : Grown [1] doc (endPart pages info doc) :=
  (grown_set h _).trans ((grown_add _ _).trans ((grown_add _ _).trans (grown_trailer _ _ _)))

theorem find?_endPart_root : (endPart pages info doc).find? (endPart pages info doc).root =
    some (.dictionary (Dict.ofList [("Type", Obj.nameOf "Catalog"), ("Pages", .reference 1)])) :=
  (find?_add_of_le (rooted pages doc).2 (Nat.le_refl (rooted pages doc).1) _).trans
    (find?_set_self ..)

theorem find?_endPart_tree (h : 1 ≤ doc.maxId) :
    (endPart pages info doc).find? 1 = some (.dictionary (pageTree pages)) :=
  (find?_add_of_le (rooted pages doc).2 (Nat.le_succ_of_le h) _).trans
    ((find?_add_of_le (doc.set 1 (.dictionary (pageTree pages))) h _).trans (find?_set_self ..))

end

theorem document_furnished (encode : List (Operation α) → Bytes) (s : Layout α) :
    ∃ setting, SettingOf encode s.geometry setting ∧
      Furnished setting s.finished (s.document encode) := by
  let front : Nat × Document α := frontPart (fontNames s.finished) s.finished.length
  let numbers := pageNumbers (front.1 + 1) s.finished.length
  let setting : PageSetting α :=
    ⟨encode, s.geometry.width, s.geometry.height, 1, front.1, numbers, s.destinations⟩
  let filled := ((addPages setting (numbers.zip s.finished)).run front.2).2
  have hbegun : Begun (fontNames s.finished) s.finished.length front := frontPart_begun ..
  have hlength : numbers.length = s.finished.length := length_pageNumbers ..
  have hzip : (numbers.zip s.finished).map (·.1) = numbers :=
    List.map_fst_zip (Nat.le_of_eq hlength)
  have hreserved (p : Nat × Canvas α) (hp : p ∈ numbers.zip s.finished) :
      p.1 ≤ front.2.maxId := by
    have hlt := (mem_pageNumbers.mp (hzip ▸ List.mem_map_of_mem hp)).2
    have hmaxId := hbegun.maxId
    omega
  -- no page takes the place of the tree or of anything in front of the pages
  have hpages {n : Nat} (hn : n ≤ front.1) : n ∉ (numbers.zip s.finished).map (·.1) := by
    intro hmem
    have hle := (mem_pageNumbers.mp (hzip ▸ hmem)).1
    omega
  obtain ⟨hfilled, hequipped⟩ := run_addPages setting (numbers.zip s.finished) hbegun.numbered
    hreserved (hzip.symm ▸ nodup_pageNumbers ..)
  have hnumbered : Numbered filled := hfilled.numbered hbegun.numbered
  have hbehind := hbegun.behind
  have hplace : filled.find? 1 = some .null :=
    hfilled.find? hbegun.numbered hbegun.place (hpages (Nat.le_of_lt hbehind))
  have hone : 1 ≤ filled.maxId := hnumbered.below 1 _ hplace
  have hended : Grown [1] filled (s.document encode) := grown_endPart numbers s.info hone
  obtain ⟨entries, hentries, hprovides⟩ := hbegun.entries
  have hkept : (s.document encode).find? front.1 = some (.dictionary entries) :=
    hended.find? hnumbered (hfilled.find? hbegun.numbered hentries (hpages (Nat.le_refl _)))
      (by simp [Nat.ne_of_gt hbehind])
  have hstill : Provides (s.document encode) entries (fontNames s.finished) := by
    refine hprovides.grown (hfilled.trans hended) hbegun.numbered fun n hn o ho => ?_
    rcases List.mem_append.mp hn with hn | hn
    · exact absurd hn (hpages (hbegun.vacant n o ho))
    · obtain rfl : n = 1 := List.mem_singleton.mp hn
      exact (Option.some.inj (hbegun.place.symm.trans ho)).symm
  have hfinal : ∀ p ∈ numbers.zip s.finished, Equipped setting (s.document encode) p.1 p.2 :=
    fun p hp => (hequipped p hp).grown hended hnumbered fun n hn =>
      List.mem_singleton.mp hn ▸ hplace
  refine ⟨setting, ⟨rfl, rfl, rfl⟩, ⟨hended.numbered hnumbered, nodup_pageNumbers .., hlength,
    find?_endPart_root numbers s.info, find?_endPart_tree numbers s.info hone,
    fun p hp => (hfinal p hp).entered⟩, ⟨_, hkept, hstill⟩, hfinal⟩

theorem document_writtenAs (encode : List (Operation α) → Bytes) (s : Layout α) :
    ∃ setting, SettingOf encode s.geometry setting ∧
      WrittenAs setting s.finished (s.document encode) := by
  obtain ⟨setting, hsetting, hfurnished⟩ := document_furnished encode s
  exact ⟨setting, hsetting, hfurnished.written⟩

/-- The pages by their numbers, each with one stream of contents. -/
def PageSetting.shown (setting : PageSetting α) (pages : List (Canvas α)) :
    List (Nat × List Bytes) :=
  setting.pages.zip (pages.map fun page => [setting.encode page.operations])

omit [Scalar α] in
theorem PageSetting.map_shown {setting : PageSetting α} {pages : List (Canvas α)}
    (h : setting.pages.length = pages.length) : (setting.shown pages).map (·.1) = setting.pages :=
  List.map_fst_zip (by simp [h])

/-- The tree of a document and its pages, as far as both are found in another one. -/
theorem WrittenAs.displays_of {setting : PageSetting α} {pages : List (Canvas α)}
    {doc next : Document α} (h : WrittenAs setting pages doc)
    (hbelow : ∀ number o, next.find? number = some o → number ≤ next.maxId)
    (htree : ∃ catalog tree, next.find? next.root = some (.dictionary catalog) ∧
      valueUnder "Pages" catalog = some (.reference setting.tree) ∧
      next.find? setting.tree = some (.dictionary tree) ∧
      valueUnder "Kids" tree = some (.array (setting.pages.map .reference)))
    (hpage : ∀ number page, Entered setting doc number page →
      ∃ d, next.find? number = some (.dictionary d) ∧
        IsPage next d [setting.encode page.operations]) :
    Displays next (setting.shown pages) where
  below := hbelow
  distinct := by
    rw [PageSetting.map_shown h.length]
    exact h.distinct
  tree := by
    obtain ⟨catalog, tree, hroot, hpages, hfind, hkids⟩ := htree
    refine ⟨catalog, setting.tree, 0, tree, hroot, hpages, hfind, ?_⟩
    rw [hkids, ← PageSetting.map_shown h.length, List.map_map]
    rfl
  page := by
    intro p hp
    unfold PageSetting.shown at hp
    rw [List.zip_map_right] at hp
    obtain ⟨entry, hentry, rfl⟩ := List.mem_map.mp hp
    exact hpage _ _ (h.entered entry hentry)

/-- The document made of finished pages displays them. -/
theorem WrittenAs.displays {setting : PageSetting α} {pages : List (Canvas α)} {doc : Document α}
    (h : WrittenAs setting pages doc) : Displays doc (setting.shown pages) := by
  refine h.displays_of h.numbered.below ⟨_, _, h.root, ?_, h.tree, ?_⟩
    fun number page hentered => ?_
  · simp [valueUnder_ofList]
  · simp [pageTree, valueUnder_ofList]
  · obtain ⟨content, images, marks, hfind, -, -, hcontent⟩ := hentered
    exact ⟨_, hfind, isPage_pageDict hcontent⟩

end Folio.Flow
