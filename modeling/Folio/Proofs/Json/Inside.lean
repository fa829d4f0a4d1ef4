import Folio.Json.Value

/-!
# Values inside values

A value inside an array or a map is not as deep as the value around it.
-/
namespace Folio

/-- A value that stands somewhere inside an array or a map. -/
inductive Inside : Json → Json → Prop
  | item {x : Json} {items : List Json} (h : x ∈ items) : Inside x (.array items)
  | field {x : Json} {fields : Fields} {entry : String × Json} (h : entry ∈ fields)
      (hx : entry.2 = x) : Inside x (.object fields)
  | trans {x y z : Json} (h : Inside x y) (k : Inside y z) : Inside x z

theorem depth_le_depthItems {x : Json} {items : List Json} (h : x ∈ items) :
    x.depth ≤ Json.depthItems items := by
  induction items with
  | nil => cases h
  | cons y items ih =>
    simp only [Json.depthItems]
    rcases List.mem_cons.mp h with rfl | h
    · omega
    · have hx := ih h
      omega

theorem depth_le_depthFields {entry : String × Json} {fields : Fields} (h : entry ∈ fields) :
    entry.2.depth ≤ Json.depthFields fields := by
  induction fields with
  | nil => cases h
  | cons e fields ih =>
    simp only [Json.depthFields]
    rcases List.mem_cons.mp h with rfl | h
    · omega
    · have hentry := ih h
      omega

theorem Inside.depth_lt {x y : Json} (h : Inside x y) : x.depth < y.depth := by
  induction h with
  | item h =>
    have hitem := depth_le_depthItems h
    simp only [Json.depth]
    omega
  | field h hx =>
    have hfield := depth_le_depthFields h
    rw [hx] at hfield
    simp only [Json.depth]
    omega
  | trans _ _ ih ik => omega

end Folio
