import Folio.Style.Context

/-!
Stylesheets: classes by name, each with the attributes it contributes, and the cascade that turns
an ambient context, a list of classes and inline attributes into the context of one element. Later
classes win over earlier ones and inline attributes over every class.
-/
namespace Folio.Style

/-- Each class once, in the order in which it was first put in. -/
structure Sheet where
  classes : List (String × Fields)

namespace Sheet

def empty : Sheet := ⟨[]⟩

def put (name : String) (attrs : Fields) : List (String × Fields) → List (String × Fields)
  | [] => [(name, attrs)]
  | (k, v) :: rest => if k == name then (name, attrs) :: rest else (k, v) :: put name attrs rest

def insert (sheet : Sheet) (name : String) (attrs : Fields) : Sheet :=
  ⟨put (stripKeyword name) (normalizeKeys attrs) sheet.classes⟩

def ofEntries (entries : List (String × Fields)) : Sheet :=
  entries.foldl (fun sheet entry => sheet.insert entry.1 entry.2) empty

def get? (sheet : Sheet) (name : String) : Option Fields :=
  (sheet.classes.find? (·.1 == stripKeyword name)).map (·.2)

def size (sheet : Sheet) : Nat := sheet.classes.length

/-- A map from names to maps. -/
def ofJson? : Json → Option Sheet
  | .object fs =>
    (fs.mapM fun (entry : String × Json) => entry.2.asFields?.map (Prod.mk entry.1)).map ofEntries
  | _ => none

end Sheet

/-- The context of one element. -/
def resolve (ambient : Context) (sheet : Sheet) (classes : List String) (inlined : Option Fields) :
    Context :=
  let classed := classes.foldl (fun c name =>
    match sheet.get? name with
    | some attrs => c.merge attrs
    | none => c) ambient
  match inlined with
  | some attrs => classed.merge attrs
  | none => classed

@[simp] theorem resolve_nil (ambient : Context) (sheet : Sheet) :
    resolve ambient sheet [] none = ambient := rfl

end Folio.Style
