import Folio.Json.Forms

/-!
Where the items of a document come from, one at a time: values held in memory, values that a test
lets through, or forms read from a text.
-/
namespace Folio.Assembly

inductive Source where
  | held (items : List Json)
  | filtered (keep : Json → Bool) (items : List Json)
  | forms (forms : Json.Forms)
  /-- A source with one item put back in front. -/
  | prepended (first : Json) (forms : Json.Forms)

/-- What taking an item comes to. -/
inductive Taken where
  | item (v : Json)
  | fault
  | finished

namespace Source

def ofText (s : String) : Source := forms (.ofText s)

def ofForm : Json.Form → Taken
  | .value v => .item v
  | .fault => .fault
  | .finished => .finished

def next : Source → Taken × Source
  | held [] => (.finished, held [])
  | held (v :: rest) => (.item v, held rest)
  | filtered keep items =>
    match items.dropWhile (!keep ·) with
    | [] => (.finished, filtered keep [])
    | v :: rest => (.item v, filtered keep rest)
  | forms f =>
    let (form, rest) := f.next
    (ofForm form, forms rest)
  | prepended first rest => (.item first, forms rest)

/-- How many items are left, where that is known. -/
def sizeHint : Source → Option Nat
  | held items => some items.length
  | filtered _ [] => some 0
  | _ => none

/-- More calls than it takes to come to the end. -/
def bound : Source → Nat
  | held items | filtered _ items => items.length + 1
  | forms f => f.rest.length + 2
  | prepended _ f => f.rest.length + 3

/-- Items up to the first fault, and whether there is one. -/
def takeAll : Nat → Source → List Json × Bool
  | 0, _ => ([], false)
  | calls + 1, source =>
    match source.next with
    | (.item v, rest) =>
      let (items, faulty) := takeAll calls rest
      (v :: items, faulty)
    | (.fault, _) => ([], true)
    | (.finished, _) => ([], false)

/-- All that the source yields before it ends or fails. -/
def drain (source : Source) : List Json × Bool := takeAll source.bound source

@[simp] theorem next_held_nil : next (held []) = (.finished, held []) := rfl
@[simp] theorem next_held_cons (v : Json) (rest : List Json) :
    next (held (v :: rest)) = (.item v, held rest) := rfl

end Source

end Folio.Assembly
