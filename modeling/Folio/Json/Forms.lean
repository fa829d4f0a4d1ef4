import Folio.Json.Parser

/-!
A stream of data values one behind the other. Strings, arrays and maps show their own end; a number
or a word must be followed by the end, a blank or a mark, and is dropped as a fault if it is not.
After a malformed value nothing more is read.
-/
namespace Folio.Json

structure Forms where
  rest : List Char
  ended : Bool

/-- What reading on finds. -/
inductive Form where
  | value (v : Json)
  | fault
  | finished

def Forms.ofText (s : String) : Forms := ⟨s.toList, false⟩

def endsBareValue : List Char → Bool
  | [] => true
  | c :: _ => isSpace c || "\"[]\x7b\x7d,:".toList.contains c

def startsDelimited (c : Char) : Bool := c == '[' || c == '"' || c == '\x7b'

def Forms.next (f : Forms) : Form × Forms :=
  if f.ended then (.finished, f)
  else
    match skipSpace f.rest with
    | [] => (.finished, ⟨[], false⟩)
    | c :: cs =>
      match readFirst (c :: cs) with
      | none => (.fault, ⟨cs, true⟩)
      | some (v, rest) =>
        if startsDelimited c || endsBareValue rest then (.value v, ⟨rest, false⟩)
        else (.fault, ⟨rest, false⟩)

@[simp] theorem Forms.next_ended (f : Forms) (h : f.ended = true) : f.next = (.finished, f) := by
  simp [Forms.next, h]

end Folio.Json
