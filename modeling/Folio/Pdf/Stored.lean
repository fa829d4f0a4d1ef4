import Folio.Pdf.Content
import Folio.Pdf.ContentParser
import Folio.Pdf.Document

/-!
What a document is after it was written to a file and read again. Numbers are written in plain
digits, so one without a fraction comes back as a whole number. What is not finite, or whole and too
large for 64 bits, cannot be read, nor can a string whose parentheses nest too deep; the object it
stands in is missing. So is an object of a kind that belongs to the make-up of a file.
-/
namespace Folio.Pdf

/-- A number as it is read again. -/
def storedReal (x : Single) : Option (Obj Single) :=
  (ContentParser.readNumber (encodeReal x)).map (·.1)

/-- A string as it is read again. -/
def storedString (bytes : Bytes) : Option (Obj Single) :=
  (ContentParser.readString (encodeLiteral bytes).tail).map fun r => .string .literal r.1

mutual

def storedObj : Obj Single → Option (Obj Single)
  | .real x => storedReal x
  | .string .literal bytes => storedString bytes
  | .array items => (storedItems items).map .array
  | .dictionary entries => (storedEntries entries).map .dictionary
  | .stream entries content => (storedEntries entries).map fun entries => .stream entries content
  | o => some o

def storedItems : List (Obj Single) → Option (List (Obj Single))
  | [] => some []
  | o :: rest => do return (← storedObj o) :: (← storedItems rest)

def storedEntries : List (Bytes × Obj Single) → Option (List (Bytes × Obj Single))
  | [] => some []
  | (key, o) :: rest => do return (key, ← storedObj o) :: (← storedEntries rest)

end

/-- The document read from the file that it was written to. -/
def Document.stored (doc : Document Single) : Document Single :=
  { doc with objects := doc.writtenObjects.filterMap fun (number, o) =>
      (storedObj o).map fun o => (number, o) }

end Folio.Pdf
