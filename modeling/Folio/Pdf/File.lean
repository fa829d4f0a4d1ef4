import Folio.Pdf.Content
import Folio.Pdf.Document

/-!
A document as the bytes of a file: a header, the objects one behind the other, a table of the places
where they start, and a trailer that names the root. A place in the table is the number of bytes in
front of it.
-/
namespace Folio.Pdf

/-- The version, and a comment that shows that the file is not plain text. -/
def fileHeader : Bytes := asciiBytes "%PDF-1.7\n%" ++ [0xBB, 0xAD, 0xC0, 0xDE, 10]

def bodyBytes : Obj Single → Bytes
  | .stream entries content =>
    encodeObj (.stream (Dict.set (bytesOf "Length") (.integer content.length) entries) content)
  | o => encodeObj o

def numberedBytes (number : Nat) (o : Obj Single) : Bytes :=
  asciiBytes (toString number ++ " 0 obj\n") ++ bodyBytes o ++ asciiBytes "\nendobj\n"

/-- Where each of a row of blocks starts, the first of them at `start`. -/
def startsFrom (start : Nat) : List Bytes → List Nat
  | [] => []
  | block :: rest => start :: startsFrom (start + block.length) rest

theorem length_startsFrom (start : Nat) (blocks : List Bytes) :
    (startsFrom start blocks).length = blocks.length := by
  induction blocks generalizing start with
  | nil => rfl
  | cons block rest ih => simp [startsFrom, ih]

/-- Behind `front`, a block starts where the ones in front of it end. -/
theorem drop_startsFrom (front : Bytes) (blocks : List Bytes) (i : Nat)
    (h : i < (startsFrom front.length blocks).length) :
    (front ++ blocks.flatten).drop ((startsFrom front.length blocks)[i]) =
      (blocks.drop i).flatten := by
  induction blocks generalizing front i with
  | nil => simp [startsFrom] at h
  | cons block rest ih =>
    cases i with
    | zero => simp [startsFrom]
    | succ i =>
      have moved := ih (front ++ block) i (by simpa [startsFrom] using h)
      simpa [startsFrom] using moved

/-- A number with noughts in front of it, up to `width` digits. -/
def paddedNumber (width n : Nat) : String :=
  let digits := toString n
  String.ofList (List.replicate (width - digits.length) '0') ++ digits

def tableLine : Option Nat → String
  | some start => paddedNumber 10 start ++ " 00000 n \n"
  | none => paddedNumber 10 0 ++ " 65535 f \n"

def Document.trailer (doc : Document Single) : Dict Single :=
  Dict.ofList ([("Size", .integer (doc.maxId + 1)), ("Root", .reference doc.root)]
    ++ (doc.info.map fun number => ("Info", .reference number)).toList)

def Document.fileBytes (doc : Document Single) : Bytes :=
  let written := doc.writtenObjects
  let blocks := written.map fun (number, o) => numberedBytes number o
  let body := fileHeader ++ blocks.flatten
  let places := (written.map (·.1)).zip (startsFrom fileHeader.length blocks)
  let lines := (List.range (doc.maxId + 1)).map fun number => tableLine (places.lookup number)
  body ++ asciiBytes ("xref\n0 " ++ toString (doc.maxId + 1) ++ "\n")
    ++ lines.flatMap asciiBytes ++ asciiBytes "trailer\n" ++ encodeObj (.dictionary doc.trailer)
    ++ asciiBytes ("\nstartxref\n" ++ toString body.length ++ "\n%%EOF\n")

end Folio.Pdf
