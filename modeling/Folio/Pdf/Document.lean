import Folio.Pdf.Object

/-!
A document as a table of numbered objects with a root. A look-up follows chains of references and
fails on a missing object; the pages are found by walking the page tree depth first, and what cannot
be read there is passed over.
-/
namespace Folio.Pdf

structure Document (α : Type) where
  /-- Objects by number, each number once. -/
  objects : List (Nat × Obj α)
  maxId : Nat
  root : Nat
  info : Option Nat

/-- Any fault of a document's structure. -/
inductive StructureError where
  | missing
  | wrongKind
  deriving DecidableEq, Repr

namespace Document

variable {α : Type}

def find? (doc : Document α) (number : Nat) : Option (Obj α) :=
  (doc.objects.find? (·.1 == number)).map (·.2)

/-- The number and the object that a chain of references ends in. -/
def follow (doc : Document α) : Nat → Nat → Option (Nat × Obj α)
  | 0, _ => none
  | fuel + 1, number =>
    match doc.find? number with
    | some (.reference next _) => doc.follow fuel next
    | some o => some (number, o)
    | none => none

/-- A chain may hold no more references. -/
def maxReferences : Nat := 128

def locate? (doc : Document α) (number : Nat) : Option (Nat × Obj α) :=
  doc.follow (maxReferences + 1) number

def get (doc : Document α) (number : Nat) : Except StructureError (Obj α) :=
  match doc.locate? number with
  | some (_, o) => .ok o
  | none => .error .missing

def getDict (doc : Document α) (number : Nat) : Except StructureError (Dict α) :=
  match doc.locate? number with
  | some (_, .dictionary entries) => .ok entries
  | some _ => .error .wrongKind
  | none => .error .missing

def getDict? (doc : Document α) (number : Nat) : Option (Dict α) := (doc.getDict number).toOption

def put (number : Nat) (o : Obj α) : List (Nat × Obj α) → List (Nat × Obj α)
  | [] => [(number, o)]
  | (n, p) :: rest => if n == number then (number, o) :: rest else (n, p) :: put number o rest

/-- Replaces an object in place, or adds it under its number. -/
def set (doc : Document α) (number : Nat) (o : Obj α) : Document α :=
  { doc with objects := put number o doc.objects }

/-- Adds an object under the next free number. -/
def add (doc : Document α) (o : Obj α) : Nat × Document α :=
  (doc.maxId + 1, { doc.set (doc.maxId + 1) o with maxId := doc.maxId + 1 })

/-- The kind that a dictionary names, or shows by an entry that only one kind has. -/
def kind? (d : Dict α) : Option Bytes :=
  match Dict.get? (bytesOf "Type") d with
  | some (.name kind) => some kind
  | _ => if Dict.has (bytesOf "Linearized") d then some (bytesOf "Linearized") else none

/-- Objects of these kinds make up a file, and are not written into another. -/
def fileKinds : List Bytes := ["ObjStm", "XRef", "Linearized"].map bytesOf

def isWritten : Obj α → Bool
  | .dictionary entries | .stream entries _ => !(kind? entries).any fileKinds.contains
  | _ => true

/-- The objects that are written into a file. -/
def writtenObjects (doc : Document α) : List (Nat × Obj α) :=
  doc.objects.filter fun entry => isWritten entry.2

/-- What an entry of a page tree is. -/
inductive Kid (α : Type) where
  | page (number : Nat)
  | tree (kids : List (Obj α))
  | other

/-- An object, or what a reference in its place leads to. -/
def target? (doc : Document α) : Obj α → Option (Obj α)
  | .reference number _ => (doc.follow maxReferences number).map (·.2)
  | o => some o

def kidsOf (doc : Document α) (d : Dict α) : List (Obj α) :=
  (((Dict.get? (bytesOf "Kids") d).bind doc.target?).bind Obj.asArray?).getD []

def classify (doc : Document α) (kid : Obj α) : Kid α :=
  match kid with
  | .reference number _ =>
    match doc.getDict? number with
    | some d =>
      let kind := kind? d
      if kind == some (bytesOf "Page") then .page number
      else if kind == some (bytesOf "Pages") then .tree (doc.kidsOf d)
      else .other
    | none => .other
  | _ => .other

/-- Page trees nest no deeper. -/
def maxTreeDepth : Nat := 256

/-- Pages below the kids still to be visited, of which at most `limit` are. -/
def pagesBelow (doc : Document α) (limit : Nat) (pending : List (List (Obj α))) : List Nat :=
  match limit, pending with
  | _, [] => []
  | limit, [] :: stack => doc.pagesBelow limit stack
  | 0, (_ :: _) :: _ => []
  | limit + 1, (kid :: rest) :: stack =>
    match doc.classify kid with
    | .page number => number :: doc.pagesBelow limit (rest :: stack)
    | .tree kids =>
      if stack.length < maxTreeDepth then
        doc.pagesBelow limit (kids :: if rest.isEmpty then stack else rest :: stack)
      else doc.pagesBelow limit (rest :: stack)
    | .other => doc.pagesBelow limit (rest :: stack)
termination_by (limit, pending.length)

/-- The numbers of the page objects, in page order. -/
def pages (doc : Document α) : List Nat :=
  match (doc.getDict? doc.root).bind (Dict.get? (bytesOf "Pages")) with
  | some (.reference tree _) =>
    match doc.getDict? tree with
    | some d => doc.pagesBelow doc.objects.length [doc.kidsOf d]
    | none => []
  | _ => []

end Document

end Folio.Pdf
