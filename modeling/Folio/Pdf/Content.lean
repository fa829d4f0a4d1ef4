import Folio.Pdf.Object

/-!
Content streams as bytes. Operands stand in front of their operator with a blank behind each, and
operations are parted by line ends. In a string only what would break it is escaped: a parenthesis
without a partner, a backslash and a carriage return.
-/
namespace Folio.Pdf

def asciiBytes (s : String) : Bytes := s.toList.map fun c => c.toNat.toUInt8

def upperHexDigit (n : Nat) : UInt8 := (if n < 10 then 48 + n else 55 + n).toUInt8

def hexBytes (b : UInt8) : Bytes := [upperHexDigit (b.toNat / 16), upperHexDigit (b.toNat % 16)]

/-- May a byte stand in a name as it is? -/
def isNameByte (b : UInt8) : Bool :=
  0x21 ≤ b && b ≤ 0x7E && !(asciiBytes "()<>[]\x7b\x7d/%#").contains b

def encodeName (bytes : Bytes) : Bytes :=
  47 :: bytes.flatMap fun b => if isNameByte b then [b] else 35 :: hexBytes b

/-- Marks what needs a backslash: `opened` holds the places of open parentheses. -/
def unbalanced : Nat → List Nat → Bytes → List Nat
  | _, opened, [] => opened
  | i, opened, b :: rest =>
    if b = 40 then unbalanced (i + 1) (i :: opened) rest
    else if b = 41 then
      match opened with
      | _ :: others => unbalanced (i + 1) others rest
      | [] => i :: unbalanced (i + 1) [] rest
    else unbalanced (i + 1) opened rest

def encodeLiteral (bytes : Bytes) : Bytes :=
  let marked := unbalanced 0 [] bytes
  let body := bytes.zipIdx.flatMap fun (b, i) =>
    if b = 92 then [92, 92]
    else if b = 13 then [92, 114]
    else if marked.contains i then [92, b]
    else [b]
  40 :: body ++ [41]

def encodeReal (x : Single) : Bytes :=
  asciiBytes (Single.text x)

/-- Inside an array only what would run into the item before it is set off. -/
def needsSeparator {α : Type} : Obj α → Bool
  | .null | .bool _ | .integer _ | .real _ | .reference .. => true
  | _ => false

mutual

def encodeObj : Obj Single → Bytes
  | .null => asciiBytes "null"
  | .bool b => asciiBytes (if b then "true" else "false")
  | .integer n => asciiBytes (toString n)
  | .real x => encodeReal x
  | .name bytes => encodeName bytes
  | .string .literal bytes => encodeLiteral bytes
  | .string .hexadecimal bytes => 60 :: bytes.flatMap hexBytes ++ [62]
  | .array items => 91 :: encodeItems true items ++ [93]
  | .dictionary entries => [60, 60] ++ encodeEntries entries ++ [62, 62]
  | .stream entries content =>
    [60, 60] ++ encodeEntries entries ++ [62, 62] ++ asciiBytes "stream\n" ++ content
      ++ asciiBytes "\nendstream"
  | .reference number generation =>
    asciiBytes (toString number ++ " " ++ toString generation ++ " R")

def encodeItems : Bool → List (Obj Single) → Bytes
  | _, [] => []
  | first, x :: xs =>
    (if !first && needsSeparator x then [32] else []) ++ encodeObj x ++ encodeItems false xs

def encodeEntries : List (Bytes × Obj Single) → Bytes
  | [] => []
  | (key, x) :: rest =>
    encodeName key ++ (if needsSeparator x then [32] else []) ++ encodeObj x ++ encodeEntries rest

end

def Operation.encode (op : Operation Single) : Bytes :=
  op.operands.flatMap (fun o => encodeObj o ++ [32]) ++ asciiBytes op.operator

/-- The bytes of a stream of operations. -/
def encodeOperations (ops : List (Operation Single)) : Bytes :=
  (ops.map Operation.encode).intersperse [10] |>.flatten

end Folio.Pdf
