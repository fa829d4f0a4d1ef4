import Folio.Pdf.Object
import Folio.Decimal.Reading

/-!
Reads content streams back into operations. Reading goes as far as the bytes make whole operations;
what follows is left out. Only an inline image that cannot be read makes a stream invalid. Operands
are set apart by blanks alone, while comments and references may stand inside arrays and
dictionaries; lines of comment may also stand in front of an operation.
-/
namespace Folio.Pdf.ContentParser

variable {α : Type} [Scalar α]

def isSpace (b : UInt8) : Bool := b == 32 || b == 9 || b == 10 || b == 13 || b == 0 || b == 12

def isDelimiter (b : UInt8) : Bool :=
  b == 40 || b == 41 || b == 60 || b == 62 || b == 91 || b == 93 || b == 123 || b == 125 || b == 47
    || b == 37

def isDigit (b : UInt8) : Bool := 48 ≤ b && b ≤ 57

def isOperatorByte (b : UInt8) : Bool :=
  (65 ≤ b && b ≤ 90) || (97 ≤ b && b ≤ 122) || b == 42 || b == 39 || b == 34

/-- Passes over the blanks behind an operand or an operator. -/
def skipBlank (bs : Bytes) : Bytes := bs.dropWhile fun b => b == 32 || b == 9 || b == 10 || b == 13

/-- Passes over blanks and comments; a comment ends with its line. -/
def skipSpace (inComment : Bool) : Bytes → Bytes
  | [] => []
  | b :: rest =>
    if inComment then skipSpace (b != 10 && b != 13) rest
    else if isSpace b then skipSpace false rest
    else if b == 37 then skipSpace true rest
    else b :: rest

/-- Passes over comments with their line ends, but over no blank behind them. -/
def skipComments (inComment : Bool) : Bytes → Bytes
  | [] => []
  | 13 :: 10 :: rest => if inComment then skipComments false rest else 13 :: 10 :: rest
  | b :: rest =>
    if inComment then skipComments (b != 10 && b != 13) rest
    else if b == 37 then skipComments true rest
    else b :: rest

def charsOf (bs : Bytes) : List Char := bs.map fun b => Char.ofNat b.toNat

/-- A number with a point in it, or a whole number of 64 bits. -/
def readNumber (bs : Bytes) : Option (Obj α × Bytes) :=
  let (sign, rest) : Bytes × Bytes := match bs with
    | 43 :: rest => ([43], rest)
    | 45 :: rest => ([45], rest)
    | _ => ([], bs)
  let whole := rest.takeWhile isDigit
  let tail := rest.dropWhile isDigit
  let real (places after : Bytes) : Option (Obj α × Bytes) :=
    (Decimal.Reading.parse? (charsOf (sign ++ whole ++ 46 :: places))).map fun r =>
      (.real (Scalar.ofReading r), after)
  let integer : Option (Obj α × Bytes) :=
    let size := Decimal.valueOf 0 (charsOf whole)
    let n : Int := if sign == [45] then -(size : Int) else size
    if whole.isEmpty || n < -9223372036854775808 || 9223372036854775808 ≤ n then none
    else some (.integer n, tail)
  match tail with
  | 46 :: more =>
    if whole.isEmpty && (more.takeWhile isDigit).isEmpty then none
    else real (more.takeWhile isDigit) (more.dropWhile isDigit)
  | _ => integer

def hexValue? (b : UInt8) : Option Nat :=
  if isDigit b then some (b.toNat - 48)
  else if 97 ≤ b && b ≤ 102 then some (b.toNat - 87)
  else if 65 ≤ b && b ≤ 70 then some (b.toNat - 55)
  else none

/-- A name from behind its slash; two hexadecimal digits behind a number sign are one byte. -/
def readName : Bytes → Bytes × Bytes
  | [] => ([], [])
  | 35 :: a :: b :: rest =>
    match hexValue? a, hexValue? b with
    | some x, some y =>
      let (name, tail) := readName rest
      ((x * 16 + y).toUInt8 :: name, tail)
    | _, _ => ([], 35 :: a :: b :: rest)
  | b :: rest =>
    if isSpace b || isDelimiter b || b == 35 then ([], b :: rest)
    else
      let (name, tail) := readName rest
      (b :: name, tail)

def isOctal (b : UInt8) : Bool := 48 ≤ b && b ≤ 55

def escaped? (b : UInt8) : UInt8 :=
  if b == 110 then 10
  else if b == 114 then 13
  else if b == 116 then 9
  else if b == 98 then 8
  else if b == 102 then 12
  else b

/-- Strings whose parentheses nest deeper cannot be read. -/
def maxNesting : Nat := 100

/-- A string from behind its opening parenthesis, `depth` more of which are open. -/
def readLiteral (fuel depth : Nat) (bs : Bytes) : Option (Bytes × Bytes) :=
  match fuel, bs with
  | 0, _ => none
  | _, [] => none
  | fuel + 1, b :: rest =>
    if b == 40 then
      if depth < maxNesting then
        (readLiteral fuel (depth + 1) rest).map fun r => (b :: r.1, r.2)
      else none
    else if b == 41 then
      match depth with
      | 0 => some ([], rest)
      | depth + 1 => (readLiteral fuel depth rest).map fun r => (b :: r.1, r.2)
    else if b == 92 then
      match rest with
      | 13 :: 10 :: more => readLiteral fuel depth more
      | 10 :: more => readLiteral fuel depth more
      | 13 :: more => readLiteral fuel depth more
      | e :: more =>
        if isOctal e then
          let digits := (rest.take 3).takeWhile isOctal
          let value := digits.foldl (fun n d => 8 * n + (d.toNat - 48)) 0
          (readLiteral fuel depth (rest.drop digits.length)).map
            fun r => (value.toUInt8 :: r.1, r.2)
        else (readLiteral fuel depth more).map fun r => (escaped? e :: r.1, r.2)
      | [] => none
    else (readLiteral fuel depth rest).map fun r => (b :: r.1, r.2)

/-- A string from behind its opening parenthesis. -/
def readString (bs : Bytes) : Option (Bytes × Bytes) := readLiteral (bs.length + 1) 0 bs

def pairs : List Nat → Bytes
  | a :: b :: rest => (a * 16 + b).toUInt8 :: pairs rest
  | [a] => [(a * 16).toUInt8]
  | [] => []

/-- Hexadecimal digits up to the closing bracket; blanks do not count. -/
def readHex (bs : Bytes) : Option (Bytes × Bytes) :=
  let body := bs.takeWhile fun b => isSpace b || (hexValue? b).isSome
  match bs.dropWhile (fun b => isSpace b || (hexValue? b).isSome) with
  | 62 :: rest => some (pairs (body.filterMap hexValue?), rest)
  | _ => none

def readWord (word : String) (value : Obj α) (bs : Bytes) : Option (Obj α × Bytes) :=
  let bytes := bytesOf word
  if bytes.isPrefixOf bs then some (value, bs.drop bytes.length) else none

/-- Digits for a number below `limit`. -/
def readCount (limit : Nat) (bs : Bytes) : Option (Nat × Bytes) :=
  let digits := bs.takeWhile isDigit
  let n := Decimal.valueOf 0 (charsOf digits)
  if digits.isEmpty || limit ≤ n then none
  else some (n, skipSpace false (bs.dropWhile isDigit))

/-- The number of an object and its generation, then an `R`. -/
def readReference (bs : Bytes) : Option (Obj α × Bytes) := do
  let (number, rest) ← readCount 4294967296 bs
  let (generation, rest) ← readCount 65536 rest
  match rest with
  | 82 :: rest => return (.reference number generation, rest)
  | _ => none

mutual

def readOperand (fuel : Nat) (bs : Bytes) : Option (Obj α × Bytes) :=
  match fuel with
  | 0 => none
  | fuel + 1 =>
    match bs with
    | [] => none
    | 47 :: rest => some (.name (readName rest).1, (readName rest).2)
    | 40 :: rest => (readString rest).map fun r => (.string .literal r.1, r.2)
    | 60 :: 60 :: rest =>
      match readEntries fuel [] (skipSpace false rest) with
      | (entries, 62 :: 62 :: tail) => some (.dictionary entries, tail)
      | _ => none
    | 60 :: rest => (readHex rest).map fun r => (.string .hexadecimal r.1, r.2)
    | 91 :: rest => (readItems fuel (skipSpace false rest)).map fun r => (.array r.1, r.2)
    | 110 :: _ => readWord "null" .null bs
    | 116 :: _ => readWord "true" (.bool true) bs
    | 102 :: _ => readWord "false" (.bool false) bs
    | _ => readNumber bs

def readItems (fuel : Nat) (bs : Bytes) : Option (List (Obj α) × Bytes) :=
  match fuel with
  | 0 => none
  | fuel + 1 =>
    match bs with
    | 93 :: rest => some ([], rest)
    | _ => do
      let (item, rest) ← (readReference bs).or (readOperand fuel bs)
      let (items, tail) ← readItems fuel (skipSpace false rest)
      return (item :: items, tail)

/-- As many entries as there are behind the `known` ones; the latest value of a key counts. -/
def readEntries (fuel : Nat) (known : Dict α) (bs : Bytes) : Dict α × Bytes :=
  match fuel with
  | 0 => (known, bs)
  | fuel + 1 =>
    match bs with
    | 47 :: rest =>
      let (key, tail) := readName rest
      let tail := skipSpace false tail
      match (readReference tail).or (readOperand fuel tail) with
      | some (value, tail) => readEntries fuel (Dict.set key value known) (skipSpace false tail)
      | none => (known, bs)
    | _ => (known, bs)

end

/-- Operands, as many as there are. -/
def readOperands (fuel : Nat) (bs : Bytes) : List (Obj α) × Bytes :=
  match fuel with
  | 0 => ([], bs)
  | fuel + 1 =>
    match readOperand (2 * bs.length + 2) bs with
    | some (o, rest) =>
      let (os, tail) := readOperands fuel (skipBlank rest)
      (o :: os, tail)
    | none => ([], bs)

def operatorText (bs : Bytes) : String := String.ofList (charsOf bs)

/-- An entry of an inline image, under its short name or its full one. -/
def imageValue? (short full : String) (entries : Dict α) : Option (Obj α) :=
  (Dict.get? (bytesOf short) entries).or (Dict.get? (bytesOf full) entries)

def imageCount? (short full : String) (entries : Dict α) : Option Nat :=
  match imageValue? short full entries with
  | some (.integer n) => if 0 ≤ n then some n.toNat else none
  | _ => none

/-- Channels of a colour space that an inline image may name. -/
def channels? (space : Obj α) : Option Nat :=
  match space with
  | .name name =>
    if [bytesOf "DeviceGray", bytesOf "Gray"].contains name then some 1
    else if [bytesOf "DeviceRGB", bytesOf "RGB"].contains name then some 3
    else if [bytesOf "DeviceRGBA", bytesOf "RGBA", bytesOf "DeviceCMYK", bytesOf "CMYK"].contains
        name then some 4
    else none
  | _ => none

/-- A mask has one channel and no colours. -/
def isMask (entries : Dict α) : Bool :=
  match imageValue? "IM" "ImageMask" entries with
  | some (.bool mask) => mask
  | _ => false

/-- How many bytes the pixels take, each row of them beginning a byte; filters are not undone. -/
def pixelBytes? (entries : Dict α) : Option Nat := do
  let width ← imageCount? "W" "Width" entries
  let height ← imageCount? "H" "Height" entries
  let depth ← imageCount? "BPC" "BitsPerComponent" entries
  let channels ←
    if isMask entries then some 1
    else (imageValue? "CS" "ColorSpace" entries).bind channels?
  if (imageValue? "F" "Filter" entries).isSome then none
  else return (width * channels * depth + 7) / 8 * height

/-- An inline image from behind its `BI`: entries, an `ID`, the pixels and an `EI`. -/
def readInlineImage (bs : Bytes) : Option (Obj α × Bytes) :=
  match readEntries (2 * bs.length + 2) [] bs with
  | (entries, 73 :: 68 :: rest) => do
    let data := skipBlank rest
    let size ← pixelBytes? entries
    if data.length < size then none
    else
      match skipBlank (data.drop size) with
      | 69 :: 73 :: tail =>
        return (.stream (Dict.set (bytesOf "Length") (.integer size) entries) (data.take size),
          skipBlank tail)
      | _ => none
  | _ => none

/-- Operations up to the first bytes that make none. -/
def readOperations (fuel : Nat) (bs : Bytes) : Option (List (Operation α)) :=
  match fuel with
  | 0 => some []
  | fuel + 1 =>
    match skipComments false bs with
    | 66 :: 73 :: rest =>
      match readInlineImage (skipBlank rest) with
      | some (image, tail) => (readOperations fuel tail).map (⟨"BI", [image]⟩ :: ·)
      | none => none
    | bs =>
      let (operands, rest) := readOperands (bs.length + 1) bs
      let operator := rest.takeWhile isOperatorByte
      if operator.isEmpty then some []
      else
        (readOperations fuel (skipBlank (rest.dropWhile isOperatorByte))).map
          (⟨operatorText operator, operands⟩ :: ·)

end ContentParser

/-- The operations of a content stream, unless it is invalid. -/
def decodeOperations? {α : Type} [Scalar α] (bs : Bytes) : Option (List (Operation α)) :=
  ContentParser.readOperations (bs.length + 1) (ContentParser.skipBlank bs)

end Folio.Pdf
