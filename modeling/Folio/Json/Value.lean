import Folio.Decimal.Binary

/-!
Data values: the raw markup, its attribute maps and the metadata of a document. A map is an
association list in the order of its keys' bytes, each key once; `Fields.insert` keeps it so.
Equality is structural, numbers of one kind comparing by value.
-/
namespace Folio

/-- Whole numbers stay whole as far as 64 bits reach; every other number is a double. -/
inductive Number where
  | whole (n : UInt64)
  | negative (n : Int64)
  | real (x : Float)

inductive Json where
  | null
  | bool (b : Bool)
  | number (n : Number)
  | string (s : String)
  | array (items : List Json)
  | object (fields : List (String × Json))

/-- The entries of a map, in the order of their keys. -/
abbrev Fields := List (String × Json)

namespace Number

def beq : Number → Number → Bool
  | whole m, whole n => m == n
  | negative m, negative n => m == n
  | real x, real y => x == y
  | _, _ => false

instance : BEq Number := ⟨beq⟩

def toFloat : Number → Float
  | whole n => n.toFloat
  | negative n => if n < 0 then -(-n).toUInt64.toFloat else n.toUInt64.toFloat
  | real x => x

/-- The number as a count, if it is a whole number that is not negative. -/
def toCount? : Number → Option Nat
  | whole n => some n.toNat
  | _ => none

/-- The 64 bits that stand for a number, whatever its kind. -/
def pattern : Number → UInt64
  | whole n => n
  | negative n => n.toUInt64
  | real x => x.toBits

def ofNat (n : Nat) : Number := whole n.toUInt64

end Number

namespace Json

mutual

def beq : Json → Json → Bool
  | null, null => true
  | bool a, bool b => a == b
  | number m, number n => m == n
  | string s, string t => s == t
  | array xs, array ys => beqItems xs ys
  | object fs, object gs => beqFields fs gs
  | _, _ => false

def beqItems : List Json → List Json → Bool
  | [], [] => true
  | x :: xs, y :: ys => beq x y && beqItems xs ys
  | _, _ => false

def beqFields : List (String × Json) → List (String × Json) → Bool
  | [], [] => true
  | (k, x) :: fs, (l, y) :: gs => k == l && beq x y && beqFields fs gs
  | _, _ => false

end

instance : BEq Json := ⟨beq⟩
instance : Inhabited Json := ⟨null⟩

mutual

/-- How many arrays and maps stand inside each other. -/
def depth : Json → Nat
  | array items => depthItems items + 1
  | object fields => depthFields fields + 1
  | _ => 0

def depthItems : List Json → Nat
  | [] => 0
  | x :: xs => max (depth x) (depthItems xs)

def depthFields : List (String × Json) → Nat
  | [] => 0
  | (_, x) :: fs => max (depth x) (depthFields fs)

end

def asString? : Json → Option String
  | string s => some s
  | _ => none

def asNumber? : Json → Option Number
  | number n => some n
  | _ => none

def asCount? : Json → Option Nat
  | number n => n.toCount?
  | _ => none

def asFields? : Json → Option Fields
  | object fs => some fs
  | _ => none

def asItems? : Json → Option (List Json)
  | array items => some items
  | _ => none

def isArray : Json → Bool
  | array _ => true
  | _ => false

def isObject : Json → Bool
  | object _ => true
  | _ => false

def isNumber : Json → Bool
  | number _ => true
  | _ => false

def ofNat (n : Nat) : Json := number (.ofNat n)

end Json

namespace Fields

def get? (key : String) : Fields → Option Json
  | [] => none
  | (k, v) :: rest => if k == key then some v else get? key rest

def contains (key : String) (fs : Fields) : Bool := (get? key fs).isSome

/-- Writes `value` under `key`, over an entry of that key if there is one. -/
def insert (key : String) (value : Json) : Fields → Fields
  | [] => [(key, value)]
  | (k, v) :: rest =>
    if key == k then (key, value) :: rest
    else if key < k then (key, value) :: (k, v) :: rest
    else (k, v) :: insert key value rest

def erase (key : String) (fs : Fields) : Fields :=
  fs.filter fun entry => entry.1 != key

/-- Inserts entries in turn, so that of two with one key the later stays. -/
def ofList (entries : List (String × Json)) : Fields :=
  entries.foldl (fun fs entry => insert entry.1 entry.2 fs) []

/-- Keys in strictly rising order: the form `ofList` builds. -/
def Sorted (fs : Fields) : Prop :=
  fs.Pairwise fun a b => a.1 < b.1

@[simp] theorem get?_nil (key : String) : get? key [] = none := rfl

theorem get?_cons (key k : String) (v : Json) (rest : Fields) :
    get? key ((k, v) :: rest) = if k == key then some v else get? key rest := rfl

@[simp] theorem get?_insert_self (key : String) (value : Json) (fs : Fields) :
    get? key (insert key value fs) = some value := by
  induction fs with
  | nil => simp [insert, get?]
  | cons entry rest ih =>
    obtain ⟨k, v⟩ := entry
    simp only [insert]
    split
    · simp [get?]
    · split
      · simp [get?]
      · rename_i hne _
        have hk : ¬ k = key := fun h => hne (by simp [h])
        simp [get?, hk, ih]

theorem get?_insert_of_ne {key other : String} (h : other ≠ key) (value : Json) (fs : Fields) :
    get? other (insert key value fs) = get? other fs := by
  induction fs with
  | nil => simp [insert, get?, Ne.symm h]
  | cons entry rest ih =>
    obtain ⟨k, v⟩ := entry
    simp only [insert]
    split
    · rename_i hk
      have : key = k := by simpa using hk
      subst this
      simp [get?, Ne.symm h]
    · split
      · simp [get?, Ne.symm h]
      · simp only [get?, ih]

end Fields

end Folio
