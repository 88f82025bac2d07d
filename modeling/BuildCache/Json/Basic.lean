/-! # JSON documents, with numerals and string escapes kept as written -/
namespace BuildCache

/-- A piece of a string literal: a character, or half of a surrogate pair given by its escape. -/
inductive Json.Piece
  | char (c : Char)
  | half (unit : Nat)
  deriving DecidableEq

/-- A number as written, without leading zeros in its whole part. -/
structure Json.Numeral where
  negative : Bool
  whole : Nat
  fraction : Option (List Char)
  exponent : Option (List Char)
  deriving DecidableEq

inductive Json
  | null
  | bool (b : Bool)
  | number (n : Json.Numeral)
  | string (pieces : List Json.Piece)
  | array (items : List Json)
  | object (members : List (List Json.Piece × Json))

namespace Json

/-- The text of a literal; a surrogate half without its partner spells nothing. -/
def text? : List Piece → Option (List Char)
  | [] => some []
  | .char c :: rest => (c :: ·) <$> text? rest
  | .half hi :: .half lo :: rest =>
    if 0xD800 ≤ hi ∧ hi ≤ 0xDBFF ∧ 0xDC00 ≤ lo ∧ lo ≤ 0xDFFF then
      (Char.ofNat (0x10000 + (hi - 0xD800) * 0x400 + (lo - 0xDC00)) :: ·) <$> text? rest
    else none
  | .half _ :: _ => none

def pieces (s : String) : List Piece := s.toList.map .char

def ofText (s : String) : Json := .string (pieces s)
def ofNat (n : Nat) : Json := .number ⟨false, n, none, none⟩
def ofMembers (members : List (String × Json)) : Json := .object (members.map fun m => (pieces m.1, m.2))

theorem text?_pieces (cs : List Char) : text? (cs.map .char) = some cs := by
  induction cs with
  | nil => rfl
  | cons c cs ih => simp [text?, ih]

def asText? : Json → Option String
  | .string ps => String.ofList <$> text? ps
  | _ => none

/-- A natural number written without sign, fraction and exponent. -/
def asNat? : Json → Option Nat
  | .number ⟨false, n, none, none⟩ => some n
  | _ => none

/-- A natural number that is at most `limit`. -/
def asNatUpTo? (limit : Nat) (j : Json) : Option Nat :=
  j.asNat?.filter (· ≤ limit)

def asArray? : Json → Option (List Json)
  | .array items => some items
  | _ => none

def readKeys : List (List Piece × Json) → Option (List (String × Json))
  | [] => some []
  | (k, v) :: rest => do
    let name ← text? k
    let rest ← readKeys rest
    pure ((String.ofList name, v) :: rest)

def asMembers? : Json → Option (List (String × Json))
  | .object members => readKeys members
  | _ => none

/-- The one value under a name, nothing when there is none; a repeated name is refused. -/
def unique? (name : String) (members : List (String × Json)) : Option (Option Json) :=
  match members.filter (·.1 = name) with
  | [] => some none
  | [m] => some (some m.2)
  | _ => none

/-- Reads a record by its field names: from an object with any further members, or from an array that
gives the fields in order. -/
def asRecord? (names : List String) : Json → Option (List (Option Json))
  | .array items =>
    if items.length ≤ names.length then some (items.map some ++ List.replicate (names.length - items.length) none)
    else none
  | .object members => do names.mapM (unique? · (← readKeys members))
  | _ => none

end Json
end BuildCache
