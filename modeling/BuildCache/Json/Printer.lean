import BuildCache.Json.Basic
import BuildCache.Hex

/-! # Writing JSON text, on one line or indented by two blanks a level -/
namespace BuildCache.Json

def unitEscape (n : Nat) : List Char := '\\' :: 'u' :: (Hex.ofNat 4 n).toList

/-- Quotes, backslashes and control characters are escaped, and nothing else. -/
def escape (c : Char) : List Char :=
  match c with
  | '"' => ['\\', '"']
  | '\\' => ['\\', '\\']
  | '\x08' => ['\\', 'b']
  | '\x0c' => ['\\', 'f']
  | '\n' => ['\\', 'n']
  | '\r' => ['\\', 'r']
  | '\t' => ['\\', 't']
  | c => if c.toNat < 0x20 then unitEscape c.toNat else [c]

def writePieces (ps : List Piece) : List Char :=
  '"' :: (ps.flatMap fun | .char c => escape c | .half n => unitEscape n) ++ ['"']

def writeNumeral (n : Numeral) : List Char :=
  (if n.negative then ['-'] else []) ++ Nat.toDigits 10 n.whole
    ++ (n.fraction.elim [] ('.' :: ·)) ++ (n.exponent.elim [] ('e' :: ·))

/-- Where line breaks go: nowhere, or before every item at its depth. -/
inductive Layout
  | compact
  | indented (depth : Nat)

def Layout.deeper : Layout → Layout
  | .compact => .compact
  | .indented d => .indented (d + 1)

def Layout.lineBreak : Layout → List Char
  | .compact => []
  | .indented d => '\n' :: List.replicate (2 * d) ' '

def Layout.colon : Layout → List Char
  | .compact => [':']
  | .indented _ => [':', ' ']

/-- Items between brackets, each on its own line if the layout breaks lines. -/
def bracket (l : Layout) (opening closing : Char) : List (List Char) → List Char
  | [] => [opening, closing]
  | first :: rest => opening :: l.deeper.lineBreak ++ first
      ++ (rest.flatMap fun item => ',' :: l.deeper.lineBreak ++ item) ++ l.lineBreak ++ [closing]

mutual

def write (l : Layout) : Json → List Char
  | .null => ['n', 'u', 'l', 'l']
  | .bool true => ['t', 'r', 'u', 'e']
  | .bool false => ['f', 'a', 'l', 's', 'e']
  | .number n => writeNumeral n
  | .string ps => writePieces ps
  | .array vs => bracket l '[' ']' (writeItems l.deeper vs)
  | .object ms => bracket l '{' '}' (writeMembers l.deeper ms)

def writeItems (l : Layout) : List Json → List (List Char)
  | [] => []
  | v :: vs => write l v :: writeItems l vs

def writeMembers (l : Layout) : List (List Piece × Json) → List (List Char)
  | [] => []
  | (name, v) :: ms => (writePieces name ++ l.colon ++ write l v) :: writeMembers l ms

end

def compact (j : Json) : String := String.ofList (write .compact j)
def pretty (j : Json) : String := String.ofList (write (.indented 0) j)

end BuildCache.Json
