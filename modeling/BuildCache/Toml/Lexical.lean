/-! # TOML text below the level of values: blanks, line ends, keys' and strings' characters, digits -/
namespace BuildCache.Toml

def isSpace (c : Char) : Bool := c = ' ' || c = '\t'

def skipSpace (cs : List Char) : List Char := cs.dropWhile isSpace

/-- All but control characters; the tab is none. -/
def isPrintable (c : Char) : Bool := c = '\t' || (0x20 ≤ c.toNat && c.toNat ≠ 0x7F)

def lineBreak : List Char → Option (List Char)
  | '\n' :: rest | '\r' :: '\n' :: rest => some rest
  | _ => none

def skipComment : List Char → List Char
  | '#' :: rest => rest.dropWhile isPrintable
  | cs => cs

/-- Passes blanks, a comment and the line break, which may be missing at the end of the text. -/
def lineEnd (cs : List Char) : Option (List Char) :=
  match skipComment (skipSpace cs) with
  | [] => some []
  | cs => lineBreak cs

def skipBlank : List Char → List Char
  | ' ' :: rest | '\t' :: rest | '\n' :: rest | '\r' :: '\n' :: rest => skipBlank rest
  | cs => cs

/-- Passes comments within an array, and what is around them; `fuel` bounds their number. -/
def skipFiller : (fuel : Nat) → List Char → List Char
  | 0, cs => cs
  | fuel + 1, cs =>
    match skipBlank cs with
    | '#' :: rest => skipFiller fuel (rest.dropWhile isPrintable)
    | cs => cs

def isDigit (c : Char) : Bool := '0' ≤ c && c ≤ '9'

def digitValue (c : Char) : Nat :=
  if isDigit c then c.toNat - 48 else if 'a' ≤ c then c.toNat - 87 else c.toNat - 55

def isHexDigit (c : Char) : Bool := isDigit c || ('a' ≤ c && c ≤ 'f') || ('A' ≤ c && c ≤ 'F')

def toNumber (base : Nat) (ds : List Char) : Nat := ds.foldl (fun n c => base * n + digitValue c) 0

def isKeyChar (c : Char) : Bool :=
  isDigit c || ('a' ≤ c && c ≤ 'z') || ('A' ≤ c && c ≤ 'Z') || c = '-' || c = '_'

def shortEscape? : Char → Option Char
  | 'b' => some '\x08'
  | 'f' => some '\x0c'
  | 'n' => some '\n'
  | 'r' => some '\r'
  | 't' => some '\t'
  | '"' => some '"'
  | '\\' => some '\\'
  | _ => none

/-- The character of a code point given by hex digits. -/
def codePoint? (ds : List Char) : Option Char :=
  if ds.all isHexDigit then
    let n := toNumber 16 ds
    if n.isValidChar then some (Char.ofNat n) else none
  else none

def escaped : List Char → Option (Char × List Char)
  | 'u' :: a :: b :: c :: d :: rest => (codePoint? [a, b, c, d]).map (·, rest)
  | 'U' :: a :: b :: c :: d :: e :: f :: g :: h :: rest => (codePoint? [a, b, c, d, e, f, g, h]).map (·, rest)
  | c :: rest => (shortEscape? c).map (·, rest)
  | [] => none

/-- The rest of a string on one line, behind its opening quote. -/
def basicString : (fuel : Nat) → List Char → Option (List Char × List Char)
  | 0, _ | _, [] => none
  | _, '"' :: rest => some ([], rest)
  | fuel + 1, '\\' :: rest => do
    let (c, rest) ← escaped rest
    let (cs, rest) ← basicString fuel rest
    pure (c :: cs, rest)
  | fuel + 1, c :: rest => do
    let (cs, rest) ← if isPrintable c then basicString fuel rest else none
    pure (c :: cs, rest)

def literalString : List Char → Option (List Char × List Char)
  | [] => none
  | '\'' :: rest => some ([], rest)
  | c :: rest => do
    let (cs, rest) ← if isPrintable c then literalString rest else none
    pure (c :: cs, rest)

/-- The end of a string on many lines: the last three of three to five quotes. -/
def closing (quote : Char) (cs : List Char) : Option (List Char × List Char) :=
  let quotes := cs.takeWhile (· = quote)
  if 3 ≤ quotes.length ∧ quotes.length ≤ 5 then some (quotes.drop 3, cs.dropWhile (· = quote)) else none

/-- A line break behind a backslash and blanks, with all blanks and line breaks behind it. -/
def continuation (cs : List Char) : Option (List Char) := (lineBreak (skipSpace cs)).map skipBlank

/-- The rest of a string on many lines, behind its opening quotes. Every line break reads as a line feed. -/
def longString (quote : Char) (escapes : Bool) : (fuel : Nat) → List Char → Option (List Char × List Char)
  | 0, _ | _, [] => none
  | fuel + 1, c :: rest =>
    let next (cs : List Char) (rest : List Char) : Option (List Char × List Char) := do
      let (more, rest) ← longString quote escapes fuel rest
      pure (cs ++ more, rest)
    if [quote, quote, quote].isPrefixOf (c :: rest) then closing quote (c :: rest)
    else
      match lineBreak (c :: rest) with
      | some rest => next ['\n'] rest
      | none =>
        if c = '\\' && escapes then
          match continuation rest with
          | some rest => next [] rest
          | none => do
            let (e, rest) ← escaped rest
            next [e] rest
        else if isPrintable c then next [c] rest
        else none

/-- A line break right behind the opening quotes belongs to them. -/
def skipFirstBreak (cs : List Char) : List Char := (lineBreak cs).getD cs

def string (cs : List Char) : Option (String × List Char) :=
  let fuel := cs.length + 1
  let result := match cs with
    | '"' :: '"' :: '"' :: rest => longString '"' true fuel (skipFirstBreak rest)
    | '\'' :: '\'' :: '\'' :: rest => longString '\'' false fuel (skipFirstBreak rest)
    | '"' :: rest => basicString fuel rest
    | '\'' :: rest => literalString rest
    | _ => none
  result.map fun (cs, rest) => (String.ofList cs, rest)

def keyPart (cs : List Char) : Option (String × List Char) :=
  match skipSpace cs with
  | '"' :: rest => (basicString (rest.length + 1) rest).map fun (cs, rest) => (String.ofList cs, skipSpace rest)
  | '\'' :: rest => (literalString rest).map fun (cs, rest) => (String.ofList cs, skipSpace rest)
  | cs =>
    match cs.takeWhile isKeyChar with
    | [] => none
    | name => some (String.ofList name, skipSpace (cs.dropWhile isKeyChar))

end BuildCache.Toml
