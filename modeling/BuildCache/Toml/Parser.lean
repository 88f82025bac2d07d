import BuildCache.Toml.Number

/-! # Reading TOML documents -/
namespace BuildCache.Toml

/-- How deep arrays and inline tables may be nested, and how many parts a key may have. -/
def nestingLimit : Nat := 79

def key : (parts : Nat) → List Char → Option (Key × List Char)
  | 0, _ => none
  | parts + 1, cs => do
    let (name, rest) ← keyPart cs
    match rest with
    | '.' :: rest => do
      let (k, rest) ← key parts rest
      pure (⟨name :: k.parents, k.name⟩, rest)
    | rest => pure (⟨[], name⟩, rest)

/-- A value that holds no further values. -/
def scalar (cs : List Char) : Option (Toml × List Char) :=
  match cs with
  | 't' :: 'r' :: 'u' :: 'e' :: rest => some (.bool true, rest)
  | 'f' :: 'a' :: 'l' :: 's' :: 'e' :: rest => some (.bool false, rest)
  | '"' :: _ | '\'' :: _ => (string cs).map fun (s, rest) => (.text s, rest)
  | _ => moment? cs <|> float? cs <|> integer? cs

/-- The rest of an array behind its opening bracket; a comma may follow the last item. -/
def items (item : List Char → Option (Toml × List Char)) : (fuel : Nat) → List Char →
    Option (List Toml × List Char)
  | 0, _ => none
  | fuel + 1, cs =>
    match skipFiller (cs.length + 1) cs with
    | ']' :: rest => some ([], rest)
    | cs => do
      let (v, rest) ← item cs
      match skipFiller (rest.length + 1) rest with
      | ',' :: rest => do
        let (vs, rest) ← items item fuel rest
        pure (v :: vs, rest)
      | ']' :: rest => pure ([v], rest)
      | _ => none

def pair (item : List Char → Option (Toml × List Char)) (cs : List Char) : Option ((Key × Toml) × List Char) := do
  let (k, rest) ← key nestingLimit cs
  let (v, rest) ← item (skipSpace (← pass '=' rest))
  pure ((k, v), rest)

/-- The rest of an inline table up to its closing brace, which follows no comma. -/
def pairs (item : List Char → Option (Toml × List Char)) : (fuel : Nat) → List Char →
    Option (List (Key × Toml) × List Char)
  | 0, _ => none
  | fuel + 1, cs => do
    let (p, rest) ← pair item cs
    match skipSpace rest with
    | ',' :: rest => do
      let (ps, rest) ← pairs item fuel rest
      pure (p :: ps, rest)
    | '}' :: rest => pure ([p], rest)
    | _ => none

/-- A value with arrays and tables nested at most so deep. -/
def value : (nesting : Nat) → List Char → Option (Toml × List Char)
  | nesting + 1, '[' :: rest => do
    let (vs, rest) ← items (value nesting) (rest.length + 1) rest
    pure (.array vs, rest)
  | nesting + 1, '{' :: rest => do
    let (ps, rest) ← match skipSpace rest with
      | '}' :: rest => some ([], rest)
      | rest => pairs (value nesting) (rest.length + 1) rest
    pure (← ofPairs? ps, rest)
  | _, cs => scalar cs

def line : List Char → Option (Line × List Char)
  | '[' :: '[' :: rest => do
    let (k, rest) ← key nestingLimit rest
    pure (.element k, ← lineEnd (← pass ']' (← pass ']' rest)))
  | '[' :: rest => do
    let (k, rest) ← key nestingLimit rest
    pure (.header k, ← lineEnd (← pass ']' rest))
  | cs =>
    match lineEnd cs with
    | some rest => some (.blank, rest)
    | none => do
      let ((k, v), rest) ← pair (value nestingLimit) cs
      pure (.pair k v, ← lineEnd rest)

def lines : (fuel : Nat) → List Char → Option (List Line)
  | 0, _ => none
  | fuel + 1, cs =>
    match skipSpace cs with
    | [] => some []
    | cs => do
      let (l, rest) ← line cs
      pure (l :: (← lines fuel rest))

/-- Reads a document; a byte order mark in front of it is passed over. -/
def parse? (s : String) : Option Toml :=
  let cs := match s.toList with
    | '\uFEFF' :: cs => cs
    | cs => cs
  lines (cs.length + 1) cs >>= ofLines?

end BuildCache.Toml
