/-! # TOML documents: values, and tables with what may still be added to them -/
namespace BuildCache

/-- How a table came about: between braces, by its own header, by the header of a table in it, or by a
dotted key. -/
inductive Toml.Origin
  | inline
  | header
  | implied
  | dotted
  deriving DecidableEq

inductive Toml
  | text (s : String)
  | integer (n : Int)
  | float
  | bool (b : Bool)
  /-- A date, a time or both, in normal form. -/
  | moment (written : String)
  | array (items : List Toml)
  | table (origin : Toml.Origin) (entries : List (String × Toml))
  /-- The tables under a header in double brackets. -/
  | elements (tables : List Toml)

namespace Toml

abbrev Entries := List (String × Toml)

/-- A dotted key: the tables that it goes through, and the name in the last of them. -/
structure Key where
  parents : List String
  name : String
  deriving DecidableEq

/-- Binds a name, in the place of its old value if it has one. -/
def bind (name : String) (value : Toml) : Entries → Entries
  | [] => [(name, value)]
  | e :: rest => if e.1 = name then (name, value) :: rest else e :: bind name value rest

/-- Whether keys that open tables by `opening` may pass through a table. -/
def Origin.admits (opening : Origin) : Origin → Bool
  | .inline => false
  | .header => opening ≠ .dotted
  | .implied | .dotted => true

/-- Changes the table at the end of a path; tables missing on the way are opened, and of several elements
the last one is meant. -/
def alter (opening : Origin) (change : Origin → Entries → Option Toml) : (path : List String) → Toml → Option Toml
  | [], .table origin entries => change origin entries
  | name :: path, .table origin entries => do
    let changed ← match (entries.lookup name).getD (.table opening []) with
      | .elements tables => do
        pure (.elements (tables.dropLast ++ [← alter opening change path (← tables.getLast?)]))
      | .table o below => if opening.admits o then alter opening change path (.table o below) else none
      | _ => none
    pure (.table origin (bind name changed entries))
  | _, _ => none

/-- Binds a new name. A key with dots may end only in a table that such keys opened, any other key
only in one that they did not open. -/
def bindNew (k : Key) (value : Toml) (origin : Origin) (entries : Entries) : Option Toml :=
  if (origin = .dotted ↔ k.parents ≠ []) ∧ (entries.lookup k.name).isNone then
    some (.table origin (entries ++ [(k.name, value)]))
  else none

def insert (t : Toml) (k : Key) (value : Toml) : Option Toml :=
  t.alter .dotted (bindNew k value) k.parents

/-- The table between braces that holds these pairs. -/
def ofPairs? (pairs : List (Key × Toml)) : Option Toml :=
  pairs.foldlM (fun t p => t.insert p.1 p.2) (.table .inline [])

/-- A table under its own header, which it may have once. -/
def openTable (name : String) (origin : Origin) (entries : Entries) : Option Toml :=
  match entries.lookup name with
  | none => some (.table origin (bind name (.table .header []) entries))
  | some (.table .implied below) => some (.table origin (bind name (.table .header below) entries))
  | some _ => none

/-- A further element under a header in double brackets. -/
def openElement (name : String) (origin : Origin) (entries : Entries) : Option Toml :=
  match entries.lookup name with
  | none => some (.table origin (bind name (.elements [.table .header []]) entries))
  | some (.elements tables) =>
    some (.table origin (bind name (.elements (tables ++ [.table .header []])) entries))
  | some _ => none

inductive Line
  | blank
  | header (k : Key)
  | element (k : Key)
  | pair (k : Key) (value : Toml)

/-- A document up to some line, with the path of the table that pairs go to. -/
structure Draft where
  root : Toml
  current : List String

def Draft.add (d : Draft) : Line → Option Draft
  | .blank => some d
  | .header k => do
    pure ⟨← d.root.alter .implied (openTable k.name) k.parents, k.parents ++ [k.name]⟩
  | .element k => do
    pure ⟨← d.root.alter .implied (openElement k.name) k.parents, k.parents ++ [k.name]⟩
  | .pair k value => do
    pure { d with root := ← d.root.alter .implied (fun o es => insert (.table o es) k value) d.current }

/-- The table of a document given by its lines. -/
def ofLines? (lines : List Line) : Option Toml :=
  (lines.foldlM Draft.add ⟨.table .header [], []⟩).map (·.root)

end Toml
end BuildCache
