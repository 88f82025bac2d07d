import BuildCache.Bytes

/-! # A file tree, and the calls on it with their failures -/
namespace BuildCache

/-- The names on the way from the root, which is the empty path. -/
abbrev Path := List String

namespace Path

/-- Whether a name between slashes stands for the directory that it is in. -/
def isIdle (name : String) : Bool := name = "" || name = "."

/-- The path of a text that separates names by slashes. -/
def ofText (s : String) : Path := (s.splitOn "/").filter (!isIdle ·)

/-- The text without the idle names at its ends; those within it are kept. -/
def trimText (s : String) : String :=
  "/".intercalate (((s.splitOn "/").dropWhile isIdle).reverse.dropWhile isIdle).reverse

/-- The place that a name leads to: two points step back, and lead out of the root. -/
def step (p : Path) (name : String) : Path :=
  if name = ".." ∧ p.getLast?.getD ".." ≠ ".." then p.dropLast else p ++ [name]

/-- The path without its steps back. -/
def resolve (p : Path) : Path := p.foldl step []

end Path

inductive Node
  | file (content : Bytes)
  | directory
  deriving DecidableEq

/-- Why a call on the tree fails. -/
inductive Fault
  | notFound
  | notDirectory
  | isDirectory
  | refused
  deriving DecidableEq

def Fault.message : Fault → String
  | .notFound => "no such file or directory"
  | .notDirectory => "not a directory"
  | .isDirectory => "is a directory"
  | .refused => "the call was refused"

/-- The nodes below the root; the first binding of a path counts. -/
abbrev Tree := List (Path × Node)

namespace Tree

def node? (t : Tree) (p : Path) : Option Node :=
  if p = [] then some .directory else (t.find? (·.1 = p)).map (·.2)

def isFile (t : Tree) (p : Path) : Bool :=
  match t.node? p with
  | some (.file _) => true
  | _ => false

def isDirectory (t : Tree) (p : Path) : Bool := t.node? p = some .directory

def put (t : Tree) (p : Path) (n : Node) : Tree := (p, n) :: t.filter (·.1 ≠ p)

def erase (t : Tree) (p : Path) : Tree := t.filter (·.1 ≠ p)

/-- Why nothing stands at a path: a file is on the way, or a name is missing. -/
def absence (t : Tree) (p : Path) : Fault :=
  if (List.range p.length).any fun n => t.isFile (p.take n) then .notDirectory else .notFound

def lookup (t : Tree) (p : Path) : Except Fault Node :=
  match t.node? p with
  | some n => .ok n
  | none => .error (t.absence p)

def parent (t : Tree) (p : Path) : Except Fault Unit :=
  match t.lookup p.dropLast with
  | .ok .directory => .ok ()
  | .ok (.file _) => .error .notDirectory
  | .error e => .error e

def read (t : Tree) (p : Path) : Except Fault Bytes :=
  match t.lookup p with
  | .ok (.file content) => .ok content
  | .ok .directory => .error .isDirectory
  | .error e => .error e

/-- Creates or replaces a file in an existing directory. -/
def write (t : Tree) (p : Path) (content : Bytes) : Except Fault Tree := do
  t.parent p
  if t.isDirectory p then .error .isDirectory else .ok (t.put p (.file content))

def removeFile (t : Tree) (p : Path) : Except Fault Tree :=
  match t.lookup p with
  | .ok (.file _) => .ok (t.erase p)
  | .ok .directory => .error .isDirectory
  | .error e => .error e

def rename (t : Tree) (source target : Path) : Except Fault Tree := do
  let content ← t.read source
  t.parent target
  if t.isDirectory target then .error .isDirectory
  else .ok ((t.erase source).put target (.file content))

/-- Makes the directories that are missing on the way to a path, the path and those left again included. -/
def createAlong (t : Tree) : (done rest : Path) → Except Fault Tree
  | _, [] => .ok t
  | done, name :: rest =>
    let p := Path.step done name
    match t.node? p with
    | none => createAlong (t.put p .directory) p rest
    | some .directory => createAlong t p rest
    | some (.file _) => .error .notDirectory

def createDirectories (t : Tree) (p : Path) : Except Fault Tree := t.createAlong [] p

def removeAll (t : Tree) (p : Path) : Tree := t.filter fun e => !(p.isPrefixOf e.1)

def entryName? (directory : Path) (e : Path × Node) : Option (String × Node) :=
  match e.1.getLast? with
  | some name => if e.1.dropLast = directory then some (name, e.2) else none
  | none => none

def list (t : Tree) (p : Path) : Except Fault (List (String × Node)) :=
  match t.lookup p with
  | .ok .directory => .ok ((t.filterMap (entryName? p)).mergeSort fun a b => !(b.1 < a.1))
  | .ok (.file _) => .error .notDirectory
  | .error e => .error e

/-- Every file with its size, and every empty directory with a slash behind its name. -/
def listing (t : Tree) : List (String × Nat) :=
  (t.filterMap fun e =>
    match e.2 with
    | .file content => some ("/".intercalate e.1, content.length)
    | .directory => if t.any (·.1.dropLast = e.1) then none else some ("/".intercalate e.1 ++ "/", 0)).mergeSort
    fun a b => !(b.1 < a.1)

/-- Writes a file and makes the directories on the way to it. -/
def writeDeep (t : Tree) (p : Path) (content : Bytes) : Except Fault Tree := do
  (← t.createDirectories p.dropLast).write p.resolve content

end Tree

/-- A tree whose coming calls may be refused, each by the next entry of a plan; past its end none is. -/
structure Disk where
  tree : Tree
  refusals : List Bool
  deriving DecidableEq

namespace Disk

def empty : Disk := ⟨[], []⟩

/-- A call that changes the tree; a failing call changes nothing. -/
def change (d : Disk) (action : Tree → Except Fault Tree) : Disk × Except Fault Unit :=
  match d.refusals with
  | true :: rest => ({ d with refusals := rest }, .error .refused)
  | refusals =>
    match action d.tree with
    | .ok tree => (⟨tree, refusals.tail⟩, .ok ())
    | .error e => (⟨d.tree, refusals.tail⟩, .error e)

/-- A call that only looks. -/
def look {α : Type} (d : Disk) (action : Tree → Except Fault α) : Disk × Except Fault α :=
  match d.refusals with
  | true :: rest => ({ d with refusals := rest }, .error .refused)
  | refusals => ({ d with refusals := refusals.tail }, action d.tree)

end Disk
end BuildCache
