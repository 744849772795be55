/-
  ExternalSort.Disk.Path

  File paths: names separated by slashes, absolute or relative.

  A path keeps the text it was given, which messages show. The pieces between
  its slashes are steps: a name goes down, two dots go up, and one dot stays,
  but like the others it can be taken from a directory only. Empty pieces mean
  nothing, except that a path which ends in a slash asks for a directory.
-/

namespace ExternalSort

/-- A name in a directory. -/
abbrev Name := List Char

/-- A path as it was written. -/
structure Path where
  text : String
deriving DecidableEq, Repr, Inhabited

namespace Path

/-- The pieces of a text between slashes; there is always at least one. -/
def splitSlash : List Char → List Name
  | [] => [[]]
  | c :: rest =>
    if c = '/' then [] :: splitSlash rest
    else match splitSlash rest with
      | first :: more => (c :: first) :: more
      | [] => [[c]]

/-- The step that stays in a directory. -/
def here : Name := ['.']

/-- The step to the parent of a directory. -/
def up : Name := ['.', '.']

/-- The pieces of a path. -/
def pieces (p : Path) : List Name := splitSlash p.text.toList

/-- The steps of a path, in order. -/
def steps (p : Path) : List Name := p.pieces.filter (· ≠ [])

/-- Whether a piece names something. -/
def isName (piece : Name) : Bool := piece ≠ [] && piece ≠ here

/-- The names of a path, in order. -/
def names (p : Path) : List Name := p.pieces.filter isName

/-- Whether the path starts at the root. -/
def isAbsolute (p : Path) : Bool := p.text.toList.head? == some '/'

/-- Whether the path is empty. -/
def isEmpty (p : Path) : Bool := p.text.isEmpty

/-- Whether the path ends in a slash, and so asks for a directory. -/
def endsInSlash (p : Path) : Bool := p.text.toList.getLast? == some '/'

/-- The last name of a path, or nothing if it leads upwards. -/
def fileName (p : Path) : String :=
  match p.names.getLast? with
  | some name => if name = up then "" else String.ofList name
  | none => ""

/-! ## Going up

A path is taken apart here with its last piece in front. -/

/-- Whether a piece, with those before it, is where a path ends. A dot is so only at the start. -/
def isEnd (piece : Name) (before : List Name) : Bool :=
  isName piece || (before.isEmpty && piece ≠ [])

/-- The pieces of a path without those behind its end. -/
def dropToEnd : List Name → List Name
  | [] => []
  | piece :: before => if isEnd piece before then piece :: before else dropToEnd before

/-- The path of the given pieces. -/
def ofPieces (pieces : List Name) : Path := ⟨String.ofList (['/'].intercalate pieces.reverse)⟩

/-- The pieces above the end of a path, if it has an end. -/
def above? (p : Path) : Option (List Name) :=
  match dropToEnd p.pieces.reverse with
  | [] => none
  | _ :: before => some before

/-! ## Going down -/

/-- A path inside a directory; an absolute path stands for itself. -/
def join (dir name : Path) : Path :=
  if name.isAbsolute then name
  else if dir.isEmpty then name
  else if dir.text.toList.getLast? = some '/' then ⟨dir.text ++ name.text⟩
  else ⟨dir.text ++ "/" ++ name.text⟩

end Path
end ExternalSort
