/-
  ExternalSort.Text.Unstyled

  A text as it is printed where there is no terminal: without control
  sequences and without control characters other than blanks.

  A sequence begins with the escape character. What ends it depends on its
  kind. Blank control characters are printed also within a sequence; what
  follows them is printed, too, until the next character that is not printable,
  and from there on the sequence goes on.
-/

namespace ExternalSort

/-- The kinds of control sequences, each at a stage of its own. -/
inductive ControlSequence
  /-- Behind the escape character. -/
  | escape
  /-- Behind the escape character and characters that announce a longer sequence. -/
  | announced
  /-- A sequence that a letter ends. -/
  | control
  /-- A command for the system, which a bell ends. -/
  | system
  /-- A device control string before its data: behind its start, its numbers or its marks. -/
  | deviceStart
  | deviceNumbers
  | deviceMarks
  /-- The data of a device control string or of another string, which a terminator ends. -/
  | data
deriving DecidableEq, Repr

namespace ControlSequence

/-- The byte that ends the data of a string. It may be any byte of a longer character. -/
def terminator : UInt8 := 0x9C

/-- Whether a character has the terminator in its UTF-8 form. -/
def holdsTerminator (c : Char) : Bool := c.toString.toUTF8.data.contains terminator

/-- Whether a code lies between two others. -/
def within (low high : Nat) (c : Char) : Bool := low ≤ c.toNat && c.toNat ≤ high

/-- The sequence that goes on behind a character that is not a control character, if one does. -/
def next (c : Char) : ControlSequence → Option ControlSequence
  | escape =>
    if c = '[' then some control
    else if c = ']' then some system
    else if c = 'P' then some deviceStart
    else if c = 'X' ∨ c = '^' ∨ c = '_' then some data
    else if within 0x20 0x2F c then some announced
    else if within 0x30 0x7E c then none
    else some escape
  | announced => if within 0x30 0x7E c then none else some announced
  | control => if within 0x40 0x7E c then none else some control
  | system => some system
  | deviceStart =>
    if within 0x20 0x2F c then some deviceMarks
    else if within 0x30 0x3F c then some deviceNumbers
    else if within 0x40 0x7E c then some data
    else some deviceStart
  | deviceNumbers =>
    if within 0x20 0x2F c then some deviceMarks
    else if within 0x3C 0x7E c then some data
    else some deviceNumbers
  | deviceMarks => if within 0x30 0x7E c then some data else some deviceMarks
  | data => if holdsTerminator c then none else some data

/-- Whether blank control characters are printed within a sequence. -/
def printsBlanks : ControlSequence → Bool
  | escape | announced | control => true
  | _ => false

end ControlSequence

/-- A place in a text: the sequence that is not ended, if there is one, and whether text is printed
    nevertheless. -/
structure Unstyling where
  sequence : Option ControlSequence := none
  printing : Bool := false

namespace Unstyling

/-- Whether a control character is a blank. -/
def isBlankControl (c : Char) : Bool := c = '\t' || c = '\n' || c = '\x0c' || c = '\r'

/-- Whether a character is a control character of ASCII. -/
def isControl (c : Char) : Bool := c.toNat < 0x20 || c = '\x7f'

/-- Reads a character: whether it is printed, and the place behind it. -/
def step (place : Unstyling) (c : Char) : Bool × Unstyling :=
  if c = '\x1b' then (false, { sequence := some .escape })
  else if c = '\x18' ∨ c = '\x1a' then (false, {})
  else if isControl c then
    let blank := isBlankControl c &&
      (place.printing || (place.sequence.map (·.printsBlanks)).getD true)
    if blank then (true, { place with printing := true })
    else if place.sequence = some .system ∧ c = '\x07' then (false, {})
    else (false, { place with printing := false })
  else
    match place.printing, place.sequence with
    | false, some sequence => (false, { sequence := sequence.next c })
    | _, _ =>
      (true, if c.toNat < 0x80 then { place with printing := true } else { printing := true })

/-- The characters that are printed from a place on. -/
def printed (place : Unstyling) : List Char → List Char
  | [] => []
  | c :: rest =>
    let (shown, place) := place.step c
    if shown then c :: printed place rest else printed place rest

end Unstyling

/-- A text without control sequences. -/
def unstyled (text : String) : String := String.ofList (Unstyling.printed {} text.toList)

end ExternalSort
