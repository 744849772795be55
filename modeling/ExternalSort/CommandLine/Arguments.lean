/-
  ExternalSort.CommandLine.Arguments

  The arguments of the command line.

  An option takes its value after an equals sign or from the next argument. A
  value in the next argument must not begin with a dash (a lone dash may), and
  it is looked at only when the next known option or the input comes, or at the
  end. No option may be given twice. The first thing wrong decides.
-/

import ExternalSort.CommandLine.Size

namespace ExternalSort

/-- What the lines are sorted as. -/
inductive KeyType
  | number
  | bytes
deriving DecidableEq, Repr, Inhabited

/-- What the command line asks for. -/
structure Arguments where
  input : Option String := none
  keyType : KeyType := .bytes
  descending : Bool := false
  limit : UInt64 := 0
  memoryBudget : UInt64 := 67108864
  spillDirectory : Option String := none
  noSpill : Bool := false
  persistTo : Option String := none
  resumeFrom : Option String := none
  showStatistics : Bool := false
deriving DecidableEq, Repr, Inhabited

namespace Arguments

/-- Options with a value. -/
inductive ValueOption
  | keyType
  | limit
  | memoryBudget
  | spillDirectory
  | persistTo
  | resumeFrom
deriving DecidableEq, Repr

/-- Options without a value. -/
inductive Switch
  | descending
  | noSpill
  | statistics
  | help (full : Bool)
  | version
deriving DecidableEq, Repr

/-- How arguments can end the reading of the command line. -/
inductive Stop
  | help (full : Bool)
  | version
  /-- The arguments make no sense. -/
  | usage
  /-- The memory budget is no size. -/
  | badSize (value : String) (fault : Size.Fault)
deriving DecidableEq, Repr

/-- The option with a given name. -/
def valueOption? : String → Option ValueOption
  | "key-type" => some .keyType
  | "limit" => some .limit
  | "max-memory" => some .memoryBudget
  | "temp-dir" => some .spillDirectory
  | "persist-to" => some .persistTo
  | "resume-from" => some .resumeFrom
  | _ => none

/-- The switch with a given name. -/
def switch? : String → Option Switch
  | "descending" => some .descending
  | "no-external" => some .noSpill
  | "stats" => some .statistics
  | "help" => some (.help true)
  | "version" => some .version
  | _ => none

/-- The state of reading: what was asked for, which options were given, and an option that waits
    for its value (`none`) or for its value to be looked at. -/
structure Reading where
  arguments : Arguments := {}
  values : List ValueOption := []
  switches : List Switch := []
  waiting : Option (ValueOption × Option String) := none

/-- A path must not be empty. -/
def path (value : String) : Except Stop (Option String) :=
  if value.isEmpty then .error .usage else .ok (some value)

/-- Sets an option to a value. -/
def setValue (a : Arguments) (option : ValueOption) (value : String) : Except Stop Arguments :=
  match option with
  | .keyType =>
    if value = "u64" then .ok { a with keyType := .number }
    else if value = "bytes" then .ok { a with keyType := .bytes }
    else .error .usage
  | .limit =>
    match Decimal.read UInt64.size value.toList with
    | .ok n => .ok { a with limit := UInt64.ofNat n }
    | .error _ => .error .usage
  | .memoryBudget =>
    match Size.read value with
    | .ok n => .ok { a with memoryBudget := n }
    | .error fault => .error (.badSize value fault)
  | .spillDirectory => do return { a with spillDirectory := ← path value }
  | .persistTo => do return { a with persistTo := ← path value }
  | .resumeFrom => do return { a with resumeFrom := ← path value }

/-- Gives an option its value. -/
def giveValue (r : Reading) (option : ValueOption) (value : String) : Except Stop Reading := do
  if r.values.contains option then throw .usage
  return { r with arguments := ← setValue r.arguments option value, values := option :: r.values }

/-- Looks at the value of the option that waits, if one does. -/
def settle (r : Reading) : Except Stop Reading :=
  match r.waiting with
  | none => .ok r
  | some (_, none) => .error .usage
  | some (option, some value) => giveValue { r with waiting := none } option value

/-- Turns a switch on. -/
def turnOn (r : Reading) (switch : Switch) : Except Stop Reading := do
  let r ← settle r
  match switch with
  | .help full => throw (.help full)
  | .version => throw .version
  | _ =>
    if r.switches.contains switch then throw .usage
    let a := r.arguments
    let a := match switch with
      | .descending => { a with descending := true }
      | .noSpill => { a with noSpill := true }
      | .statistics => { a with showStatistics := true }
      | _ => a
    return { r with arguments := a, switches := switch :: r.switches }

/-- Takes the input file. -/
def takeInput (r : Reading) (value : String) : Except Stop Reading := do
  -- a second input is found out before the value that waits is looked at
  if r.arguments.input.isSome then throw .usage
  let r ← settle r
  return { r with arguments := { r.arguments with input := ← path value } }

/-- Takes an argument behind two dashes: a name, and a value behind an equals sign. -/
def takeLong (r : Reading) (text : List Char) : Except Stop Reading := do
  let name := String.ofList (text.takeWhile (· != '='))
  let value : Option String :=
    if text.contains '=' then some (String.ofList ((text.dropWhile (· != '=')).drop 1)) else none
  match valueOption? name, switch? name, value with
  | some option, _, some value => giveValue (← settle r) option value
  | some option, _, none => return { ← settle r with waiting := some (option, none) }
  | none, some switch, none => turnOn r switch
  | _, _, _ => throw .usage

/-- Takes an argument behind one dash. -/
def takeShort (r : Reading) (text : List Char) : Except Stop Reading :=
  match text.head? with
  | some 'h' => turnOn r (.help false)
  | some 'V' => turnOn r .version
  | _ => .error .usage

/-- Reads arguments, first to last; after two lone dashes every argument is an input. -/
def readFrom (r : Reading) (inputsOnly : Bool) : List String → Except Stop Arguments
  | [] => do return (← settle r).arguments
  | argument :: rest => do
    match inputsOnly, argument.toList with
    | false, ['-', '-'] => readFrom r true rest
    | false, '-' :: '-' :: text => readFrom (← takeLong r text) false rest
    | false, '-' :: c :: text => readFrom (← takeShort r (c :: text)) false rest
    | _, _ =>
      -- an option that waits for its value takes the argument, else it is the input
      match inputsOnly, r.waiting with
      | false, some (option, none) =>
        readFrom { r with waiting := some (option, some argument) } false rest
      | _, _ => readFrom (← takeInput r argument) inputsOnly rest

/-- Reads the command line. -/
def read (arguments : List String) : Except Stop Arguments := readFrom {} false arguments

end Arguments
end ExternalSort
