/-
  ExternalSort.CommandLine.Usage

  What the command says about itself: its help, short or full, its version, and
  why it refuses arguments.

  The help is laid out from one table of arguments. The short form puts every
  argument on one line, with its description in a second column; the full form
  gives every argument a paragraph.
-/

import ExternalSort.CommandLine.Arguments
import ExternalSort.Text.Unstyled

namespace ExternalSort
namespace Usage

/-- The name of the command. -/
def command : String := "spillsort"

/-- The answer to a question for the version. -/
def version : String := command ++ " 0.1.0\n"

/-! ## The table of arguments -/

/-- An argument as the help shows it. -/
structure Entry where
  /-- How it is written. -/
  form : String
  about : String := ""
  default : Option String := none
  /-- The values it can take, with a description of each, if they can be listed. -/
  choices : List (String × String) := []

/-- The arguments that are not options. -/
def operands : List Entry := [{ form := "[INPUT]", about := "Input file. Reads stdin if omitted" }]

/-- The options. -/
def options : List Entry :=
  [{ form := "    --key-type <KEY_TYPE>"
     default := some "bytes"
     choices :=
      [("u64", "Unsigned 64-bit integers, one per line"),
       ("bytes", "Raw lines compared bytewise")] },
   { form := "    --descending"
     about := "Sort in descending order" },
   { form := "    --limit <LIMIT>"
     about := "Emit only the first N records (0 = all)"
     default := some "0" },
   { form := "    --max-memory <MAX_MEMORY>"
     about := "Memory budget before spilling, e.g. 65536, 512K, 64M"
     default := some "64M" },
   { form := "    --temp-dir <TEMP_DIR>"
     about := "Directory for spill files (defaults to the system temp dir)" },
   { form := "    --no-external"
     about := "Fail instead of spilling when the budget is exceeded" },
   { form := "    --persist-to <PERSIST_TO>"
     about := "Spill everything and write the resumable state here instead of output" },
   { form := "    --resume-from <RESUME_FROM>"
     about := "Resume from a state written by --persist-to before reading input" },
   { form := "    --stats"
     about := "Print sorter statistics to stderr" }]

/-- The options about the command itself; each form of the help points to the other one. -/
def closingOptions (full : Bool) : List Entry :=
  [{ form := "-h, --help"
     about := if full then "Print help (see a summary with '-h')"
      else "Print help (see more with '--help')" },
   { form := "-V, --version"
     about := "Print version" }]

/-! ## Layout -/

/-- The notes on an argument: its description and its default value, where it has them. -/
def remarks (entry : Entry) : List String :=
  (if entry.about.isEmpty then [] else [entry.about]) ++
    entry.default.toList.map fun value => "[default: " ++ value ++ "]"

/-- A text filled up with blanks to a width. -/
def padRight (width : Nat) (text : String) : String :=
  text ++ String.ofList (List.replicate (width - text.length) ' ')

/-- The longest of some texts. -/
def widest (texts : List String) : Nat := (texts.map (·.length)).foldl max 0

/-- An argument on one line. -/
def shortEntry (width : Nat) (entry : Entry) : String :=
  let choices := ", ".intercalate (entry.choices.map (·.1))
  "  " ++ padRight width entry.form ++ "  " ++ " ".intercalate (remarks entry) ++
    (if entry.choices.isEmpty then "" else " [possible values: " ++ choices ++ "]") ++ "\n"

/-- What stands in front of a line of a paragraph. -/
def indent : String := "          "

/-- The list of the values of an argument. -/
def choiceLines (choices : List (String × String)) : List String :=
  let width := widest (choices.map (·.1))
  "Possible values:" :: choices.map fun (name, about) =>
    "- " ++ padRight (width + 2) (name ++ ":") ++ about

/-- An argument in paragraphs: the values that it can take stand in front of the remarks. -/
def fullEntry (entry : Entry) : String :=
  let choices := if entry.choices.isEmpty then [] else [choiceLines entry.choices]
  let paragraphs := choices ++ (remarks entry).map ([·])
  "  " ++ entry.form ++ "\n" ++
    String.join (([""].intercalate paragraphs).map fun line => indent ++ line ++ "\n")

/-- Arguments under a heading. -/
def group (full : Bool) (heading : String) (entries : List Entry) : String :=
  let width := widest (entries.map (·.form))
  heading ++ ":\n" ++
    (if full then "\n".intercalate (entries.map fullEntry)
     else String.join (entries.map (shortEntry width)))

/-- The line that shows how the command is called. -/
def synopsis : String := "Usage: " ++ command ++ " [OPTIONS] [INPUT]\n"

/-- The help. -/
def help (full : Bool) : String :=
  "\n".intercalate
    ["Sort newline-delimited records with bounded memory\n", synopsis,
     group full "Arguments" operands,
     group full "Options" (options ++ closingOptions full)]

/-! ## Answers -/

/-- What the command prints when its arguments keep it from sorting, and its exit code. -/
structure Reply where
  code : UInt32 := 0
  out : String := ""
  err : String := ""

/-- A text in a style of the terminal. -/
def styled (style text : String) : String := "\x1b[" ++ style ++ "m" ++ text ++ "\x1b[0m"

/-- A text in bold type. -/
def bold (text : String) : String := styled "1" text

/-- A refusal for a reason. It is printed without styles, which takes away also what looks like
    one in the reason. -/
def refusal (reason : String) : Reply where
  code := 2
  err := unstyled (styled "31" "error:" ++ " " ++ reason ++
    "\n\nFor more information, try '" ++ bold "--help" ++ "'.\n")

/-- The answer to arguments that do not ask for a sort. -/
def reply : Arguments.Stop → Reply
  | .help full => { out := help full }
  | .version => { out := version }
  | .usage => refusal ("unexpected or missing argument\n\n" ++ synopsis.trimAsciiEnd.toString)
  | .badSize value fault =>
    refusal ("invalid value '" ++ styled "33" value ++ "' for '" ++
      bold "--max-memory <MAX_MEMORY>" ++ "': " ++ fault.message)

end Usage
end ExternalSort
