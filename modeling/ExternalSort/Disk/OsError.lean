/-
  ExternalSort.Disk.OsError

  The ways in which an operation on the disk fails.
-/

namespace ExternalSort

/-- A failure that the operating system reports. -/
inductive OsError
  | notFound
  | exists
  | notDirectory
  | isDirectory
  | invalidArgument
  | fileTooLarge
  | noSpace
  | nameTooLong
  /-- A path with a zero character never reaches the system. -/
  | zeroInPath
  /-- The bytes of a file that should be text are not UTF-8. -/
  | notText
deriving DecidableEq, Repr

namespace OsError

/-- The system's name and number of a failure, where the system has one. -/
def number? : OsError → Option (String × Nat)
  | .notFound => some ("No such file or directory", 2)
  | .exists => some ("File exists", 17)
  | .notDirectory => some ("Not a directory", 20)
  | .isDirectory => some ("Is a directory", 21)
  | .invalidArgument => some ("Invalid argument", 22)
  | .fileTooLarge => some ("File too large", 27)
  | .noSpace => some ("No space left on device", 28)
  | .nameTooLong => some ("File name too long", 36)
  | .zeroInPath => none
  | .notText => none

/-- The wording of a failure. -/
def message (e : OsError) : String :=
  match e.number? with
  | some (text, number) => s!"{text} (os error {number})"
  | none =>
    match e with
    | .notText => "stream did not contain valid UTF-8"
    | _ => "file name contained an unexpected NUL byte"

end OsError
end ExternalSort
