/-
  ExternalSort.Proofs.CommandLine.Listing

  The lines that the command prints, for keys of any type.

  What is printed is told by the lines of the input, the order and the limit
  alone: the keys on the lines are sorted, and the first of them are written,
  each with a newline behind it.
-/

import ExternalSort.Proofs.CommandLine.Sort

namespace ExternalSort

open LineKey

namespace KeyType

/-- The keys of a type. -/
abbrev Key : KeyType → Type
  | .number => UInt64
  | .bytes => ByteArray

instance storable : (type : KeyType) → Storable type.Key
  | .number => inferInstanceAs (Storable UInt64)
  | .bytes => inferInstanceAs (Storable ByteArray)

instance lineKey : (type : KeyType) → LineKey type.Key
  | .number => inferInstanceAs (LineKey UInt64)
  | .bytes => inferInstanceAs (LineKey ByteArray)

instance takesSpace : (type : KeyType) → TakesSpace (type.Key × Unit)
  | .number => (Record.takesSpace (by decide) : TakesSpace (Record .word64 .null))
  | .bytes => (Record.takesSpace (by decide) : TakesSpace (Record .bytes .null))

instance lawful : (type : KeyType) → LawfulStorable (type.Key × Unit)
  | .number => inferInstanceAs (LawfulStorable (UInt64 × Unit))
  | .bytes => inferInstanceAs (LawfulStorable (ByteArray × Unit))

/-- How the keys of a type stand on lines. -/
def form : (type : KeyType) → LineForm type.Key
  | .number => numbers
  | .bytes => byteStrings

theorem form_describes (type : KeyType) : type.form.Describes := by
  cases type with
  | number => exact numbers_describes
  | bytes => exact byteStrings_describes

end KeyType

namespace CommandLine

/-- What is printed lists the keys that stand on lines: in order, cut at the limit, and each with a
    newline behind it. Without a limit these are all of them, unless there are more than a machine
    word counts. -/
structure Lists {α : Type} (form : LineForm α) (a : Arguments) (lines : List ByteArray)
    (keys sorted printed : List α) (out : ByteArray) : Prop where
  read : List.Forall₂ form.Stands lines keys
  perm : sorted.Perm keys
  inOrder : sorted.Pairwise fun x y => if a.descending then form.Le y x else form.Le x y
  cut : printed = sorted.take (Merge.most a.limit)
  all : keys.length < UInt64.size → printed = Merge.cut a.limit sorted
  written : out = joined (printed.map form.text)

section Keys

variable {α : Type} [Storable α] [LineKey α] {form : LineForm α} {a : Arguments}

/-- The order of records is the one of their keys. -/
theorem isLE_order (describes : form.Describes) (x y : α × Unit) :
    (order a x y).isLE = true ↔ if a.descending then form.Le y.1 x.1 else form.Le x.1 y.1 := by
  rw [order]
  split
  · exact describes.isLE y.1 x.1
  · exact describes.isLE x.1 y.1

theorem lists_chosen (describes : form.Describes) {lines : List ByteArray} {keys : List α}
    (parsed : Parsed lines keys) {out : ByteArray} (hout : out = outputLines (chosen a keys)) :
    Lists form a lines keys ((stableSort (order a) (records keys)).map (·.1))
      ((chosen a keys).map (·.1)) out := by
  have ordered := order_valid describes a
  have perm : ((stableSort (order a) (records keys)).map (·.1)).Perm ((records keys).map (·.1)) :=
    (perm_stableSort (records keys)).map (·.1)
  have back : (records keys).map (·.1) = keys := by
    rw [records, List.map_map]
    exact List.map_id' keys
  rw [back] at perm
  have cut : (chosen a keys).map (·.1) =
      ((stableSort (order a) (records keys)).map (·.1)).take (Merge.most a.limit) := List.map_take
  exact {
    read := parsed.imp fun _ _ => describes.parse.mp
    perm
    inOrder := List.pairwise_map.mpr
      ((inOrder_stableSort (records keys)).imp (isLE_order describes _ _).mp)
    cut
    all := fun few => cut.trans (Merge.take_most fun _ => by
      rw [perm.length_eq]
      exact Nat.le_sub_one_of_lt few)
    written := by rw [hout, outputLines_eq describes, List.map_map]; rfl }

end Keys

theorem sort_eq {a : Arguments} {type : KeyType} (h : a.keyType = type) (directory : Path)
    (standardInput : ByteArray) :
    sort a directory standardInput = sortLines type.Key a directory standardInput := by
  subst h
  rw [sort]
  cases a.keyType <;> rfl

/-- A run from an input to its output, with any budget that is not 0. If it succeeds, the lines of
    the input are listed; other arguments that ask for the same list the same, and so does sorting
    the output again, or they are stopped. Where spilling is not allowed, sorting again is not
    stopped. Lines that can be read are listed, or the run is stopped; with a line that cannot be
    read it fails, and nothing is printed. -/
theorem sort_lists {a : Arguments} (plain : a.Plain) {s : Store} {standardInput input : ByteArray}
    (receives : Receives a s standardInput input) {lines : List ByteArray}
    (split : IsLines input lines) (directory : Path) :
    let outcome := ((sort a directory standardInput).run s).1
    (outcome.fault = none →
      (∃ keys sorted printed, Lists a.keyType.form a lines keys sorted printed outcome.out) ∧
      (∀ b directory' s' standardInput', b.Plain → a.Alike b →
        Receives b s' standardInput' input →
        PrintsOrStops b outcome.out ((sort b directory' standardInput').run s').1) ∧
      ∀ b directory' s' standardInput', b.Plain → a.Alike b →
        Receives b s' standardInput' outcome.out →
        let again := ((sort b directory' standardInput').run s').1
        PrintsOrStops b outcome.out again ∧
        (a.noSpill = true → b.noSpill = true → a.memoryBudget ≤ b.memoryBudget →
          again.fault = none)) ∧
    ((∀ line ∈ lines, ∃ key, a.keyType.form.Stands line key) →
      outcome.fault = none ∨ Stopped a outcome) ∧
    ((∃ line ∈ lines, ∀ key, ¬ a.keyType.form.Stands line key) →
      outcome.fault ≠ none ∧ outcome.out = .empty) := by
  have describes := a.keyType.form_describes
  obtain rfl := split.eq
  rw [sort_eq rfl]
  intro outcome
  refine ⟨fun succeeds => ?_, fun legible => ?_, fun bad => ?_⟩
  · obtain ⟨keys, parsed, hout, fits⟩ :=
      sortLines_succeeds describes plain receives directory succeeds
    refine ⟨⟨_, _, _, lists_chosen describes parsed hout⟩, ?_, ?_⟩
    · intro b directory' s' standardInput' plain' alike receives'
      rw [sort_eq alike.keyType, show outcome.out = _ from hout]
      exact sortLines_other describes parsed alike plain' receives' directory'
    · intro b directory' s' standardInput' plain' alike receives'
      rw [sort_eq alike.keyType]
      -- what was printed has fitted into the budget, so it fits into one that is no smaller
      obtain ⟨same, enough⟩ :=
        sortLines_again describes parsed alike plain' hout receives' directory'
      refine ⟨same, fun confined confined' budget => enough confined' fun several => ?_⟩
      exact Nat.le_trans (fits confined several) (UInt64.le_iff_toNat_le.mp budget)
  · have legible : ∀ line ∈ LineKey.lines input, ∃ key : a.keyType.Key, parse line = .ok key := by
      intro line hline
      obtain ⟨key, stands⟩ := legible line hline
      exact ⟨key, describes.parse.mpr stands⟩
    obtain ⟨keys, parsed⟩ := exists_parsed legible
    rcases sortLines_of_parsed describes plain receives parsed directory with
      ⟨stopped, -⟩ | ⟨-, fine, -⟩
    · exact .inr stopped
    · exact .inl fine
  · obtain ⟨line, hline, none⟩ := bad
    have bad : ∃ line ∈ LineKey.lines input, ∀ key : a.keyType.Key, parse line ≠ .ok key :=
      ⟨line, hline, fun key hparse => none key (describes.parse.mp hparse)⟩
    exact sortLines_of_illegible plain receives bad directory

/-- Arguments that make every record spill. -/
def spillingNumbers : Arguments := { keyType := .number, memoryBudget := 1 }

/-- Numbers on lines, the last one without a newline. -/
def threeNumbers : ByteArray := "10\n 007\r\n+8".toUTF8

theorem lines_threeNumbers :
    lines threeNumbers = ["10".toUTF8, " 007\r".toUTF8, "+8".toUTF8] := by
  decide +kernel

theorem sort_lists_threeNumbers :
    ∃ keys sorted printed, Lists numbers spillingNumbers
      ["10".toUTF8, " 007\r".toUTF8, "+8".toUTF8] keys sorted printed "7\n8\n10\n".toUTF8 := by
  have plain : spillingNumbers.Plain := ⟨rfl, rfl, by decide⟩
  have split := isLines_lines threeNumbers
  rw [lines_threeNumbers] at split
  obtain ⟨listed, -⟩ := sort_lists plain (s := {}) rfl split ⟨"/tmp"⟩
  have succeeds : ((sort spillingNumbers ⟨"/tmp"⟩ threeNumbers).run {}).1.fault = none := by
    decide +kernel
  have out : ((sort spillingNumbers ⟨"/tmp"⟩ threeNumbers).run {}).1.out = "7\n8\n10\n".toUTF8 := by
    decide +kernel
  rw [← out]
  exact (listed succeeds).1

end CommandLine
end ExternalSort
