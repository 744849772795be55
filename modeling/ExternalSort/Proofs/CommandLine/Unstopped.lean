/-
  ExternalSort.Proofs.CommandLine.Unstopped

  When nothing stops the command.

  A run from an input to its output can be stopped by the disk, or by a line so
  long that no chunk can hold it. Where spilling is allowed, the lines are short
  and the disk has room for them, it is not stopped; and when its output is sorted
  again, under the same conditions, the same lines come out.
-/

import ExternalSort.Proofs.CommandLine.Listing
import ExternalSort.Proofs.Sorter.Room

namespace ExternalSort

open LineKey RunWriter

namespace CommandLine

/-- A chunk that ends with the key on the line can be told by its header. -/
def ShortLine (line : ByteArray) : Prop := chunkThreshold + line.size + 8 < Chunk.payloadLimit

/-- The most bytes of runs that the keys on lines come to. -/
def roomFor (lines : List ByteArray) : Nat := charge (fun line => line.size + 16) lines

/-- A key takes eight bytes more than its line, or less. -/
theorem size_encode_le {type : KeyType} {line : ByteArray} {key : type.Key}
    (stands : type.form.Stands line key) :
    (Storable.encode (key, ())).size ≤ line.size + 8 := by
  have same : Storable.encode (key, ()) = Storable.encode key := ByteArray.append_empty
  rw [same]
  cases type with
  | number =>
    have size : (Storable.encode (key : UInt64)).size = 8 := Word.size_bytes _ _
    omega
  | bytes =>
    obtain rfl : line = key := stands
    have size : (Storable.encode line).size = 4 + line.size := by
      show (Word.bytes 4 line.size ++ line).size = 4 + line.size
      rw [ByteArray.size_append, Word.size_bytes]
    omega

section Keys

variable {a b : Arguments} {directory : Path} {standardInput input : ByteArray} {s : Store}
  {lines : List ByteArray}

/-- Short lines have short keys. -/
theorem short_of_parsed {type : KeyType} {keys : List type.Key} (parsed : Parsed lines keys)
    (short : ∀ line ∈ lines, ShortLine line) : ∀ x ∈ records keys, Short x := by
  intro x hx
  obtain ⟨key, hkey, rfl⟩ := List.mem_map.mp hx
  obtain ⟨line, hline, hparse⟩ := parsed.exists_line hkey
  have size := size_encode_le (type.form_describes.parse.mp hparse)
  have short : chunkThreshold + line.size + 8 < Chunk.payloadLimit := short line hline
  rw [Short]
  omega

/-- The room for lines is enough for their keys. -/
theorem reserve_le_roomFor {type : KeyType} {keys : List type.Key} (parsed : Parsed lines keys) :
    charge reserve (records keys) ≤ roomFor lines := by
  induction parsed with
  | nil => exact Nat.le_refl 0
  | @cons line key lines keys hparse _ ih =>
    have size := size_encode_le (type.form_describes.parse.mp hparse)
    have header : Chunk.headerSize = 4 := rfl
    have sum : charge reserve (records (key :: keys)) =
        reserve (key, ()) + charge reserve (records keys) := charge_cons _ _
    have room : roomFor (line :: lines) = line.size + 16 + roomFor lines := charge_cons _ _
    rw [sum, room, reserve, takenBy]
    omega

variable {α : Type} [Storable α] [LineKey α] {form : LineForm α} {keys : List α}
  [TakesSpace (α × Unit)] [LawfulStorable (α × Unit)]

/-- With room for all keys nothing stops the command, and the chosen ones are printed. -/
theorem sortLines_of_roomy (describes : form.Describes) (plain : a.Plain)
    (receives : Receives a s standardInput input) (parsed : Parsed (LineKey.lines input) keys)
    (short : ∀ x ∈ records keys, Short x)
    (roomy : (options a directory).Roomy (charge reserve (records keys)) s) :
    let outcome := ((sortLines α a directory standardInput).run s).1
    outcome.fault = none ∧ outcome.out = outputLines (chosen a keys) := by
  intro outcome
  have ordered := order_valid describes a
  have few : (chosen a keys).length ≤ Merge.unlimited :=
    Nat.le_trans (List.length_take_le _ _) (Merge.most_le a.limit)
  have faithful : FaithfulHook (options a directory).activeProtector := FaithfulHook.of_none rfl
  have charges := @Sorter.ofOptions_charges (α × Unit) _ (options a directory) (order a) s
  have room := @Sorter.ofOptions_roomy (α × Unit) _ _ (options a directory) (order a) s roomy
  -- the room is there when the sorter is made, when the records are added and when it is done
  rcases (((Sorter.ofOptions_leads faithful s).and charges).and room).outcome with
    ⟨sorter, s₁, made, ⟨⟨accepting, retains⟩, charged, -, -, disk⟩, room₁⟩ | ⟨_, _, _, -, fails⟩
  case inr => exact fails.elim
  rcases ((Sorter.addAll_leads retains accepting charged (records keys)).and
      (Sorter.addAll_roomy (n := 0) retains accepting short room₁)).outcome with
    ⟨_, ⟨sorter₂, s₂⟩, added, ⟨accepting₂, retains₂, charged₂, -⟩, room₂⟩ | ⟨_, _, _, -, fails⟩
  case inr => exact fails.elim
  rcases ((Sorter.done_leads_most retains₂ charged₂ (footprint_pos describes)).and
      (Sorter.done_roomy retains₂ accepting₂ room₂)).outcome with
    ⟨sorted, ⟨sorter₃, s₃⟩, done, readsOut, -⟩ | ⟨_, _, _, -, fails⟩
  case inr => exact fails.elim
  have fed : outcome = ((feed a standardInput sorter).run s₁).1.1 := sortLines_of_made plain made
  have add := addLines_of_parsed parsed sorter 1 s₁
  have printed : ((conclude a sorter₂).run s₂).1.1 = { out := outputLines (chosen a keys) } :=
    (conclude_of_done plain done).trans (printSorted_eq readsOut few)
  rw [fed]
  rcases feed_of_added (receives.of_disk disk) (add.trans (onSorter_run added)) with
    same | ⟨-, err, same⟩ <;> rw [same, printed] <;> exact ⟨rfl, rfl⟩

/-- With room for all keys, sorting the chosen ones again is not stopped either. -/
theorem sortLines_again_of_roomy (describes : form.Describes)
    (parsed : Parsed (LineKey.lines input) keys) (alike : a.Alike b) (plain : b.Plain)
    (receives : Receives b s standardInput (outputLines (chosen a keys)))
    (short : ∀ x ∈ records keys, Short x)
    (roomy : (options b directory).Roomy (charge reserve (records keys)) s) :
    let again := ((sortLines α b directory standardInput).run s).1
    again.fault = none ∧ again.out = outputLines (chosen a keys) := by
  have ordered := order_valid describes a
  have perm : (stableSort (order a) (records keys)).Perm (records keys) := perm_stableSort _
  have among (x) (hx : x ∈ chosen a keys) : x ∈ records keys :=
    perm.mem_iff.mp (List.mem_of_mem_take hx)
  have less : charge reserve (chosen a keys) ≤ charge reserve (records keys) := by
    rw [← charge_perm perm]
    exact charge_sublist (List.take_sublist _ _)
  have parsed' := parsed_outputLines describes parsed fun x (hx : x ∈ chosen a keys) =>
    mem_of_mem_chosen describes hx
  have back : records ((chosen a keys).map (·.1)) = chosen a keys := records_map _
  have again := sortLines_of_roomy describes plain receives parsed'
    (by rw [back]; exact fun x hx => short x (among x hx)) (by rw [back]; exact roomy.mono less)
  rwa [chosen_alike alike, chosen_chosen describes] at again

end Keys

/-- A run from an input to its output is not stopped if the disk has room for its lines, they are short
    enough, and there is a key on each of them. Nor is sorting its output again, where there is as much
    room; it prints the same. -/
theorem sort_unstopped {a : Arguments} (plain : a.Plain) {s : Store} {standardInput input : ByteArray}
    (receives : Receives a s standardInput input) {lines : List ByteArray}
    (split : IsLines input lines)
    (legible : ∀ line ∈ lines, ∃ key, a.keyType.form.Stands line key)
    (short : ∀ line ∈ lines, ShortLine line) {directory : Path}
    (roomy : (options a directory).Roomy (roomFor lines) s) :
    let outcome := ((sort a directory standardInput).run s).1
    outcome.fault = none ∧
      ∀ b directory' s' standardInput', b.Plain → a.Alike b →
        Receives b s' standardInput' outcome.out →
        (options b directory').Roomy (roomFor lines) s' →
        let again := ((sort b directory' standardInput').run s').1
        again.fault = none ∧ again.out = outcome.out := by
  have describes := a.keyType.form_describes
  obtain rfl := split.eq
  have legible : ∀ line ∈ LineKey.lines input, ∃ key : a.keyType.Key, parse line = .ok key := by
    intro line hline
    obtain ⟨key, stands⟩ := legible line hline
    exact ⟨key, describes.parse.mpr stands⟩
  obtain ⟨keys, parsed⟩ := exists_parsed legible
  have short := short_of_parsed parsed short
  have enough := reserve_le_roomFor parsed
  rw [sort_eq rfl]
  intro outcome
  obtain ⟨fine, out⟩ : outcome.fault = none ∧ outcome.out = outputLines (chosen a keys) :=
    sortLines_of_roomy describes plain receives parsed short (roomy.mono enough)
  refine ⟨fine, fun b directory' s' standardInput' plain' alike receives' roomy' => ?_⟩
  rw [out] at receives' ⊢
  rw [sort_eq alike.keyType]
  exact sortLines_again_of_roomy describes parsed alike plain' receives' short (roomy'.mono enough)

theorem sort_unstopped_threeNumbers :
    ((sort spillingNumbers ⟨"/tmp"⟩ threeNumbers).run {}).1.fault = none := by
  have plain : spillingNumbers.Plain := ⟨rfl, rfl, by decide⟩
  have roomy : (options spillingNumbers ⟨"/tmp"⟩).Roomy (roomFor (LineKey.lines threeNumbers)) {} :=
    ⟨by decide +kernel, rfl, rfl, by decide +kernel⟩
  have legible : ∀ line ∈ LineKey.lines threeNumbers, ∃ key : UInt64, numbers.Stands line key := by
    rw [lines_threeNumbers]
    simp only [List.forall_mem_cons, List.not_mem_nil, false_implies, implies_true, and_true]
    exact ⟨⟨10, numbers_describes.parse.mp (by decide +kernel)⟩,
      ⟨7, numbers_describes.parse.mp (by decide +kernel)⟩,
      ⟨8, numbers_describes.parse.mp (by decide +kernel)⟩⟩
  have short : ∀ line ∈ LineKey.lines threeNumbers, ShortLine line := by
    rw [lines_threeNumbers]
    unfold ShortLine
    decide +kernel
  exact (sort_unstopped plain rfl (isLines_lines threeNumbers) legible short roomy).1

end CommandLine
end ExternalSort
