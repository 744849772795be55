/-
  ExternalSort.Proofs.Run.Watching

  Reading a run under watch.

  The watched reader is the reader with a check in front of every step that could
  go wrong unnoticed: its place must be inside the extent, what it asks the file
  for must be, too, and no difference or sum of offsets may wrap around. A check
  that fails raises an alarm, and so does the branch for a place behind the
  extent. A reader whose place is inside its extent never raises it, whatever the
  alarm is: it runs as the watched one does.
-/

import ExternalSort.Proofs.Run.Loading

namespace ExternalSort

variable {ρ : Type}

/-- Raises the alarm unless the condition holds. -/
def watch (alarm : SpillM Unit) (condition : Prop) [Decidable condition] : SpillM Unit :=
  if condition then return () else alarm

theorem watch_bind {α : Type} {alarm : SpillM Unit} {condition : Prop} [Decidable condition]
    (h : condition) (f : Unit → SpillM α) : (watch alarm condition >>= f) = f () := by
  rw [watch, if_pos h, pure_bind]

namespace RunReader

/-- Asks the file for bytes, which must lie in the extent. -/
def request (alarm : SpillM Unit) (r : RunReader ρ) (offset length : Nat) : SpillM ByteArray := do
  watch alarm (r.extent.start.toNat ≤ offset ∧ offset + length ≤ r.stop)
  Store.onFile r.file (SpillFile.read offset length)

/-- Loads the next chunk under watch. -/
def loadChunkWatched (alarm : SpillM Unit) (r : RunReader ρ) (open_ : r.loaded = false) :
    SpillM { r' : RunReader ρ // r'.unread < r.unread } := do
  watch alarm (r.extent.start.toNat ≤ r.readOffset ∧ r.readOffset ≤ r.stop)
  if past : r.stop < r.readOffset then
    alarm
    throw (r.damage (.pastEnd r.readOffset))
  else if atEnd : r.readOffset = r.stop then
    return ⟨r.atEnd, unread_atEnd open_⟩
  else
    -- the distance to the end
    watch alarm (r.readOffset ≤ r.stop)
    if r.stop - r.readOffset < Chunk.headerSize then
      throw (r.damage (.truncatedHeader r.readOffset r.stop))
    else
      let header ← r.request alarm r.readOffset Chunk.headerSize
      watch alarm (r.readOffset + Chunk.headerSize < UInt64.size)
      let body := r.readOffset + Chunk.headerSize
      let (compressed, length) := Chunk.readHeader header
      watch alarm (body ≤ r.stop)
      if r.stop - body < length then throw (r.damage (.overrun length body r.stop))
      let payload ← r.request alarm body length
      watch alarm (body + length < UInt64.size)
      let records ← Chunk.decode r.protector r.database r.path compressed payload
      have inside := Nat.lt_of_le_of_ne (Nat.le_of_not_lt past) atEnd
      return ⟨r.holding length records, unread_holding open_ inside length records⟩

/-- Loads chunks under watch until one has records left, or every chunk was loaded. -/
def ensureChunkWatched (alarm : SpillM Unit) (r : RunReader ρ) : SpillM (RunReader ρ) :=
  if r.drained then
    if open_ : r.loaded = false then do
      let ⟨r', _⟩ ← r.loadChunkWatched alarm open_
      ensureChunkWatched alarm r'
    else return r
  else return r
termination_by r.unread

/-- The next record of the run, read under watch. -/
def nextWatched [Storable ρ] (alarm : SpillM Unit) (r : RunReader ρ) :
    StoreM (Step ρ × RunReader ρ) := do
  if r.closed then return (none, r)
  match ← (r.ensureChunkWatched alarm).run with
  | .error e => return (some (.error e), r.fail)
  | .ok r =>
    if r.drained then
      match r.close with
      | (.ok (), r) => return (none, r)
      | (.error e, r) => return (some (.error e), r.fail)
    else
      let (result, r) := r.decodeRecord
      return (some result, r)

variable {alarm : SpillM Unit} {r : RunReader ρ} {s : Store} {content : ByteArray}

/-- Inside its extent, a reader loads a chunk without an alarm, whatever the file holds. -/
theorem loadChunkWatched_eq (begun : r.extent.start.toNat ≤ r.readOffset) (placed : Placed r)
    (open_ : r.loaded = false) : r.loadChunkWatched alarm open_ = r.loadChunk open_ := by
  obtain ⟨before, limit⟩ := placed
  have header : Chunk.headerSize = 4 := rfl
  have offsets : Disk.offsetLimit < UInt64.size := by decide
  -- every guard that lets the reader go on also passes the next watch
  rw [loadChunkWatched, loadChunk, watch_bind ⟨begun, before⟩, dif_neg (Nat.not_lt.mpr before),
    dif_neg (Nat.not_lt.mpr before)]
  split
  · rfl
  · rename_i unequal
    rw [watch_bind before]
    split
    · rfl
    · rename_i room
      rw [request, bind_assoc, watch_bind ⟨begun, by omega⟩]
      apply congrArg
      funext bytes
      rw [watch_bind (by omega)]
      rcases Chunk.readHeader bytes with ⟨compressed, length⟩
      dsimp only
      rw [watch_bind (by omega)]
      split
      · rfl
      · rename_i long
        rw [request, bind_assoc, watch_bind ⟨by omega, by omega⟩]
        apply congrArg
        funext payload
        exact watch_bind (by omega) _

theorem ensureChunkWatched_eq (begun : r.extent.start.toNat ≤ r.readOffset) (placed : Placed r)
    (shown : s.Shows r.file r.path content) :
    Failing.runOn (r.ensureChunkWatched alarm) s = Failing.runOn r.ensureChunk s := by
  induction r using ensureChunk.induct generalizing s with
  | case1 r drained open_ ih =>
    rw [ensureChunkWatched, ensureChunk, if_pos drained, if_pos drained, dif_pos open_,
      dif_pos open_, loadChunkWatched_eq begun placed open_]
    apply Leads.runOn_bind_congr
    apply (loadChunk_loads shown placed open_).mono
    · rintro ⟨r', less⟩ t ⟨loads, shown'⟩
      -- the chunk leaves the reader inside its extent
      obtain ⟨onward, -⟩ := loads.onward
      have begun' : r'.extent.start.toNat ≤ r'.readOffset := by
        rw [onward.extent]
        exact Nat.le_trans begun onward.on
      exact ih r' less begun' (onward.placed placed) (onward.shown shown')
    · exact fun _ _ _ => trivial
  | case2 r drained loaded =>
    rw [ensureChunkWatched, ensureChunk, if_pos drained, if_pos drained, dif_neg loaded,
      dif_neg loaded]
  | case3 r full =>
    rw [ensureChunkWatched, ensureChunk, if_neg full, if_neg full]

/-- Inside its extent, a reader gives its next record without an alarm. -/
theorem nextWatched_eq [Storable ρ] (begun : r.extent.start.toNat ≤ r.readOffset)
    (placed : Placed r) (shown : s.Shows r.file r.path content) :
    (nextWatched alarm r).run s = (next r).run s := by
  rw [nextWatched, next]
  split
  · rfl
  · have same : (r.ensureChunkWatched alarm).run.run s = r.ensureChunk.run.run s :=
      ensureChunkWatched_eq begun placed shown
    rw [StateT.run_bind, StateT.run_bind]
    exact congrArg (· >>= _) same

end RunReader
end ExternalSort
