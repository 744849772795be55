/-
  ExternalSort.Proofs.Spill.Custody

  What becomes of a spill file that several hold.

  While someone holds a file, what its path leads to only gets longer, whichever
  operations fail: opening, writing and reading take no byte away. The last holder
  to let go leaves all of a file that is kept, and nothing of one that is not.
  Neither needs a disk with space left, nor a log without gaps.
-/

import ExternalSort.Proofs.Disk.Destination
import ExternalSort.Proofs.Spill.Store

namespace ExternalSort

/-- What the path leads to gets longer at its end, if it changes at all. -/
def Disk.Lengthens (p : Path) (d d' : Disk) : Prop :=
  ∀ bytes, d.contentAt p = .ok bytes → ∃ more, d'.contentAt p = .ok (bytes ++ more)

namespace Disk.Lengthens

variable {p : Path} {d e f : Disk}

theorem of_same (h : ∀ bytes, d.contentAt p = .ok bytes → e.contentAt p = .ok bytes) :
    Lengthens p d e := by
  intro bytes before
  refine ⟨.empty, ?_⟩
  rw [ByteArray.append_empty]
  exact h bytes before

theorem refl (p : Path) (d : Disk) : Lengthens p d d := of_same fun _ before => before

theorem trans (h : Lengthens p d e) (k : Lengthens p e f) : Lengthens p d f := by
  intro bytes before
  obtain ⟨more, here⟩ := h bytes before
  obtain ⟨rest, after⟩ := k _ here
  refine ⟨more ++ rest, ?_⟩
  rw [after, ByteArray.append_assoc]

end Disk.Lengthens

/-- A path leads to no file once its file is removed, or if it led to none. -/
theorem Disk.contentAt_of_remove (d : Disk) (p : Path) (bytes : ByteArray) :
    ((remove p).run.run d).2.contentAt p ≠ .ok bytes := by
  intro there
  rw [contentAt] at there
  by_cases directory : d.find p = .ok .directory
  · -- a directory stays, and has no content
    have refused : Leads (remove p) d (fun _ _ => False) (fun _ d' => d' = d) := by
      rw [remove]
      refine Leads.bind (Leads.of_get (Leads.bind (Leads.of_lift (fun node found => ?_) fun _ _ => rfl)))
      obtain rfl := Except.ok.inj (directory.symm.trans found)
      exact Leads.of_throw rfl
    obtain ⟨_, _, -, impossible⟩ | ⟨_, _, hrun, rfl⟩ := refused.outcome
    · exact impossible
    · rw [show ((remove p).run.run _).2 = _ from congrArg Prod.snd hrun, directory] at there
      cases there
  · rcases hf : ((remove p).run.run d).2.find p with e | node
    · rw [hf] at there
      cases there
    · exact find_of_remove directory node hf

/-- A spill file in someone's hands. -/
structure Custody where
  ref : FileRef
  path : Path
  /-- The disk when it came into these hands. -/
  before : Disk
  /-- Whether the file stays when no one holds it. -/
  kept : Bool

/-- The same file, from now on. -/
def Custody.since (c : Custody) (now : Disk) : Custody := { c with before := now }

/-- What there is on disk once no one holds the file. -/
def Custody.Leaves (c : Custody) (d : Disk) : Prop :=
  if c.kept then c.before.Lengthens c.path d else ∀ bytes, d.contentAt c.path ≠ .ok bytes

namespace SpillFile

/-! ## One file -/

/-- The path of an open file leads to it, and it is as long as its writers believe, at least. -/
structure Anchored (f : SpillFile) (d : Disk) (h : Handle) : Prop where
  known : d.Known h
  found : d.find f.path = .ok (Disk.nodeOf h)
  offset : f.offset ≤ (d.bytesOf h).size + f.pending.size

/-- The file is open, and its writers were told that it reaches so far. -/
structure Reaches (f : SpillFile) (stop : Nat) : Prop where
  isOpen : f.handle.isSome = true
  le : stop ≤ f.offset

/-- A file in custody, in which runs end at the given places. -/
structure Lasts (c : Custody) (ends : List Nat) (p : SpillFile × Disk) : Prop where
  path : p.1.path = c.path
  kept : p.1.kept = c.kept
  anchored : ∀ h, p.1.handle = some h → p.1.Anchored p.2 h
  reaches : ∀ stop ∈ ends, p.1.Reaches stop
  lengthens : c.before.Lengthens c.path p.2

variable {c : Custody} {ends ends' : List Nat} {f g : SpillFile} {d e : Disk} {h : Handle}

/-- A run may end earlier, or be forgotten. -/
theorem Lasts.mono {p : SpillFile × Disk} (lasts : Lasts c ends p)
    (within : ∀ stop ∈ ends', ∃ far ∈ ends, stop ≤ far) : Lasts c ends' p := by
  refine ⟨lasts.path, lasts.kept, lasts.anchored, fun stop mem => ?_, lasts.lengthens⟩
  obtain ⟨far, mem', le⟩ := within stop mem
  exact ⟨(lasts.reaches far mem').isOpen, Nat.le_trans le (lasts.reaches far mem').le⟩

theorem Lasts.anew {p : SpillFile × Disk} (lasts : Lasts c ends p) : Lasts (c.since p.2) ends p :=
  ⟨lasts.path, lasts.kept, lasts.anchored, lasts.reaches, .refl _ _⟩

/-- A file stays in custody if it stays where it is and what it is, and gets longer only. -/
theorem Lasts.change (lasts : Lasts c ends (f, d)) (path : g.path = f.path) (kept : g.kept = f.kept)
    (handle : g.handle = f.handle) (offset : f.offset ≤ g.offset)
    (anchored : ∀ h, f.handle = some h → f.Anchored d h → g.Anchored e h)
    (after : d.Lengthens f.path e) : Lasts c ends (g, e) where
  path := path.trans lasts.path
  kept := kept.trans lasts.kept
  anchored h open_ :=
    anchored h (handle.symm.trans open_) (lasts.anchored h (handle.symm.trans open_))
  reaches stop mem :=
    ⟨handle ▸ (lasts.reaches stop mem).isOpen, Nat.le_trans (lasts.reaches stop mem).le offset⟩
  lengthens := lasts.lengthens.trans (lasts.path ▸ after)

theorem Anchored.contentAt (anchored : f.Anchored d h) : d.contentAt f.path = .ok (d.bytesOf h) :=
  Disk.contentAt_eq anchored.found

/-- Bytes that are written to an open file go to the end of what its path leads to. -/
theorem Anchored.lengthens (anchored : f.Anchored d h) {bytes : ByteArray}
    (written : Disk.Written h bytes d e) : d.Lengthens f.path e := by
  intro before here
  obtain rfl := Except.ok.inj (anchored.contentAt.symm.trans here)
  refine ⟨bytes, ?_⟩
  rw [Disk.contentAt_eq (written.toGrown.find anchored.found), written.content]

/-- Opening a file finds it at its path, with what was there. -/
theorem ensureOpen_lasts (lasts : Lasts c ends (f, d)) :
    Leads ensureOpen (f, d) (fun h p => p.1.handle = some h ∧ Lasts c ends p)
      (fun _ p => Lasts c ends p) := by
  apply ensureOpen_of
  · exact fun h handle => ⟨handle, lasts⟩
  · intro handle
    have unopened {e : Disk} (after : d.Lengthens f.path e) : Lasts c ends (f, e) := by
      refine lasts.change rfl rfl rfl (Nat.le_refl _) (fun h open_ _ => ?_) after
      cases handle.symm.trans open_
    refine (Disk.makeParents_deepens f.path d).mono ?_ ?_
    · intro _ e deepened
      have made : d.Lengthens f.path e := .of_same fun _ before => deepened.contentAt before
      refine (Disk.openAppend_leads f.path e).mono ?_ ?_
      · intro h e' opened
        have found : e.Lengthens f.path e' := by
          apply Disk.Lengthens.of_same
          intro bytes before
          rw [Disk.contentAt_eq opened.found, opened.content bytes before]
        refine ⟨rfl, lasts.path, lasts.kept, fun h' same => ?_, fun stop mem => ?_, ?_⟩
        · obtain rfl := Option.some.inj same
          refine ⟨opened.known, opened.found, ?_⟩
          show e'.sizeOf h ≤ (e'.bytesOf h).size + f.pending.size
          rw [e'.sizeOf_eq]
          exact Nat.le_add_right _ _
        · -- no run ends in a file that was not opened
          have open_ := (lasts.reaches stop mem).isOpen
          rw [handle] at open_
          cases open_
        · exact (unopened (made.trans found)).lengthens
      · rintro _ e' rfl
        exact unopened made
    · exact fun _ e deepened => unopened (.of_same fun _ before => deepened.contentAt before)

/-- Writing out takes nothing away, also if it stops half way. Afterwards the file is as long on disk
    as its writers believe. -/
theorem flush_lasts (lasts : Lasts c ends (f, d)) :
    Leads flush (f, d)
      (fun _ p => Lasts c ends p ∧ ∀ h, p.1.handle = some h → p.1.offset ≤ (p.2.bytesOf h).size)
      (fun _ p => Lasts c ends p) := by
  cases handle : f.handle with
  | none =>
    -- without a handle nothing reaches the disk
    have unopened (h : Handle) : f.handle ≠ some h := by
      rw [handle]
      exact Option.some_ne_none h ∘ Eq.symm
    apply flush_of
    · exact fun _ => ⟨lasts, fun h open_ => absurd open_ (unopened h)⟩
    · refine fun _ => ⟨?_, fun h open_ => absurd open_ (unopened h)⟩
      exact lasts.change rfl rfl rfl (Nat.le_refl _)
        (fun h open_ _ => absurd open_ (unopened h)) (.refl _ _)
    · exact fun h open_ => absurd open_ (unopened h)
  | some h =>
    have here := lasts.anchored h handle
    have before : f.offset ≤ (d.bytesOf h).size + f.pending.size := here.offset
    apply (flush_moves handle here.known).mono
    · rintro _ ⟨_, e⟩ ⟨rfl, written⟩
      have long : f.offset ≤ (e.bytesOf h).size := by
        rw [written.content, ByteArray.size_append]
        exact before
      refine ⟨lasts.change rfl rfl rfl (Nat.le_refl _) (fun h' same _ => ?_) (here.lengthens written),
        fun h' same => ?_⟩
      · obtain rfl := Option.some.inj (handle.symm.trans same)
        exact ⟨written.known, written.toGrown.find here.found, Nat.le_add_right_of_le long⟩
      · obtain rfl := Option.some.inj (handle.symm.trans same)
        exact long
    · rintro _ ⟨_, e⟩ ⟨-, -, rfl, part, written⟩
      -- the file has a part of the buffer now, and the buffer still has all of it
      refine lasts.change rfl rfl rfl (Nat.le_refl _) (fun h' same _ => ?_) (here.lengthens written)
      obtain rfl := Option.some.inj (handle.symm.trans same)
      refine ⟨written.known, written.toGrown.find here.found, ?_⟩
      rw [written.content, ByteArray.size_append]
      dsimp only at before ⊢
      omega

theorem flush_leaves (lasts : Lasts c ends (f, d)) :
    Leads flush (f, d) (fun _ p => Lasts c ends p) (fun _ p => Lasts c ends p) :=
  (flush_lasts lasts).mono (fun _ _ post => post.1) fun _ _ post => post

theorem write_lasts (data : ByteArray) (lasts : Lasts c ends (f, d)) :
    Leads (write data) (f, d) (fun _ p => Lasts c ends p) (fun _ p => Lasts c ends p) := by
  apply write_of
  refine (ensureOpen_lasts lasts).mono ?_ fun _ _ post => post
  rintro _ ⟨g, e⟩ ⟨-, opened⟩
  have gathered : Lasts c ends (g.gather data, e) := by
    refine opened.change rfl rfl rfl (Nat.le_add_right _ _) (fun h _ anchored => ?_) (.refl _ _)
    refine ⟨anchored.known, anchored.found, ?_⟩
    have before := anchored.offset
    show g.offset + data.size ≤ (e.bytesOf h).size + (g.pending ++ data).size
    rw [ByteArray.size_append]
    omega
  exact ⟨fun _ => gathered, fun _ => flush_leaves gathered⟩

/-- A run that ends where the next write will begin ends in the file. -/
theorem currentOffset_lasts (lasts : Lasts c ends (f, d)) :
    Leads currentOffset (f, d) (fun stop p => Lasts c (stop :: ends) p)
      (fun _ p => Lasts c ends p) := by
  apply currentOffset_of
  refine (ensureOpen_lasts lasts).mono ?_ fun _ _ post => post
  rintro h ⟨g, e⟩ ⟨open_, opened⟩
  refine ⟨opened.path, opened.kept, opened.anchored, ?_, opened.lengthens⟩
  intro stop mem
  rcases List.mem_cons.mp mem with rfl | mem
  · exact ⟨Option.isSome_of_mem open_, Nat.le_refl _⟩
  · exact opened.reaches stop mem

theorem read_lasts (offset length : Nat) (lasts : Lasts c ends (f, d)) :
    Leads (read offset length) (f, d) (fun _ p => Lasts c ends p) (fun _ p => Lasts c ends p) := by
  apply read_of
  refine (ensureOpen_lasts lasts).mono ?_ fun _ _ post => post
  rintro h p ⟨-, opened⟩
  refine (flush_leaves opened).mono ?_ fun _ _ post => post
  intro _ q out
  refine (fetch_keeps h offset length q).mono ?_ fun _ _ same => same ▸ out
  rintro bytes ⟨g, e⟩ rfl
  refine ⟨fun _ => out, fun _ => ?_⟩
  exact out.change rfl rfl rfl (Nat.le_refl _)
    (fun h _ anchored => ⟨anchored.known, anchored.found, anchored.offset⟩) (.refl _ _)

theorem keep_lasts (lasts : Lasts c ends (f, d)) :
    Lasts { c with kept := true } ends ({ f with kept := true }, d) where
  path := lasts.path
  kept := rfl
  anchored h open_ :=
    ⟨(lasts.anchored h open_).known, (lasts.anchored h open_).found, (lasts.anchored h open_).offset⟩
  reaches stop mem := ⟨(lasts.reaches stop mem).isOpen, (lasts.reaches stop mem).le⟩
  lengthens := lasts.lengthens

/-- Once a file is closed, all of it is there if it is kept, and else its path leads to no file. -/
theorem Lasts.close (lasts : Lasts c ends (f, d)) : c.Leaves (f.close.run d).2 := by
  rw [Custody.Leaves, SpillFile.close, lasts.kept]
  split
  · rcases (flush_leaves lasts).outcome with ⟨_, p, hrun, after⟩ | ⟨_, p, hrun, after⟩ <;>
      rw [← show _ = p from congrArg Prod.snd hrun] at after <;> exact after.lengthens
  · rw [← lasts.path]
    exact Disk.contentAt_of_remove d f.path

end SpillFile

namespace Store

/-! ## Holders -/

/-- How many hold a file. -/
def holders (s : Store) (ref : FileRef) : Nat := (s.files.getD ref.index default).holders

/-- A file in custody that `n` hold, with runs that end at the given places. -/
structure Held (c : Custody) (ends : List Nat) (n : Nat) (s : Store) : Prop where
  pos : 0 < n
  known : s.Known c.ref
  count : s.holders c.ref = n
  lasts : SpillFile.Lasts c ends (s.view c.ref)

/-- A file in custody that `n` hold, if anyone does. -/
inductive Lasts (c : Custody) (ends : List Nat) (n : Nat) (s : Store) : Prop
  | held (held : Held c ends n s)
  | left (none : n = 0) (leaves : c.Leaves s.disk)

variable {α : Type} {c : Custody} {ends ends' : List Nat} {n : Nat} {s : Store}

theorem Held.mono (held : Held c ends n s) (within : ∀ stop ∈ ends', ∃ far ∈ ends, stop ≤ far) :
    Held c ends' n s :=
  ⟨held.pos, held.known, held.count, held.lasts.mono within⟩

theorem Held.forget {stop : Nat} (held : Held c (stop :: ends) n s) : Held c ends n s :=
  held.mono fun stop mem => ⟨stop, List.mem_cons_of_mem _ mem, Nat.le_refl stop⟩

theorem Lasts.toHeld (lasts : Lasts c ends n s) (pos : 0 < n) : Held c ends n s := by
  cases lasts with
  | held held => exact held
  | left none => omega

theorem Lasts.of_eq {m : Nat} (lasts : Lasts c ends n s) (same : n = m) : Lasts c ends m s :=
  same ▸ lasts

theorem Held.anew (held : Held c ends n s) : Held (c.since s.disk) ends n s :=
  ⟨held.pos, held.known, held.count, held.lasts.anew⟩

theorem Lasts.anew (lasts : Lasts c ends n s) : Lasts (c.since s.disk) ends n s := by
  cases lasts with
  | held held => exact .held held.anew
  | left none leaves =>
    refine .left none ?_
    rw [Custody.Leaves] at leaves ⊢
    by_cases kept : c.kept = true
    · rw [if_pos (show (c.since s.disk).kept = true from kept)]
      exact .refl _ _
    · rw [if_neg kept] at leaves
      rw [if_neg (show ¬ (c.since s.disk).kept = true from kept)]
      exact leaves

/-- A file that someone holds, or that is kept, has lost nothing. -/
theorem Lasts.lengthens (lasts : Lasts c ends n s) (stays : 0 < n ∨ c.kept = true) :
    c.before.Lengthens c.path s.disk := by
  cases lasts with
  | held held => exact held.lasts.lengthens
  | left none leaves =>
    rcases stays with pos | kept
    · omega
    · rwa [Custody.Leaves, if_pos kept] at leaves

/-- Of a file that no one holds and that is not kept there is nothing. -/
theorem Lasts.gone (lasts : Lasts c ends 0 s) (gone : c.kept = false) (bytes : ByteArray) :
    s.disk.contentAt c.path ≠ .ok bytes := by
  cases lasts with
  | held held => exact absurd held.pos (Nat.lt_irrefl 0)
  | left none leaves =>
    rw [Custody.Leaves, gone] at leaves
    exact leaves bytes

theorem holders_onFile (ref : FileRef) (action : SpillFile.Action α) (s : Store) :
    (Failing.runOn (onFile ref action) s).2.holders ref = s.holders ref := by
  rw [runOn_onFile, holders, holders]
  by_cases known : ref.index < s.files.size
  · simp [Array.getD, known]
  · simp [Array.getD, known]

/-- An operation on a file changes none of its holders. -/
theorem Held.onFile {action : SpillFile.Action α} {ok : α → SpillFile × Disk → Prop}
    {err : SortError → SpillFile × Disk → Prop} (held : Held c ends n s)
    (h : Leads action (s.view c.ref) ok err) :
    Leads (Store.onFile c.ref action) s
      (fun a s' => ok a (s'.view c.ref) ∧ s'.Known c.ref ∧ s'.holders c.ref = n)
      (fun e s' => err e (s'.view c.ref) ∧ s'.Known c.ref ∧ s'.holders c.ref = n) := by
  have same := (holders_onFile c.ref action s).trans held.count
  rcases (onFile_leads held.known h).outcome with
    ⟨a, s', hop, post, around⟩ | ⟨e, s', hop, post, around⟩ <;> rw [hop] at same
  · exact Leads.of_runOn_ok hop ⟨post, around.known held.known, same⟩
  · exact Leads.of_runOn_error hop ⟨post, around.known held.known, same⟩

/-- An operation that a file lasts through. -/
theorem Held.onFile_lasts {action : SpillFile.Action α} {ends' : α → List Nat}
    (held : Held c ends n s)
    (h : Leads action (s.view c.ref) (fun a p => SpillFile.Lasts c (ends' a) p)
      (fun _ p => SpillFile.Lasts c ends p)) :
    Leads (Store.onFile c.ref action) s (fun a s' => Held c (ends' a) n s')
      (fun _ s' => Held c ends n s') := by
  apply (held.onFile h).mono
  · exact fun _ _ post => ⟨held.pos, post.2.1, post.2.2, post.1⟩
  · exact fun _ _ post => ⟨held.pos, post.2.1, post.2.2, post.1⟩

theorem Held.retain (held : Held c ends n s) : Held c ends (n + 1) ((Store.retain c.ref).run s).2 := by
  have inside : c.ref.index < s.files.size := held.known
  refine ⟨Nat.succ_pos n, (around_retain c.ref s).known held.known, ?_, ?_⟩
  · rw [← held.count, holders, holders]
    show ((s.files.modify c.ref.index _).getD c.ref.index default).holders = _
    simp [Array.getD, Array.getElem_modify, inside]
  · rw [view_retain]
    exact held.lasts

/-- Letting go leaves the file to those who still hold it, or on disk if it is kept. -/
theorem Held.release (held : Held c ends (n + 1) s) :
    Lasts c ends n ((Store.release c.ref).run s).2 := by
  have inside : c.ref.index < s.files.size := held.known
  have found : s.files[c.ref.index]? = some s.files[c.ref.index] :=
    getElem?_pos s.files c.ref.index inside
  have view : s.files.getD c.ref.index default = s.files[c.ref.index] := by
    simp [Array.getD, inside]
  have holders : s.files[c.ref.index].holders = n + 1 := by
    rw [← held.count, Store.holders, view]
  have lasts := held.lasts
  rw [Store.view, Store.file, view] at lasts
  have after (x : HeldFile) :
      (s.files.setIfInBounds c.ref.index x).getD c.ref.index default = x := by
    simp [Array.getD, inside]
  rw [Store.release, StateT.run_bind, StateT.run_get, pure_bind]
  dsimp only
  rw [found]
  dsimp only
  rw [StateT.run_bind, StateT.run_set, pure_bind, holders]
  -- the last holder closes the file; before that only the count changes
  cases n with
  | zero => exact .left rfl lasts.close
  | succ n =>
    rw [if_neg (by omega)]
    refine .held ⟨Nat.succ_pos n, ?_, ?_, ?_⟩
    · show c.ref.index < (s.files.setIfInBounds c.ref.index _).size
      rw [Array.size_setIfInBounds]
      exact inside
    · exact congrArg HeldFile.holders (after _)
    · show SpillFile.Lasts c ends (((s.files.setIfInBounds c.ref.index _).getD c.ref.index default).file, s.disk)
      rw [after]
      exact lasts

/-- A new file has one holder, and nothing was done with it. -/
theorem held_register (path : Path) (s : Store) :
    Held ⟨((register path).run s).1, path, s.disk, false⟩ [] 1 ((register path).run s).2 := by
  obtain ⟨known, file⟩ := register_run path s
  have holders : ((register path).run s).2.holders ((register path).run s).1 = 1 := by
    show ((s.files.push ⟨{ path := path }, 1⟩).getD s.files.size default).holders = 1
    simp
  refine ⟨Nat.one_pos, known, holders, ?_⟩
  rw [view, file]
  refine ⟨rfl, rfl, fun h open_ => ?_, (by simp), .refl _ _⟩
  cases open_

end Store
end ExternalSort
