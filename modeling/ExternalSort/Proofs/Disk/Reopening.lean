/-
  ExternalSort.Proofs.Disk.Reopening

  A file whose path was opened once can be opened again by its path.

  Opening makes the directories above the file, so they are there afterwards,
  and they stay while only more entries are made. Making them again does nothing.
-/

import ExternalSort.Proofs.Disk.Basic

namespace ExternalSort
namespace Disk

variable {d d' : Disk} {p : Path}

/-- The nearest directory that making the given pieces would make is there. -/
def HasPieces (d : Disk) : List Name → Prop
  | [] => True
  | piece :: before =>
    if Path.isEnd piece before then d.find (Path.ofPieces (piece :: before)) = .ok .directory
    else d.HasPieces before

/-- The directory above the last name of a path is there. -/
def HasParents (d : Disk) (p : Path) : Prop := ∀ before, p.above? = some before → d.HasPieces before

theorem Grown.hasPieces (h : Grown d d') {pieces : List Name} (has : d.HasPieces pieces) :
    d'.HasPieces pieces := by
  induction pieces with
  | nil => trivial
  | cons piece before ih =>
    rw [HasPieces] at has ⊢
    split at has
    · rename_i isEnd
      rw [if_pos isEnd]
      exact h.find has
    · rename_i notEnd
      rw [if_neg notEnd]
      exact ih has

theorem Grown.hasParents (h : Grown d d') (has : d.HasParents p) : d'.HasParents p :=
  fun before hbefore => h.hasPieces (has before hbefore)

/-- Paths still lead where they led, and can still be opened. -/
theorem Grown.linked {node : Node} (h : Grown d d') (linked : d.find p = .ok node ∧ d.HasParents p) :
    d'.find p = .ok node ∧ d'.HasParents p :=
  ⟨h.find linked.1, h.hasParents linked.2⟩

/-! ## Making directories that are there -/

theorem makeDirectory_of_find (h : d.find p = .ok .directory) :
    Leads (makeDirectory p) d (fun _ _ => False) (fun e d' => e = .exists ∧ d' = d) := by
  obtain ⟨directory, step, place, approach, enters, node, -⟩ := find_ok_iff.mp h
  rw [makeDirectory]
  refine Leads.bind (Leads.of_get (Leads.bind (Leads.of_lift ?_ fun e he => ?_)))
  · intro r hr
    obtain rfl := Except.ok.inj (approach.symm.trans hr)
    dsimp only
    -- the last step leads back to a directory, or its place is taken
    split
    · exact Leads.bind (Leads.of_throw ⟨rfl, rfl⟩)
    · refine Leads.bind (Leads.of_lift (fun place' hplace => ?_) fun e he => ?_)
      · obtain rfl := Except.ok.inj (enters.symm.trans hplace)
        rw [if_pos (by rw [node]; rfl)]
        exact Leads.bind (Leads.of_throw ⟨rfl, rfl⟩)
      · cases enters.symm.trans he
  · cases approach.symm.trans he

theorem ensureDirectory_of_find (h : d.find p = .ok .directory) :
    Leads (ensureDirectory p) d (fun _ d' => d' = d) (fun _ _ => False) := by
  rw [ensureDirectory]
  refine Leads.of_tryCatch ((makeDirectory_of_find h).mono (fun _ _ h => h.elim) ?_)
  rintro _ _ ⟨rfl, rfl⟩
  refine Leads.bind (Leads.of_get ?_)
  rw [isDirectory, h]
  exact Leads.of_pure rfl

theorem ensurePieces_of_hasPieces {pieces : List Name} (has : d.HasPieces pieces) :
    Leads (ensurePieces pieces) d (fun _ d' => d' = d) (fun _ _ => False) := by
  induction pieces with
  | nil => exact Leads.of_pure rfl
  | cons piece before ih =>
    rw [HasPieces] at has
    rw [ensurePieces]
    split at has
    · rename_i isEnd
      rw [if_pos isEnd, ensureBelow]
      exact Leads.of_tryCatch ((ensureDirectory_of_find has).mono (fun _ _ h => h) fun _ _ h => h.elim)
    · rename_i notEnd
      rw [if_neg notEnd]
      exact ih has

/-- Making parents that are there does nothing. -/
theorem makeParents_of_hasParents (has : d.HasParents p) :
    Leads (makeParents p) d (fun _ d' => d' = d) (fun _ _ => False) := by
  rw [makeParents]
  split
  · rename_i before hbefore
    exact ensurePieces_of_hasPieces (has before hbefore)
  · exact Leads.of_pure rfl

theorem makeParents_fails (p : Path) (d : Disk) :
    Leads (makeParents p) d (fun _ _ => True) (fun _ _ => ¬ d.HasParents p) := by
  by_cases has : d.HasParents p
  · exact (makeParents_of_hasParents has).mono (fun _ _ _ => trivial) fun _ _ h => h.elim
  · exact Leads.of_forall (fun _ _ => trivial) fun _ _ => has

/-! ## What was made is there -/

theorem makeDirectory_finds (p : Path) (d : Disk) :
    Leads (makeDirectory p) d (fun _ d' => d'.find p = .ok .directory) (fun _ _ => True) := by
  rw [makeDirectory]
  refine Leads.bind (Leads.of_get (Leads.bind (Leads.of_lift ?_ fun _ _ => trivial)))
  rintro ⟨directory, step⟩ approach
  dsimp only
  split
  · exact Leads.bind (Leads.of_throw trivial)
  · refine Leads.bind (Leads.of_lift (fun place enters => ?_) fun _ _ => trivial)
    split
    · exact Leads.bind (Leads.of_throw trivial)
    · rename_i free
      have none : d.node? place = none := by simpa using free
      have inside : place ≠ [] := place_ne_nil (by rw [none]; simp)
      have grown := grown_put d.directory_known none
      exact Leads.of_set (find_ok_iff.mpr ⟨directory, step, place, grown.approach approach, enters,
        node?_put_self _ inside, .inl rfl⟩)

theorem ensureDirectory_finds (p : Path) (d : Disk) :
    Leads (ensureDirectory p) d (fun _ d' => d'.find p = .ok .directory) (fun _ _ => True) := by
  rw [ensureDirectory]
  refine Leads.of_tryCatch ((makeDirectory_finds p d).mono (fun _ _ h => h) fun e d' _ => ?_)
  refine Leads.bind (Leads.of_get ?_)
  split
  · rename_i found
    refine Leads.of_pure ?_
    have isDirectory := (Bool.and_eq_true_iff.mp found).2
    rw [Disk.isDirectory] at isDirectory
    split at isDirectory
    · assumption
    · cases isDirectory
  · exact Leads.of_throw trivial

theorem ensureBelow_finds (p : Path) (above : DiskM Unit) (d : Disk) :
    Leads (ensureBelow p above) d (fun _ d' => d'.find p = .ok .directory) (fun _ _ => True) := by
  rw [ensureBelow]
  refine Leads.of_tryCatch ((ensureDirectory_finds p d).mono (fun _ _ h => h) fun e d' _ => ?_)
  split
  · exact Leads.bind (Leads.of_forall (fun _ e => ensureDirectory_finds p e) fun _ _ => trivial)
  · exact Leads.of_throw trivial

theorem ensurePieces_has (pieces : List Name) (d : Disk) :
    Leads (ensurePieces pieces) d (fun _ d' => d'.HasPieces pieces) (fun _ _ => True) := by
  induction pieces with
  | nil => exact Leads.of_pure trivial
  | cons piece before ih =>
    rw [ensurePieces]
    split
    · rename_i isEnd
      simp only [HasPieces, if_pos isEnd]
      exact ensureBelow_finds _ _ d
    · rename_i notEnd
      simp only [HasPieces, if_neg notEnd]
      exact ih

/-- Parents that were made are there. -/
theorem makeParents_has (p : Path) (d : Disk) :
    Leads (makeParents p) d (fun _ d' => d'.HasParents p) (fun _ _ => True) := by
  rw [makeParents]
  split
  · rename_i before hbefore
    refine (ensurePieces_has before d).mono (fun _ d' has before' hbefore' => ?_) fun _ _ h => h
    obtain rfl := Option.some.inj (hbefore.symm.trans hbefore')
    exact has
  · rename_i none
    exact Leads.of_pure fun before hbefore => absurd hbefore (none before)

/-! ## Opening files that are there -/

theorem openAppend_of_find {h : Handle} (found : d.find p = .ok (nodeOf h)) :
    Leads (openAppend p) d (fun h' d' => h' = h ∧ d' = d) (fun _ _ => False) := by
  obtain ⟨directory, step, place, approach, enters, node, slash⟩ := find_ok_iff.mp found
  have slash' : p.endsInSlash = false := slash.resolve_left (by cases h <;> exact nofun)
  rw [openAppend]
  refine Leads.bind (Leads.of_get (Leads.bind (Leads.of_lift ?_ fun e he => ?_)))
  · intro r hr
    obtain rfl := Except.ok.inj (approach.symm.trans hr)
    dsimp only
    rw [slash', if_neg Bool.false_ne_true]
    refine Leads.bind (Leads.of_lift (fun place' hplace => ?_) fun e he => ?_)
    · obtain rfl := Except.ok.inj (enters.symm.trans hplace)
      rw [node]
      cases h <;> exact Leads.of_pure ⟨rfl, rfl⟩
    · cases enters.symm.trans he
  · cases approach.symm.trans he

/-- Opening does not fail where there is something to be read. -/
theorem openAppend_fails (p : Path) (d : Disk) :
    Leads (openAppend p) d (fun _ _ => True) (fun _ _ => ∀ bytes, d.contentAt p ≠ .ok bytes) := by
  -- what can be read is a file or the device, and both can be opened
  by_cases found : ∃ h, d.find p = .ok (nodeOf h)
  · obtain ⟨h, found⟩ := found
    exact (openAppend_of_find found).mono (fun _ _ _ => trivial) fun _ _ h => h.elim
  · refine Leads.of_forall (fun _ _ => trivial) fun _ _ bytes content => ?_
    rw [contentAt] at content
    rcases hfind : d.find p with e | node <;> rw [hfind] at content
    · cases content
    · cases node with
      | directory => cases content
      | file number => exact found ⟨.file number, hfind⟩
      | fullDevice => exact found ⟨.fullDevice, hfind⟩

end Disk
end ExternalSort
