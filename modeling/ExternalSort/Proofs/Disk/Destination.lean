/-
  ExternalSort.Proofs.Disk.Destination

  The file that a path is about, whether it is there or not.

  A path denotes a place also while directories on the way are missing, since
  they are made when its file is opened. A file that is absent counts as empty.
  What opening finds is the content by this reading, and once its entry is
  removed, a path leads to nothing.
-/

import ExternalSort.Proofs.Disk.Reopening

namespace ExternalSort
namespace Disk

/-- The place that a path leads to when all directories on the way are there. -/
def destination (d : Disk) (p : Path) : Except OsError Location :=
  p.steps.foldlM enter (d.origin p)

/-- The content of the file that a path is about. A file that is absent counts as empty. -/
inductive ContentIs (d : Disk) (p : Path) (bytes : ByteArray) : Prop
  | file {place : Location} {number : Nat} (leads : d.destination p = .ok place)
      (here : d.node? place = some (.file number)) (content : d.content number = bytes)
  | absent (vacant : ∀ place, d.destination p = .ok place → d.node? place = none)
      (none : bytes = .empty)

variable {d d' : Disk} {p : Path} {bytes : ByteArray}

/-! ## Places -/

theorem foldlM_of_follow {here l : Location} {steps : List Name}
    (h : d.follow here steps = .ok l) : steps.foldlM enter here = .ok l := by
  induction steps generalizing here with
  | nil => exact h
  | cons step rest ih =>
    rw [follow] at h
    rw [List.foldlM_cons]
    rcases henter : enter here step with e | next
    · rw [henter] at h
      cases h
    · rw [henter] at h
      show rest.foldlM enter next = .ok l
      simp only [bind, Except.bind] at h
      split at h
      · exact ih h
      · cases h
      · cases h

theorem destination_of_approach {directory place : Location} {step : Name}
    (ha : d.approach p = .ok (directory, step)) (hp : enter directory step = .ok place) :
    d.destination p = .ok place := by
  obtain ⟨-, l, hf, eq⟩ := approach_ok_iff.mp ha
  obtain ⟨rfl, rfl⟩ := Prod.mk.inj eq
  have front := foldlM_of_follow hf
  rw [destination]
  rcases steps : p.steps.getLast? with _ | last
  · -- without steps the path leads to where it starts
    have none := List.getLast?_eq_none_iff.mp steps
    rw [none] at front ⊢
    obtain rfl := Except.ok.inj front
    rw [steps] at hp
    exact hp
  · obtain ⟨before, split⟩ := List.getLast?_eq_some_iff.mp steps
    rw [split, List.dropLast_concat] at front
    rw [steps] at hp
    rw [split, List.foldlM_append, front]
    show List.foldlM enter directory [last] = .ok place
    rw [List.foldlM_cons, show enter directory last = .ok place from hp]
    rfl

/-- A path that leads to a file is about that file. -/
theorem contentIs_of_find {number : Nat} (found : d.find p = .ok (.file number)) :
    d.ContentIs p (d.content number) := by
  obtain ⟨directory, step, place, ha, hp, hn, -⟩ := find_ok_iff.mp found
  exact .file (destination_of_approach ha hp) hn rfl

theorem ContentIs.not_directory (content : d.ContentIs p bytes) : d.find p ≠ .ok .directory := by
  intro found
  obtain ⟨directory, step, place, ha, hp, hn, -⟩ := find_ok_iff.mp found
  have here := destination_of_approach ha hp
  cases content with
  | file leads node =>
    obtain rfl := Except.ok.inj (leads.symm.trans here)
    cases node.symm.trans hn
  | absent vacant => cases (vacant place here).symm.trans hn

/-! ## Opening -/

theorem Deepened.destination (h : Deepened d d') : d'.destination p = d.destination p := by
  rw [Disk.destination, Disk.destination, origin, origin, h.home]

/-- A file that is there is opened with the content that it had. -/
theorem ContentIs.of_node? (content : d.ContentIs p bytes) (deepened : Deepened d d')
    {place : Location} (leads : d'.destination p = .ok place) {h : Handle}
    (hn : d'.node? place = some (nodeOf h)) :
    ∃ number, h = .file number ∧ d'.bytesOf h = bytes := by
  rw [deepened.destination] at leads
  cases content with
  | @file place' number leads' here content =>
    obtain rfl := Except.ok.inj (leads.symm.trans leads')
    have same := Option.some.inj (hn.symm.trans (deepened.node? here))
    cases h with
    | fullDevice => cases same
    | file number' =>
      obtain rfl := Node.file.inj same
      refine ⟨number', rfl, ?_⟩
      rw [bytesOf, Disk.content, deepened.contents]
      exact content
  | absent vacant =>
    -- only directories are new
    obtain old | new := deepened.made hn
    · cases (vacant place leads).symm.trans old
    · cases h <;> cases new

/-- A file that is not there is empty. -/
theorem ContentIs.of_vacant (content : d.ContentIs p bytes) (deepened : Deepened d d')
    {place : Location} (leads : d'.destination p = .ok place) (hn : d'.node? place = none) :
    bytes = .empty := by
  cases content with
  | file leads' here =>
    rw [deepened.destination] at leads
    obtain rfl := Except.ok.inj (leads.symm.trans leads')
    cases hn.symm.trans (deepened.node? here)
  | absent _ none => exact none

theorem content_putFile {place : Location} (fits : bytes.size < offsetLimit) :
    (d.putFile place bytes fits).2.content (d.putFile place bytes fits).1 = bytes := by
  simp [putFile, put, store, content]

/-- Opening a file finds its content, after directories were made. -/
theorem openAppend_finds (content : d.ContentIs p bytes) (deepened : Deepened d d') :
    Leads (openAppend p) d'
      (fun h e => ∃ number, h = .file number ∧ e.bytesOf h = bytes) (fun _ _ => True) := by
  rw [openAppend]
  refine Leads.bind (Leads.of_get (Leads.bind (Leads.of_lift ?_ fun _ _ => trivial)))
  rintro ⟨directory, step⟩ ha
  dsimp only
  by_cases slash : p.endsInSlash = true
  · rw [if_pos slash]
    exact Leads.bind (Leads.of_throw trivial)
  · rw [if_neg slash]
    refine Leads.bind (Leads.of_lift (fun place hp => ?_) fun _ _ => trivial)
    have leads := destination_of_approach ha hp
    rcases hn : d'.node? place with _ | node
    · obtain rfl := content.of_vacant deepened leads hn
      exact Leads.bind (Leads.of_set (Leads.of_pure ⟨_, rfl, content_putFile (by decide)⟩))
    · cases node with
      | directory => exact Leads.of_throw trivial
      | file number => exact Leads.of_pure (content.of_node? (h := .file number) deepened leads hn)
      | fullDevice => exact Leads.of_pure (content.of_node? (h := .fullDevice) deepened leads hn)

/-- Opening a file finds the content that its readers get, and one that is made is empty. -/
theorem openAppend_bytes (p : Path) (d : Disk) :
    Leads (openAppend p) d (fun h d' => d'.bytesOf h = d.bytesOf h) (fun _ _ => True) := by
  rw [openAppend]
  refine Leads.bind (Leads.of_get (Leads.bind (Leads.of_lift ?_ fun _ _ => trivial)))
  rintro ⟨directory, step⟩ -
  dsimp only
  split
  · exact Leads.bind (Leads.of_throw trivial)
  · refine Leads.bind (Leads.of_lift (fun place _ => ?_) fun _ _ => trivial)
    split
    · exact Leads.of_throw trivial
    · exact Leads.of_pure rfl
    · exact Leads.of_pure rfl
    · refine Leads.bind (Leads.of_set (Leads.of_pure ?_))
      have absent : d.content d.contents.size = .empty := by simp [content]
      exact (content_putFile (by decide)).trans absent.symm

/-! ## Removing -/

theorem node?_drop_self {place : Location} (h : place ≠ []) :
    (d.drop place).node? place = none := by
  rw [node?, if_neg h, drop, List.lookup_eq_none_iff]
  intro entry hmem
  have other : entry.1 ≠ place := by simpa using (List.mem_filter.mp hmem).2
  simpa using other.symm

theorem grown_of_drop (d : Disk) (place : Location) : Grown (d.drop place) d := by
  refine ⟨rfl, fun {there node} hn => ?_⟩
  by_cases same : there = place
  · subst same
    by_cases root : there = []
    · subst root
      exact hn
    · cases (node?_drop_self root).symm.trans hn
  · rw [node?, drop, lookup_filter_ne same] at hn
    exact hn

/-- The path of a file leads to nothing once it is removed. -/
theorem find_of_remove (file : d.find p ≠ .ok .directory) (node : Node) :
    ((remove p).run.run d).2.find p ≠ .ok node := by
  have gone : Leads (remove p) d (fun _ d' => ∀ node, d'.find p ≠ .ok node)
      (fun _ d' => ∀ node, d'.find p ≠ .ok node) := by
    rw [remove]
    refine Leads.bind (Leads.of_get (Leads.bind (Leads.of_lift (fun found hfound => ?_) ?_)))
    · obtain ⟨directory, step, place, ha, hp, hn, -⟩ := find_ok_iff.mp hfound
      have resolves : d.resolve p = .ok place := by
        rw [resolve, ha]
        exact hp
      split
      · exact absurd hfound file
      · rename_i other
        refine Leads.bind (Leads.of_lift (fun place' hplace node hnode => ?_) fun e he => ?_)
        · obtain rfl := Except.ok.inj (resolves.symm.trans hplace)
          -- with fewer entries the path still leads to that place only
          obtain ⟨directory', step', there, ha', hp', hn', -⟩ := find_ok_iff.mp hnode
          obtain ⟨rfl, rfl⟩ := Prod.mk.inj
            (Except.ok.inj (ha.symm.trans ((grown_of_drop d place).approach ha')))
          obtain rfl := Except.ok.inj (hp.symm.trans hp')
          have inside : place ≠ [] :=
            place_ne_nil fun root => other (Option.some.inj (hn.symm.trans root))
          cases (node?_drop_self inside).symm.trans hn'
        · cases resolves.symm.trans he
    · rintro e he node hnode
      cases he.symm.trans hnode
  obtain ⟨_, d', hrun, gone⟩ | ⟨_, d', hrun, gone⟩ := gone.outcome <;>
    · rw [show ((remove p).run.run d).2 = d' from congrArg Prod.snd hrun]
      exact gone node

end Disk
end ExternalSort
