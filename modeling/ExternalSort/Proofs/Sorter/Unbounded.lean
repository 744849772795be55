/-
  ExternalSort.Proofs.Sorter.Unbounded

  What a sorter without a limit keeps.

  The records it has taken are the ones in its runs and the ones in its buffer.
  A spill moves the buffer into a run, which changes the order of unequal
  records only. A spill that fails while it writes loses the buffer; what was in
  runs before stays.
-/

import ExternalSort.Proofs.Sorter.Backing
import ExternalSort.Sorter.Unbounded

namespace ExternalSort
namespace Unbounded

open StableSort (askLess)

/-! ## A rule for each operation

What an operation leads to follows from what its parts lead to. Nothing is assumed about the
comparator. -/

variable {ρ : Type}

/-- The sorter that has counted a spill. -/
def spilling (u : Unbounded ρ) : Unbounded ρ :=
  { u with backing := { u.backing with spills := u.backing.spills + 1 } }

/-- The records in memory, in the order of arrival. -/
def records (u : Unbounded ρ) : List ρ := u.data.toList.map (·.record)

/-- The sorter that has put a record behind those in memory, and charged it. -/
def charging [Storable ρ] (u : Unbounded ρ) (x : Resident ρ) : Unbounded ρ :=
  { u with
    memoryUsed := u.memoryUsed + x.footprint
    backing := { u.backing with dataSize := u.backing.dataSize + x.footprint }
    data := u.data.push x }

theorem records_charging [Storable ρ] (u : Unbounded ρ) (x : Resident ρ) :
    (u.charging x).records = u.records ++ [x.record] := by
  simp [charging, records]

theorem records_eq_nil_iff (u : Unbounded ρ) : u.records = [] ↔ u.data = #[] := by
  rw [records, List.map_eq_nil_iff, Array.toList_eq_nil_iff]

/-- The sorter that takes no more records. -/
def finishing (u : Unbounded ρ) : Unbounded ρ :=
  { u with backing := { u.backing with finished := true } }

section Rules

variable [Storable ρ] {u : Unbounded ρ} {s : Store}
  {err : Failure → Unbounded ρ × Store → Prop}

/-- A spill of something sorts it and writes it as a run. The buffer is given up before that. -/
theorem spill_of {ok : Unit → Unbounded ρ × Store → Prop}
    (nothing : u.data = #[] → ok () (u.spilling, s))
    (refused : ∀ e, u.data ≠ #[] → u.backing.requireSpillAllowed = .error e →
      err e (u.spilling, s))
    (sorts : u.data ≠ #[] → u.backing.requireSpillAllowed = .ok () →
      Leads sortData (u.spilling, s)
        (fun _ p => Leads (p.1.backing.writeRun p.1.records) p.2
          (fun run s' => ok () ({ p.1 with
            data := #[]
            backing := { p.1.backing with runs := p.1.backing.runs.push run }
            memoryUsed := 0 }, s'))
          fun e s' => err (.error e) ({ p.1 with data := #[] }, s'))
        err) :
    Leads spill (u, s) ok err := by
  rw [spill]
  refine Leads.bind (Leads.of_modify₂ (Leads.bind (Leads.of_get₂ ?_)))
  dsimp only
  split
  case isTrue none => exact Leads.of_pure (nothing (Array.isEmpty_iff.mp none))
  case isFalse some =>
    have some := mt Array.isEmpty_iff.mpr some
    refine Leads.bind (Leads.of_lift₂ (fun _ allowed => ?_) fun e => refused e some)
    refine Leads.bind ((sorts some allowed).mono ?_ fun _ _ failed => failed)
    intro _ p writes
    refine Leads.bind (Leads.of_get₂ (Leads.bind (Leads.of_set₂ (Leads.bind ?_))))
    apply Leads.of_sorterSpill
    exact writes.mono (fun _ _ written => Leads.of_modify₂ written) fun _ _ failed => failed

/-- Whatever comes of a record that is offered is up to the spill, if there is one. -/
theorem add_of_charging {x : ρ} {spare : Nat} {ok : Unit → Unbounded ρ × Store → Prop}
    (refused : ∀ e, u.backing.requireAccepting = .error e → err e (u, s))
    (h : u.backing.finished = false →
      Leads (if u.backing.options.memoryBudget.toNat < (u.charging ⟨x, spare⟩).memoryUsed then spill
        else pure ()) (u.charging ⟨x, spare⟩, s) ok err) :
    Leads (add x spare) (u, s) ok err := by
  rw [add]
  refine Leads.bind (Leads.of_get₂ (Leads.bind (Leads.of_lift₂ (fun _ allowed => ?_) refused)))
  refine Leads.bind (Leads.of_modify₂ (Leads.bind (Leads.of_get₂ ?_)))
  exact h (Backing.accepting_of_requireAccepting allowed)

/-- The buffer is spilled, and then the runs are described. -/
theorem persist_of {ok : Manifest → Unbounded ρ × Store → Prop}
    (refused : ∀ e, u.backing.requireAccepting = .error e → err e (u, s))
    (homeless : ∀ e, u.backing.spillFile = .error e → err (.error e) (u, s))
    (spills : u.backing.finished = false →
      Leads spill (u, s)
        (fun _ p => Leads p.1.backing.manifest p.2 (fun m s' => ok m (p.1, s'))
          fun e s' => err (.error e) (p.1, s'))
        err) :
    Leads persist (u, s) ok err := by
  rw [persist]
  refine Leads.bind (Leads.of_get₂ (Leads.bind (Leads.of_lift₂ (fun _ allowed => ?_) refused)))
  refine Leads.bind (Leads.of_get₂ (Leads.bind (Leads.of_sorterSpill ?_)))
  refine Leads.of_lift (fun _ _ => ?_) homeless
  refine Leads.bind ((spills (Backing.accepting_of_requireAccepting allowed)).mono ?_
    fun _ _ failed => failed)
  exact fun _ _ describes => Leads.bind (Leads.of_get₂ (Leads.of_sorterSpill describes))

/-- Without runs the sorted buffer is what comes out; it stays, or it is given up. With runs the buffer
    is spilled, and the runs are merged. -/
theorem done_of {ok : Sorted ρ → Unbounded ρ × Store → Prop}
    (again : ∀ e, u.backing.requireUnfinished = .error e → err e (u, s))
    (sorts : u.backing.finished = false → u.backing.runs = #[] →
      Leads sortData (u.finishing, s)
        (fun _ p => ∀ data, data = #[] ∨ data = p.1.data →
          ok (.inl ⟨p.1.records⟩) ({ p.1 with data }, p.2))
        err)
    (merges : u.backing.finished = false → u.backing.runs ≠ #[] →
      Leads spill (u.finishing, s)
        (fun _ p => Leads (p.1.backing.mergeRuns p.1.order) p.2
          (fun sorted s' =>
            ok sorted ({ p.1 with backing := { p.1.backing with runs := #[] } }, s'))
          fun e s' =>
            err (.error e) ({ p.1 with backing := { p.1.backing with runs := #[] } }, s'))
        err) :
    Leads done (u, s) ok err := by
  rw [done]
  refine Leads.bind (Leads.of_get₂ (Leads.bind (Leads.of_lift₂ (fun _ first => ?_) again)))
  have accepting := Backing.accepting_of_requireUnfinished first
  refine Leads.bind (Leads.of_modify₂ (Leads.bind (Leads.of_get₂ ?_)))
  dsimp only
  split
  case isTrue none =>
    have sorts := sorts accepting (Array.isEmpty_iff.mp none)
    refine Leads.bind (sorts.mono ?_ fun _ _ failed => failed)
    intro _ p given
    refine Leads.bind (Leads.of_get₂ ?_)
    split
    · exact Leads.bind (Leads.of_set₂ (Leads.of_pure (given _ (.inl rfl))))
    · exact Leads.of_pure (given _ (.inr rfl))
  case isFalse some =>
    have merges := merges accepting (mt Array.isEmpty_iff.mpr some)
    refine Leads.bind (merges.mono ?_ fun _ _ failed => failed)
    intro _ p merged
    exact Leads.bind (Leads.of_get₂ (Leads.bind (Leads.of_set₂ (Leads.of_sorterSpill merged))))

end Rules

/-! ## What is kept -/

variable [Storable ρ] {options : Options} {order : Comparator ρ} {u : Unbounded ρ}
  {s : Store} {spilled buffered : List ρ}

/-- The records in the runs of a sorter, up to the order of unequal ones, and those in its
    buffer. -/
structure Keeps (options : Options) (order : Comparator ρ) (u : Unbounded ρ) (s : Store)
    (spilled buffered : List ρ) : Prop where
  sameOrder : u.order = order
  spilled : u.backing.Spilled options order s spilled
  data : u.records = buffered

theorem Keeps.size_data (keeps : Keeps options order u s spilled buffered) :
    u.data.size = buffered.length := by
  rw [← keeps.data, records, List.length_map, Array.length_toList]

variable [Std.TransCmp order]

omit [Storable ρ] in
theorem sort_eq (u : Unbounded ρ) [Std.TransCmp u.order] (xs : List (Resident ρ)) :
    StableSort.sort u.less xs = pure (stableSort (orderBy u.order (·.record)) xs) := by
  have less : u.less = askLess (orderBy u.order (·.record)) := by
    funext a b
    rw [less, checkedCompare_eq_pure, pure_bind, askLess, orderBy]
  rw [less, StableSort.sort_eq]

omit [Storable ρ] [Std.TransCmp order] in
/-- The buffer is sorted. -/
theorem sortData_leads [Std.TransCmp u.order] {ok : Unit → Unbounded ρ × Store → Prop}
    {err : Failure → Unbounded ρ × Store → Prop}
    (h : ∀ (data : Array (Resident ρ)) (sorted : Nat),
      data.toList.map (·.record) = stableSort u.order u.records →
      ok () ({ u with data, backing := { u.backing with sorted } }, s)) :
    Leads sortData (u, s) ok err := by
  rw [sortData]
  refine Leads.bind (Leads.of_get₂ (Leads.bind (Leads.of_arrange (u.sort_eq _) ?_)))
  exact Leads.of_modify₂ (h _ _ (map_stableSort _ _))

omit [Storable ρ] [Std.TransCmp order] in
/-- A new sorter is nothing but its backing. -/
theorem ofOptions_of {ok : Unbounded ρ → Store → Prop} {err : SortError → Store → Prop}
    (invalid : ∀ e, options.validate s.spillForbidden = .error e → err e s)
    (limited : options.limit ≠ 0 → err (.configuration (.unboundedLimit options.limit)) s)
    (h : options.validate s.spillForbidden = .ok () → options.limit = 0 →
      ok { backing := ((Backing.ofOptions options : StoreM (Backing ρ)).run s).1, order }
        ((Backing.ofOptions options : StoreM (Backing ρ)).run s).2) :
    Leads (ofOptions options order : SpillM (Unbounded ρ)) s ok err := by
  rw [ofOptions]
  refine Leads.bind (Leads.of_get (Leads.bind (Leads.of_lift (fun _ valid => ?_) invalid)))
  by_cases limit : options.limit = 0
  · rw [if_neg (not_not_intro limit)]
    exact Leads.bind (Leads.of_state (Leads.of_pure (h valid limit)))
  · rw [if_pos limit]
    exact Leads.bind (Leads.of_throw (limited limit))

omit [Std.TransCmp order] in
/-- A new sorter has taken nothing. -/
theorem ofOptions_leads (faithful : FaithfulHook options.activeProtector) (s : Store) :
    Leads (ofOptions options order : SpillM (Unbounded ρ)) s
      (fun u s' => u.backing.finished = false ∧ Keeps options order u s' [] [])
      (fun _ _ => True) := by
  obtain ⟨accepting, stands⟩ := Backing.ofOptions_stands ρ faithful s
  apply ofOptions_of (fun _ _ => trivial) (fun _ => trivial)
  exact fun _ _ => ⟨accepting, rfl, Backing.Spilled.nil stands, rfl⟩

omit [Storable ρ] [Std.TransCmp order] in
/-- Resuming needs a directory, and no limit. -/
theorem of_resumeDirectory {name : String} {forbidden : Bool} {directory : Path}
    (h : resumeDirectory options name forbidden = .ok directory) :
    options.limit = 0 ∧ options.spillDirectory = some directory := by
  by_cases limit : options.limit = 0
  · refine ⟨limit, ?_⟩
    simp only [resumeDirectory, bind, Except.bind] at h
    split at h
    · cases h
    · split at h
      · cases h
      · split at h
        · cases h
        · split at h
          · cases h
          · split at h
            · cases h
              assumption
            · cases h
  · rw [resumeDirectory, if_pos limit] at h
    cases h

omit [Storable ρ] [Std.TransCmp order] in
/-- Resuming needs to be allowed to spill. -/
theorem allowed_of_resumeDirectory {name : String} {forbidden : Bool} {directory : Path}
    (h : resumeDirectory options name forbidden = .ok directory) : options.spillAllowed = true := by
  cases allowed : options.spillAllowed with
  | true => rfl
  | false =>
    simp only [resumeDirectory, bind, Except.bind, allowed] at h
    split at h
    · cases h
    · cases h

omit [Storable ρ] [Std.TransCmp order] in
theorem readersOf_eq (options : Options) (file : FileRef) (path : Path) (extents : List Extent)
    (s : Store) :
    ((readersOf options file path extents : StoreM (List (RunReader ρ))).run s).1 =
        extents.map (RunReader.ofExtent file path · options.activeProtector options.database) ∧
      ((readersOf options file path extents : StoreM (List (RunReader ρ))).run s).2.view file =
        s.view file ∧
      s.Around ((readersOf options file path extents : StoreM (List (RunReader ρ))).run s).2 := by
  induction extents generalizing s with
  | nil => exact ⟨rfl, rfl, .refl s⟩
  | cons e rest ih =>
    obtain ⟨readers, view, around⟩ := ih ((Store.retain file).run s).2
    exact ⟨congrArg (_ :: ·) readers, view.trans (Store.view_retain file file s),
      (Store.around_retain file s).trans around⟩

/-- What taking up a manifest gives: a reader for each extent, on a file that was not opened. -/
structure TakesUp (m : Manifest) (options : Options) (order : Comparator ρ) (directory : Path)
    (file : FileRef) (u : Unbounded ρ) (s : Store) : Prop where
  eq : u = {
    backing := {
      options, file := some file, spills := m.extents.length
      runs := (m.extents.map (RunReader.ofExtent file (directory.join ⟨m.fileName⟩) ·
        options.activeProtector options.database)).toArray }
    order }
  known : s.Known file
  fresh : s.file file = { path := directory.join ⟨m.fileName⟩ }

omit [Storable ρ] [Std.TransCmp order] in
/-- A manifest is taken up if the options allow it, its extents pass their check, and the file that
    they are in has content. The disk is only looked at. -/
theorem resume_leads (m : Manifest) (options : Options) (order : Comparator ρ) (s : Store) :
    Leads (resume m options order : SpillM (Unbounded ρ)) s
      (fun u s' => ∃ directory file,
        resumeDirectory options m.fileName s.spillForbidden = .ok directory ∧
        m.checkExtents = .ok () ∧
        (m.extents ≠ [] → requireContent s.disk (directory.join ⟨m.fileName⟩) = .ok ()) ∧
        TakesUp m options order directory file u s' ∧ s'.disk = s.disk)
      (fun e _ => resumeDirectory options m.fileName s.spillForbidden = .error e ∨
        m.checkExtents = .error e ∨ ∃ directory,
          resumeDirectory options m.fileName s.spillForbidden = .ok directory ∧ m.extents ≠ [] ∧
          requireContent s.disk (directory.join ⟨m.fileName⟩) = .error e) := by
  rw [resume]
  refine Leads.bind (Leads.of_get (Leads.bind (Leads.of_lift (fun directory allowed => ?_)
    fun _ => .inl)))
  refine Leads.bind (Leads.of_lift (fun _ checked => ?_) fun _ failed => .inr (.inl failed))
  -- the file is registered, and each reader is one holder more
  have taken {err : SortError → Store → Prop} :
      Leads (do
        let file ← Store.register (directory.join ⟨m.fileName⟩)
        let runs ← (readersOf options file (directory.join ⟨m.fileName⟩) m.extents :
          StoreM (List (RunReader ρ)))
        return {
          backing :=
            { options, file := some file, runs := runs.toArray, spills := m.extents.length }
          order } : SpillM (Unbounded ρ)) s
        (fun u s' => ∃ file, TakesUp m options order directory file u s' ∧ s'.disk = s.disk)
        err := by
    obtain ⟨known, fresh⟩ := Store.register_run (directory.join ⟨m.fileName⟩) s
    refine Leads.bind (Leads.of_state (Leads.bind (Leads.of_state (Leads.of_pure ?_))))
    obtain ⟨readers, view, around⟩ := readersOf_eq (ρ := ρ) options
      ((Store.register (directory.join ⟨m.fileName⟩)).run s).1 (directory.join ⟨m.fileName⟩) m.extents
      ((Store.register (directory.join ⟨m.fileName⟩)).run s).2
    obtain ⟨file_eq, disk_eq⟩ := Prod.mk.inj view
    exact ⟨_, ⟨by rw [readers], around.known known, file_eq.trans fresh⟩, disk_eq⟩
  split
  · rename_i some
    have some : m.extents ≠ [] := by simpa using some
    refine Leads.bind (Leads.of_get (Leads.bind (Leads.of_lift (fun _ content => ?_)
      fun _ failed => .inr (.inr ⟨directory, allowed, some, failed⟩))))
    apply taken.mono
    · rintro u s' ⟨file, takesUp, disk⟩
      exact ⟨directory, file, allowed, checked, fun _ => content, takesUp, disk⟩
    · exact fun _ _ h => h
  · rename_i none
    have none : m.extents = [] := by simpa using none
    apply taken.mono
    · rintro u s' ⟨file, takesUp, disk⟩
      exact ⟨directory, file, allowed, checked, absurd none, takesUp, disk⟩
    · exact fun _ _ h => h

/-- A spill moves the buffer into the runs; without a buffer it does nothing. -/
theorem spill_leads [TakesSpace ρ] (keeps : Keeps options order u s spilled buffered) :
    Leads spill (u, s)
      (fun _ p => Keeps options order p.1 p.2 (spilled ++ buffered) [] ∧
        (buffered = [] ∧ p.1.backing.runs.size = u.backing.runs.size ∨
          p.1.backing.runs.size = u.backing.runs.size + 1) ∧
        u.backing.Follows s p.1.backing p.2 ∧ (buffered = [] → p.2 = s))
      (fun _ p => Ends (Keeps options order p.1 p.2) (Keeps options order p.1 p.2 spilled [])
          (p.1.backing.IsCut p.2) u.backing.runs.size p.1.backing.runs.size spilled buffered ∧
        p.1.backing.finished = u.backing.finished ∧ buffered ≠ []) := by
  obtain ⟨rfl, spilt, rfl⟩ := keeps
  apply spill_of
  · intro hempty
    have none : u.records = [] := u.records_eq_nil_iff.mpr hempty
    refine ⟨⟨rfl, ?_, none⟩, .inl ⟨none, rfl⟩, (Backing.Follows.refl _ s).of_eq rfl rfl rfl,
      fun _ => rfl⟩
    rw [none, List.append_nil]
    exact spilt.of_eq rfl rfl rfl
  · intro _ hsome _
    have some : u.records ≠ [] := mt u.records_eq_nil_iff.mp hsome
    exact ⟨.took (.stays ⟨rfl, spilt.of_eq rfl rfl rfl, rfl⟩ rfl), rfl, some⟩
  · intro hsome _
    have some : u.records ≠ [] := mt u.records_eq_nil_iff.mp hsome
    have valid : Std.TransCmp u.spilling.order := ‹_›
    refine sortData_leads (u := u.spilling) fun data sorted records => ?_
    have spilt' : Backing.Spilled options u.order
        { u.backing with spills := u.backing.spills + 1, sorted } s spilled :=
      spilt.of_eq rfl rfl rfl
    dsimp only
    rw [Unbounded.records, records]
    apply (spilt'.writeRun (inOrder_stableSort _) (ties_stableSort _) some).mono
    · rintro run s' ⟨written, follows⟩
      exact ⟨⟨rfl, written.of_eq rfl rfl rfl, rfl⟩, .inr (Array.size_push _),
        ⟨follows.toAround, rfl, rfl, follows.runs, follows.frame⟩, fun none => absurd none some⟩
    -- the buffer was given up before the run was written, so its records are lost
    · rintro e s' ⟨same | cut, around⟩
      · exact ⟨.loses ⟨rfl, same.of_eq rfl rfl rfl, rfl⟩ some rfl, rfl, some⟩
      · exact ⟨.cut cut, rfl, some⟩

/-- A record that is taken goes to the end of the buffer, and the buffer may be spilled. -/
theorem add_leads [TakesSpace ρ] (keeps : Keeps options order u s spilled buffered)
    (accepting : u.backing.finished = false) (x : ρ) (spare : Nat) :
    Leads (add x spare) (u, s)
      (fun _ p => Took (Keeps options order p.1 p.2) u.backing.runs.size p.1.backing.runs.size
          spilled (buffered ++ [x]) ∧ u.backing.Follows s p.1.backing p.2)
      (fun _ p => Ends (Keeps options order p.1 p.2) (Keeps options order p.1 p.2 spilled [])
          (p.1.backing.IsCut p.2) u.backing.runs.size p.1.backing.runs.size spilled
          (buffered ++ [x]) ∧
        p.1.backing.finished = false) := by
  obtain ⟨sameOrder, spilt, data⟩ := keeps
  have taken : Keeps options order (u.charging ⟨x, spare⟩) s spilled (buffered ++ [x]) :=
    ⟨sameOrder, spilt.of_eq rfl rfl rfl, data ▸ u.records_charging ⟨x, spare⟩⟩
  apply add_of_charging
  · exact fun e refused => absurd refused (Backing.not_refused accepting e)
  intro _
  split
  · apply (spill_leads taken).mono
    · rintro _ p ⟨spilt', runs, follows, -⟩
      exact ⟨.of_spilled spilt' runs, follows.of_eq rfl rfl rfl⟩
    · rintro _ p ⟨ends, finished, -⟩
      exact ⟨ends, finished.trans accepting⟩
  · exact Leads.of_pure ⟨.stays taken rfl, (Backing.Follows.refl _ s).of_eq rfl rfl rfl⟩

/-- The buffer is spilled, and the manifest describes the runs. -/
theorem persist_leads [TakesSpace ρ] (keeps : Keeps options order u s spilled buffered)
    (accepting : u.backing.finished = false) :
    Leads persist (u, s)
      (fun m p => Keeps options order p.1 p.2 (spilled ++ buffered) [] ∧
        p.1.backing.finished = false ∧
        ∃ t, u.backing.Follows s p.1.backing t ∧ p.1.backing.Described t m p.2)
      (fun _ p => Ends (Keeps options order p.1 p.2) (Keeps options order p.1 p.2 spilled [])
          (p.1.backing.IsCut p.2) u.backing.runs.size p.1.backing.runs.size spilled buffered ∧
        p.1.backing.finished = false) := by
  apply persist_of
  · exact fun e refused => absurd refused (Backing.not_refused accepting e)
  · exact fun _ _ => ⟨.took (.stays keeps rfl), accepting⟩
  intro _
  -- the manifest comes after the spill, so it can fail with all records in the runs
  refine (spill_leads keeps).mono ?_ ?_
  · rintro _ ⟨u', t⟩ ⟨⟨sameOrder, spilt, none⟩, runs, follows, -⟩
    have finished := follows.finished.trans accepting
    refine spilt.manifest.mono ?_ ?_
    · rintro m s' ⟨spilt', described⟩
      exact ⟨⟨sameOrder, spilt', none⟩, finished, t, follows, described⟩
    · rintro e s' ⟨spilt' | cut, -⟩
      · exact ⟨.took (.of_spilled ⟨sameOrder, spilt', none⟩ runs), finished⟩
      · exact ⟨.cut cut, finished⟩
  · rintro e p ⟨ends, finished, -⟩
    exact ⟨ends, finished.trans accepting⟩

section Done

variable {ok : Sorted ρ → Unbounded ρ × Store → Prop} {err : Failure → Unbounded ρ × Store → Prop}

omit [Std.TransCmp order] in
/-- With nothing spilled the buffer is what comes out. -/
theorem done_of_noRuns [Std.TransCmp u.order] (none : u.backing.runs.isEmpty = true)
    (again : ∀ e, u.backing.requireUnfinished = .error e → err e (u, s))
    (h : u.backing.finished = false → ∀ u', u'.backing.finished = true →
      ok (.inl ⟨stableSort u.order u.records⟩) (u', s)) :
    Leads done (u, s) ok err := by
  have valid : Std.TransCmp u.finishing.order := ‹_›
  refine done_of again (fun accepting _ => ?_) fun _ some => absurd (Array.isEmpty_iff.mp none) some
  refine sortData_leads (u := u.finishing) fun data sorted records _ _ => ?_
  dsimp only
  rw [Unbounded.records, records]
  exact h accepting _ rfl

omit [Std.TransCmp order] in
/-- With runs, the buffer is spilled, and the runs are merged. -/
theorem done_of_runs (some : ¬ u.backing.runs.isEmpty = true)
    (again : ∀ e, u.backing.requireUnfinished = .error e → err e (u, s))
    (h : u.backing.finished = false → Leads spill (u.finishing, s)
      (fun _ p => Leads (p.1.backing.mergeRuns p.1.order) p.2
        (fun sorted s' => ok sorted ({ p.1 with backing := { p.1.backing with runs := #[] } }, s'))
        fun e s' =>
          err (.error e) ({ p.1 with backing := { p.1.backing with runs := #[] } }, s'))
      err) :
    Leads done (u, s) ok err := by
  exact done_of again (fun _ none => absurd (Array.isEmpty_iff.mpr none) some)
    fun accepting _ => h accepting

end Done

/-- The sorter gives out the records that it has taken, as many as a merge gives out at most, or more
    if there are no runs to merge. It fails only if it gave out its records before, or if what is
    left to be written does not fit on the disk. -/
theorem done_leads_first [TakesSpace ρ] [LawfulStorable ρ]
    (keeps : Keeps options order u s spilled buffered) :
    Leads done (u, s)
      (fun sorted p => p.1.backing.finished = true ∧ ∃ n, options.most ≤ n ∧
        (u.backing.runs.isEmpty = false → n = options.most) ∧
        ReadsOut sorted p.2 (leading order n (spilled ++ buffered)))
      (fun _ p => p.1.backing.finished = true ∧
        (u.backing.finished = true ∨ buffered ≠ [] ∨ u.backing.Stuck s)) := by
  have again (e : Failure) (h : u.backing.requireUnfinished = .error e) :
      u.backing.finished = true ∧
        (u.backing.finished = true ∨ buffered ≠ [] ∨ u.backing.Stuck s) :=
    have finished := Backing.finished_of_requireUnfinished h
    ⟨finished, .inl finished⟩
  obtain ⟨rfl, spilt, rfl⟩ := keeps
  by_cases none : u.backing.runs.isEmpty = true
  · obtain rfl := spilt.eq_nil none
    have all : leading u.order (options.most + u.records.length) ([] ++ u.records) =
        stableSort u.order u.records := leading_eq_stableSort (Nat.le_add_left _ _)
    apply done_of_noRuns none again
    intro _ u' finished
    refine ⟨finished, _, Nat.le_add_right _ _, fun more => ?_, by rw [all]; exact readsOut_inMemory _ _⟩
    exact absurd (none.symm.trans more) (by simp)
  · apply done_of_runs none again
    intro _
    have ended : Keeps options u.order u.finishing s spilled u.records :=
      ⟨rfl, spilt.of_eq rfl rfl rfl, rfl⟩
    refine (spill_leads ended).mono ?_ fun _ _ h => ⟨h.2.1, .inr (.inl h.2.2)⟩
    rintro _ ⟨u', t⟩ ⟨⟨sameOrder, spilt', -⟩, runs, follows, same⟩
    have some : u'.backing.runs.isEmpty = false := Backing.isEmpty_runs_of_more none runs
    dsimp only
    rw [sameOrder]
    apply (spilt'.mergeRuns some).mono
    · exact fun sorted s' readsOut => ⟨follows.finished, _, Nat.le_refl _, fun _ => rfl, readsOut⟩
    · rintro _ _ ⟨-, file, hfile, stuck⟩
      refine ⟨follows.finished, .inr ?_⟩
      -- merging fails for bytes not yet written, which come from this spill or from before it
      by_cases none : u.records = []
      · rw [same none] at stuck
        exact .inr ⟨file, follows.file.symm.trans hfile, stuck⟩
      · exact .inl none

/-- The sorter gives out all that it has taken. -/
theorem done_leads [TakesSpace ρ] [LawfulStorable ρ]
    (keeps : Keeps options order u s spilled buffered)
    (few : (spilled ++ buffered).length ≤ options.most) :
    Leads done (u, s)
      (fun sorted p => p.1.backing.finished = true ∧
        Drains sorted p.2 (stableSort order (spilled ++ buffered)))
      (fun _ p => p.1.backing.finished = true ∧
        (u.backing.finished = true ∨ buffered ≠ [] ∨ u.backing.Stuck s)) := by
  apply (done_leads_first keeps).mono
  · rintro sorted p ⟨finished, n, most, -, readsOut⟩
    rw [leading_eq_stableSort (Nat.le_trans few most)] at readsOut
    exact ⟨finished, readsOut.drains⟩
  · exact fun _ _ h => h

end Unbounded
end ExternalSort
