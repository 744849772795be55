/-
  ExternalSort.Proofs.Sorter.Generations

  A sort that is carried on by one sorter after another.

  Each sorter takes some records, persists its runs, and is given up; the next
  one takes up the manifest, which went through its written form. The last one
  gives out the stable sort of everything, as a single sorter would have done.
-/

import ExternalSort.Proofs.Sorter.Persisted
import ExternalSort.Proofs.Sorter.Resumed

namespace ExternalSort

variable {ρ : Type} [Storable ρ]

/-! ## What goes from one sorter to the next -/

/-- A later manifest tells of the same file and of the same runs, and of more. -/
structure Manifest.Extends (earlier later : Manifest) : Prop where
  fileName : later.fileName = earlier.fileName
  extents : earlier.extents <+: later.extents

theorem Manifest.Extends.trans {a b c : Manifest} (h : a.Extends b) (k : b.Extends c) :
    a.Extends c :=
  ⟨k.fileName.trans h.fileName, h.extents.trans k.extents⟩

/-- The runs that a manifest tells of are sorted, and have the given records between them. -/
def Manifest.Leaves (m : Manifest) (options : Options) (order : Comparator ρ) (d : Disk)
    (xs : List ρ) : Prop :=
  ∃ lists, m.Describes options d lists ∧ (∀ ys ∈ lists, InOrder order ys) ∧
    Ties order lists.flatten xs

/-- A sorter that persisted its runs has the given records in them, and its manifest tells of them
    and of those of an earlier one. -/
structure Unbounded.Persisted (options : Options) (order : Comparator ρ) (earlier : Option Manifest)
    (xs : List ρ) (m : Manifest) (u : Unbounded ρ) (s : Store) : Prop where
  limit : options.limit = 0
  keeps : u.Keeps options order s xs []
  accepting : u.backing.finished = false
  described : ∃ t, u.backing.Described t m s
  leaves : m.Leaves options order s.disk xs
  grows : ∀ m' ∈ earlier, m'.Extends m

/-- A sorter that has the given records in its runs, and the runs of an earlier manifest first. -/
structure Unbounded.Heir (options : Options) (order : Comparator ρ) (earlier : Option Manifest)
    (xs : List ρ) (u : Unbounded ρ) (s : Store) : Prop where
  limit : options.limit = 0
  keeps : u.Keeps options order s xs []
  accepting : u.backing.finished = false
  housed : ∃ name, u.backing.Housed options name s ∧ ∀ m ∈ earlier, m.fileName = name
  extents : ∀ m ∈ earlier, m.extents = u.backing.runs.toList.map (·.extent)

namespace Sorter

/-- Takes records, persists the runs, and gives the sorter up. -/
def leave (make : SpillM (Sorter ρ)) (calls : List (Call ρ)) : ExceptT Failure StoreM Manifest := do
  let (manifest, sorter) ← employ make (do feed calls; persist)
  sorter.release
  return manifest

/-- Takes up what a written manifest tells of. -/
def takeUp (text : String) (options : Options) (order : Comparator ρ) : SpillM (Sorter ρ) := do
  let manifest ← Manifest.ofJsonText text
  resume manifest options order

/-- Makes calls to a sorter, and to one after another that takes up what the one before left. Tells
    every manifest, and what the last sorter gives out. -/
def generations (order : Comparator ρ) : SpillM (Sorter ρ) → List (Call ρ) →
    List (Options × List (Call ρ)) → ExceptT Failure StoreM (List Manifest × Sorted ρ)
  | make, calls, [] => do
    let (sorted, _) ← employ make (do feed calls; done)
    return ([], sorted)
  | make, calls, (options, next) :: rest => do
    let manifest ← leave make calls
    let (manifests, sorted) ← generations order (takeUp manifest.jsonText options order) next rest
    return (manifest :: manifests, sorted)

/-- The records handed over in all. -/
def offeredInAll (calls : List (Call ρ)) (rest : List (Options × List (Call ρ))) : List ρ :=
  offered calls ++ rest.flatMap fun p => offered p.2

variable {options options' : Options} {order : Comparator ρ} {earlier : Option Manifest}
  {s : Store} {xs spilled buffered : List ρ} {u : Unbounded ρ}

omit [Storable ρ] in
/-- A manifest is taken up from its written form. -/
theorem takeUp_jsonText (m : Manifest) :
    takeUp m.jsonText options order = resume m options order := by
  rw [takeUp, Manifest.ofJsonText_jsonText]
  rfl

/-! ## One sorter -/

section One

variable [TakesSpace ρ] [Std.TransCmp order]

/-- Making a sorter fails or gives one that has the given records in its runs. -/
def MakesHeir (options : Options) (order : Comparator ρ) (earlier : Option Manifest) (xs : List ρ)
    (make : SpillM (Sorter ρ)) (s : Store) : Prop :=
  Leads make s (fun sorter t => ∃ u, sorter = .unbounded u ∧ u.Heir options order earlier xs t)
    fun _ _ => True

/-- What calls make of a sorter without a limit: it keeps the given records. -/
def Fed (options : Options) (order : Comparator ρ) (u : Unbounded ρ) (s : Store) (xs : List ρ)
    (p : Sorter ρ × Store) : Prop :=
  ∃ u' spilled buffered, p.1 = .unbounded u' ∧ u'.Keeps options order p.2 spilled buffered ∧
    spilled ++ buffered = xs ∧ u'.backing.finished = false ∧ u.backing.Advances s u'.backing p.2

theorem feed_unbounded (keeps : u.Keeps options order s spilled buffered)
    (accepting : u.backing.finished = false) (calls : List (Call ρ)) :
    Leads (feed calls) (.unbounded u, s)
      (fun _ => Fed options order u s (spilled ++ buffered ++ offered calls))
      (fun _ _ => True) := by
  induction calls generalizing u s spilled buffered with
  | nil =>
    rw [offered, List.append_nil]
    exact Leads.of_pure ⟨u, spilled, buffered, rfl, keeps, rfl, accepting, .refl _ _⟩
  | cons call rest ih =>
    -- what is left of the calls goes to the sorter that a call left behind
    have continues {u' : Unbounded ρ} {t : Store} {spilled' buffered' : List ρ}
        (keeps' : u'.Keeps options order t spilled' buffered')
        (accepting' : u'.backing.finished = false) (advances : u.backing.Advances s u'.backing t)
        (all : spilled' ++ buffered' = spilled ++ buffered ++ offered [call]) :
        Leads (feed rest) (.unbounded u', t)
          (fun _ => Fed options order u s (spilled ++ buffered ++ offered (call :: rest)))
          (fun _ _ => True) := by
      refine (ih keeps' accepting').mono ?_ fun _ _ h => h
      rintro _ p ⟨u'', spilled'', buffered'', kind, keeps'', all', accepting'', advances'⟩
      refine ⟨u'', spilled'', buffered'', kind, keeps'', ?_, accepting'',
        advances.trans advances'⟩
      rw [all', all, List.append_assoc]
      cases call <;> rfl
    cases call with
    | add x spare =>
      refine Leads.bind ?_
      apply dispatch_unbounded
      apply (Unbounded.add_leads keeps accepting x spare).mono
      · rintro _ ⟨u', t⟩ ⟨took, follows⟩
        obtain ⟨spilled', buffered', all, keeps'⟩ := took.exists_keeps
        exact continues keeps' (follows.finished.trans accepting) follows.advances
          (all.trans (List.append_assoc _ _ _).symm)
      · exact fun _ _ _ => trivial
    | persist =>
      refine Leads.bind ?_
      apply dispatch_unbounded
      apply (Unbounded.persist_leads keeps accepting).mono
      · rintro _ ⟨u', t⟩ ⟨keeps', accepting', t', follows, described⟩
        exact continues keeps' accepting' (follows.advances.trans described.advances)
          (by rw [List.append_nil, offered, offered, List.append_nil])
      · exact fun _ _ _ => trivial

/-- A sorter that is persisted has its records on disk, behind those that it took up. -/
theorem persisted_leads {make : SpillM (Sorter ρ)} {calls : List (Call ρ)}
    (made : MakesHeir options order earlier xs make s) :
    Leads (employ make (do feed calls; persist)) s
      (fun p t => ∃ u, p.2 = .unbounded u ∧
        u.Persisted options order earlier (xs ++ offered calls) p.1 t)
      (fun _ _ => True) := by
  refine employ_leads made ?_
  rintro _ t ⟨u, rfl, heir⟩
  refine Leads.seq (feed_unbounded heir.keeps heir.accepting calls) ?_ fun _ _ _ => trivial
  rintro _ ⟨_, t₁⟩ ⟨u', spilled, buffered, rfl, keeps, all, accepting, advances⟩
  obtain ⟨name, housed, sameName⟩ := heir.housed
  apply dispatch_unbounded
  apply (Unbounded.persist_leads keeps accepting).mono
  · rintro m ⟨u'', t₂⟩ ⟨keeps', accepting', t', follows, described⟩
    rw [all, List.append_nil] at keeps'
    have advances' := advances.trans follows.advances
    obtain ⟨lists, stands, inOrder, ties⟩ := keeps'.spilled
    obtain ⟨describes, named⟩ := (housed.of_advances advances').describes described stands
    refine ⟨u'', rfl, heir.limit, keeps', accepting', ⟨t', described⟩,
      ⟨lists, describes, inOrder, ties⟩, fun m' hm' => ⟨named.trans (sameName m' hm').symm, ?_⟩⟩
    rw [heir.extents m' hm', described.extents]
    exact advances'.runs.map _
  · exact fun _ _ _ => trivial

/-- A sorter that is given up leaves its records on disk. -/
theorem leave_leads {make : SpillM (Sorter ρ)} {calls : List (Call ρ)}
    (made : MakesHeir options order earlier xs make s) :
    Leads (leave make calls) s
      (fun m t => m.Leaves options order t.disk (xs ++ offered calls) ∧ ∀ m' ∈ earlier, m'.Extends m)
      (fun _ _ => True) := by
  rw [leave]
  refine Leads.seq (persisted_leads made) ?_ fun _ _ _ => trivial
  rintro ⟨m, _⟩ t ⟨u, rfl, persisted⟩
  obtain ⟨_, described⟩ := persisted.described
  obtain ⟨_, stands, -⟩ := persisted.keeps.spilled
  have disk : ((Sorter.unbounded u).release.run t).2.disk = t.disk :=
    (Backing.release_of_described described stands).1
  refine Leads.bind (Leads.of_state (Leads.of_pure ⟨?_, persisted.grows⟩))
  rw [disk]
  exact persisted.leaves

omit [TakesSpace ρ] [Std.TransCmp order] in
/-- Who takes up what was left has the same records in the same runs. -/
theorem resume_leads {m : Manifest} (faithful : FaithfulHook options.activeProtector)
    (leaves : m.Leaves options order s.disk xs) (alike : options.Alike options') :
    MakesHeir options' order (some m) xs (resume m options' order) s := by
  obtain ⟨lists, describes, inOrder, ties⟩ := leaves
  rw [← alike.protector] at faithful
  rw [MakesHeir, resume]
  refine Leads.seq (Unbounded.resume_of_describes faithful (describes.alike alike)) ?_
    fun _ _ _ => trivial
  intro u t tookUp
  refine Leads.of_pure ⟨u, rfl, tookUp.limit,
    ⟨tookUp.sameOrder, ⟨lists, tookUp.stands, inOrder, ties⟩, ?_⟩, tookUp.accepting,
    ⟨m.fileName, tookUp.housed, ?_⟩, ?_⟩
  · exact u.records_eq_nil_iff.mpr tookUp.data
  · rintro _ ⟨⟩
    rfl
  · rintro _ ⟨⟩
    exact tookUp.extents.symm

/-- A sorter gives out what it took up and what was handed to it, no fewer records than a merge gives
    out at most. -/
theorem finish_leads_first [LawfulStorable ρ] {make : SpillM (Sorter ρ)} {calls : List (Call ρ)}
    (made : MakesHeir options order earlier xs make s) :
    Leads (employ make (do feed calls; done)) s
      (fun p t => ∃ n, Merge.unlimited ≤ n ∧ Drains p.1 t (leading order n (xs ++ offered calls)))
      (fun _ _ => True) := by
  refine employ_leads made ?_
  rintro _ t ⟨u, rfl, heir⟩
  refine Leads.seq (feed_unbounded heir.keeps heir.accepting calls) ?_ fun _ _ _ => trivial
  rintro _ ⟨_, t₁⟩ ⟨u', spilled, buffered, rfl, keeps, all, -, -⟩
  rw [List.append_nil] at all
  apply dispatch_unbounded
  apply (Unbounded.done_leads_first keeps).mono
  · rintro sorted _ ⟨-, n, most, -, readsOut⟩
    rw [Options.most, if_pos heir.limit] at most
    rw [all] at readsOut
    exact ⟨n, most, readsOut.drains⟩
  · exact fun _ _ _ => trivial

/-- A sorter gives out what it took up and what was handed to it. -/
theorem finish_leads [LawfulStorable ρ] {make : SpillM (Sorter ρ)} {calls : List (Call ρ)}
    (few : (xs ++ offered calls).length ≤ Merge.unlimited)
    (made : MakesHeir options order earlier xs make s) :
    Leads (employ make (do feed calls; done)) s
      (fun p t => Drains p.1 t (stableSort order (xs ++ offered calls))) (fun _ _ => True) := by
  apply (finish_leads_first made).mono
  · rintro p t ⟨n, most, drains⟩
    rwa [leading_eq_stableSort (Nat.le_trans few most)] at drains
  · exact fun _ _ _ => trivial

omit [TakesSpace ρ] [Std.TransCmp order] in
/-- The first sorter takes up nothing. -/
theorem ofOptions_heir (limit : options.limit = 0) (faithful : FaithfulHook options.activeProtector) :
    MakesHeir options order none ([] : List ρ) (ofOptions options order) s := by
  rw [MakesHeir, ofOptions]
  refine Leads.bind (Leads.of_get (Leads.bind (Leads.of_lift (fun _ _ => ?_) fun _ _ => trivial)))
  rw [if_pos limit, Unbounded.ofOptions]
  refine Leads.bind (Leads.bind (Leads.of_get (Leads.bind (Leads.of_lift (fun _ _ => ?_)
    fun _ _ => trivial))))
  split
  · exact Leads.bind (Leads.of_throw trivial)
  · obtain ⟨accepting, stands⟩ := Backing.ofOptions_stands ρ faithful s
    obtain ⟨name, housed⟩ := Backing.ofOptions_housed ρ options s
    exact Leads.bind (Leads.of_state (Leads.of_pure (Leads.of_pure ⟨_, rfl, limit,
      ⟨rfl, Backing.Spilled.nil stands, rfl⟩, accepting, ⟨name, housed, by simp⟩, by simp⟩)))

end One

/-! ## All of them -/

variable [TakesSpace ρ] [LawfulStorable ρ] [Std.TransCmp order]

theorem generations_leads {make : SpillM (Sorter ρ)} {calls : List (Call ρ)}
    {rest : List (Options × List (Call ρ))}
    (faithful : FaithfulHook options.activeProtector) (alike : ∀ p ∈ rest, options.Alike p.1)
    (few : (xs ++ offeredInAll calls rest).length ≤ Merge.unlimited)
    (made : MakesHeir options order earlier xs make s) :
    Leads (generations order make calls rest) s
      (fun p t => Drains p.2 t (stableSort order (xs ++ offeredInAll calls rest)) ∧
        (∀ m ∈ p.1, m.checkExtents = .ok ()) ∧ p.1.Pairwise Manifest.Extends ∧
        ∀ m' ∈ earlier, ∀ m ∈ p.1, m'.Extends m)
      (fun _ _ => True) := by
  -- by induction on the sorters to come, for any way to make the one at work
  induction rest generalizing make calls options s xs earlier with
  | nil =>
    rw [offeredInAll, List.flatMap_nil, List.append_nil] at few ⊢
    rw [generations]
    refine Leads.seq (finish_leads few made) ?_ fun _ _ _ => trivial
    rintro ⟨sorted, sorter⟩ t drains
    exact Leads.of_pure ⟨drains, by simp, .nil, by simp⟩
  | cons p rest ih =>
    obtain ⟨options', next⟩ := p
    obtain ⟨here, others⟩ := List.forall_mem_cons.mp alike
    have all : xs ++ offeredInAll calls ((options', next) :: rest)
        = xs ++ offered calls ++ offeredInAll next rest := by
      rw [offeredInAll, List.flatMap_cons, offeredInAll, List.append_assoc]
    rw [all] at few ⊢
    rw [generations]
    refine Leads.seq (leave_leads made) ?_ fun _ _ _ => trivial
    rintro m t ⟨leaves, grows⟩
    have checked : m.checkExtents = .ok () := by
      obtain ⟨_, describes, -⟩ := leaves
      exact describes.checkExtents
    rw [takeUp_jsonText]
    refine Leads.seq (ih (by rw [here.protector]; exact faithful)
      (fun p hp => here.symm.trans (others p hp)) few (resume_leads faithful leaves here)) ?_
      fun _ _ _ => trivial
    rintro ⟨manifests, sorted⟩ t' ⟨drains, checks, pairs, later⟩
    -- what is said of a later sorter names the manifest that it takes up
    have first : ∀ m' ∈ manifests, m.Extends m' := later m rfl
    refine Leads.of_pure ⟨drains, List.forall_mem_cons.mpr ⟨checked, checks⟩,
      List.pairwise_cons.mpr ⟨first, pairs⟩, fun m' hm' => ?_⟩
    exact List.forall_mem_cons.mpr ⟨grows m' hm', fun m'' hm'' =>
      (grows m' hm').trans (first m'' hm'')⟩

/-- A sort that is carried on by any number of sorters, whatever the budgets of each are, gives out
    the stable sort of all records handed to any of them, fewer than the `2 ^ 64 - 1` that a merge
    counts at most. Every manifest on the way passes its check, and tells of the same file and of the
    runs of those before it, and of more. -/
theorem drains_stableSort_of_generations {key value : Kind}
    (kinds : ¬ (key = .null ∧ value = .null)) {order : Comparator (Record key value)}
    [Std.TransCmp order] {options : Options} (limit : options.limit = 0)
    (faithful : FaithfulHook options.activeProtector) {calls : List (Call (Record key value))}
    {rest : List (Options × List (Call (Record key value)))}
    (alike : ∀ p ∈ rest, options.Alike p.1)
    (few : (offeredInAll calls rest).length < UInt64.size - 1) {s s' : Store}
    {manifests : List Manifest} {sorted : Sorted (Record key value)}
    (h : (generations order (ofOptions options order) calls rest).run.run s =
      (.ok (manifests, sorted), s')) :
    StablySorts order (offeredInAll calls rest) (stableSort order (offeredInAll calls rest)) ∧
      Drains sorted s' (stableSort order (offeredInAll calls rest)) ∧
      (∀ m ∈ manifests, m.checkExtents = .ok ()) ∧ manifests.Pairwise Manifest.Extends := by
  have space := Record.takesSpace kinds
  obtain ⟨drains, checks, grows, -⟩ := (generations_leads faithful alike (Nat.le_of_lt few)
    (ofOptions_heir limit faithful)).of_ok h
  exact ⟨stablySorts_stableSort _, drains, checks, grows⟩

/-- Options as before, with a larger budget. -/
def roomy : Options := { spilling with memoryBudget := 4096 }

/-- A sorter that does nothing, and one that takes the last records. -/
def carriedOn : List (Options × List (Call Numbered)) :=
  [(roomy, []), (spilling, [.add (1, ()), .persist, .add (3, ())])]

theorem drains_stableSort_carriedOn :
    ∃ manifests sorted s', (generations ascending (ofOptions spilling ascending) [.add (2, ())]
        carriedOn).run.run {} = (.ok (manifests, sorted), s') ∧
      StablySorts ascending (offeredInAll [.add (2, ())] carriedOn)
        (stableSort ascending (offeredInAll [.add (2, ())] carriedOn)) ∧
      Drains sorted s' (stableSort ascending (offeredInAll [.add (2, ())] carriedOn)) ∧
      (∀ m ∈ manifests, m.checkExtents = .ok ()) ∧ manifests.Pairwise Manifest.Extends := by
  have succeeds : ((generations ascending (ofOptions spilling ascending) [.add (2, ())]
      carriedOn).run.run {}).1.isOk = true := by decide +kernel
  rcases h : (generations ascending (ofOptions spilling ascending) [.add (2, ())]
    carriedOn).run.run {} with ⟨_ | ⟨manifests, sorted⟩, s'⟩
  · rw [h] at succeeds
    exact Bool.noConfusion succeeds
  · have faithful : FaithfulHook spilling.activeProtector := .of_none rfl
    have alike : ∀ p ∈ carriedOn, spilling.Alike p.1 := by
      simp only [carriedOn, List.forall_mem_cons]
      exact ⟨⟨rfl, rfl, rfl⟩, ⟨rfl, rfl, rfl⟩, by simp⟩
    exact ⟨manifests, sorted, s', rfl,
      drains_stableSort_of_generations (by decide) rfl faithful alike (by decide) h⟩

end Sorter
end ExternalSort
