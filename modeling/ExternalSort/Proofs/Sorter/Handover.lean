/-
  ExternalSort.Proofs.Sorter.Handover

  A sorter without a limit that takes up what a sorter with one has persisted.

  A sorter with a limit drops records, but only such that the ones it keeps have
  the same first ones, whatever is handed over after them. What it writes out
  are the records it kept, so the sorter that takes them up finds the first ones
  of everything that either of the two was handed, and nothing else.
-/

import ExternalSort.Proofs.Sorter.Generations

namespace ExternalSort

variable {ρ : Type} {order : Comparator ρ} {k : Nat}

/-! ## Records that are kept -/

/-- Some of a list of records, in their order, among which are the first ones. -/
structure Selects (order : Comparator ρ) (k : Nat) (kept xs : List ρ) : Prop where
  sublist : kept.Sublist xs
  same : leading order k kept = leading order k xs

namespace Selects

variable [Std.TransCmp order] {kept kept' xs ys : List ρ}

omit [Std.TransCmp order] in
theorem refl (order : Comparator ρ) (k : Nat) (xs : List ρ) : Selects order k xs xs :=
  ⟨List.Sublist.refl xs, rfl⟩

omit [Std.TransCmp order] in
theorem trans (h : Selects order k kept' kept) (h' : Selects order k kept xs) :
    Selects order k kept' xs :=
  ⟨h.sublist.trans h'.sublist, h.same.trans h'.same⟩

/-- What comes later is all kept. -/
theorem append (h : Selects order k kept xs) (ys : List ρ) :
    Selects order k (kept ++ ys) (xs ++ ys) :=
  ⟨h.sublist.append (List.Sublist.refl ys), leading_append_congr h.same ys⟩

end Selects

variable [Storable ρ] {options options' : Options} {t : TopK ρ} {s : Store}
  {xs spilled buffered : List ρ}

/-! ## The sorter with a limit -/

/-- What calls make of a sorter with a limit: it keeps some of the records, and its file and its
    runs stay. -/
def TopK.Fed (options : Options) (order : Comparator ρ) (t : TopK ρ) (s : Store) (xs : List ρ)
    (p : Sorter ρ × Store) : Prop :=
  ∃ t' spilled buffered, p.1 = .topK t' ∧ t'.Keeps options order p.2 spilled buffered ∧
    Selects order options.most (spilled ++ buffered) xs ∧ t'.backing.finished = false ∧
    t.backing.Advances s t'.backing p.2

omit [Storable ρ] in
/-- A new sorter has a file with a name of its own. -/
theorem TopK.ofOptions_housed (options : Options) (order : Comparator ρ) (s : Store) :
    Leads (ofOptions options order : SpillM (TopK ρ)) s
      (fun t s' => ∃ name, t.backing.Housed options name s') (fun _ _ => True) := by
  rw [ofOptions]
  refine Leads.bind (Leads.of_get (Leads.bind (Leads.of_lift (fun _ _ => ?_) fun _ _ => trivial)))
  split
  · exact Leads.bind (Leads.of_throw trivial)
  · exact Leads.bind (Leads.of_state (Leads.of_pure (Backing.ofOptions_housed ρ options s)))

/-- The runs of a sorter stand on disk, as the manifest tells that was made of them. -/
structure TopK.Persisted (options : Options) (order : Comparator ρ) (xs : List ρ) (m : Manifest)
    (t : TopK ρ) (s : Store) : Prop where
  described : ∃ s', t.backing.Described s' m s
  stands : ∃ lists, t.backing.Stands options s lists
  leaves : ∃ kept, Selects order options.most kept xs ∧ m.Leaves options order s.disk kept

namespace Sorter

variable [TakesSpace ρ] [Std.TransCmp order]

/-- Every record that is offered is kept, or the first ones are the same without it. -/
theorem feed_topK (keeps : t.Keeps options order s spilled buffered)
    (accepting : t.backing.finished = false)
    (selects : Selects order options.most (spilled ++ buffered) xs) (calls : List (Call ρ)) :
    Leads (feed calls) (.topK t, s)
      (fun _ => t.Fed options order s (xs ++ offered calls)) (fun _ _ => True) := by
  induction calls generalizing t s spilled buffered xs with
  | nil =>
    rw [offered, List.append_nil]
    exact Leads.of_pure ⟨t, spilled, buffered, rfl, keeps, selects, accepting, .refl _ _⟩
  | cons call rest ih =>
    -- what is left of the calls goes to the sorter that a call left behind
    have continues {t' : TopK ρ} {s' : Store} {spilled' buffered' : List ρ}
        (keeps' : t'.Keeps options order s' spilled' buffered')
        (accepting' : t'.backing.finished = false) (advances : t.backing.Advances s t'.backing s')
        (selects' : Selects order options.most (spilled' ++ buffered') (xs ++ offered [call])) :
        Leads (feed rest) (.topK t', s')
          (fun _ => t.Fed options order s (xs ++ offered (call :: rest))) (fun _ _ => True) := by
      refine (ih keeps' accepting' selects').mono ?_ fun _ _ h => h
      rintro _ p ⟨t'', spilled'', buffered'', kind, keeps'', selects'', accepting'', advances'⟩
      refine ⟨t'', spilled'', buffered'', kind, keeps'', ?_, accepting'', advances.trans advances'⟩
      rw [List.append_assoc] at selects''
      cases call <;> exact selects''
    cases call with
    | add x spare =>
      obtain ⟨buffered', fewer, same, leads⟩ := TopK.add_leads keeps accepting x spare
      have selects' : Selects order options.most (spilled ++ buffered') (xs ++ [x]) := by
        refine Selects.trans ⟨?_, same.symm⟩ (selects.append [x])
        rw [List.append_assoc]
        exact (List.Sublist.refl spilled).append fewer
      refine Leads.bind ?_
      apply dispatch_topK
      apply leads.mono
      · rintro _ ⟨t', s'⟩ ⟨took, follows⟩
        obtain ⟨spilled', buffered'', all, keeps'⟩ := took.exists_keeps
        exact continues keeps' (follows.finished.trans accepting) follows.advances (all ▸ selects')
      · exact fun _ _ _ => trivial
    | persist =>
      refine Leads.bind ?_
      apply dispatch_topK
      apply (TopK.persist_leads keeps accepting).mono
      · rintro m ⟨t', s'⟩ ⟨keeps', accepting', s'', follows, described⟩
        refine continues keeps' accepting' (follows.advances.trans described.advances) ?_
        rw [offered, offered, List.append_nil, List.append_nil]
        exact selects
      · exact fun _ _ _ => trivial

/-- A sorter with a limit that is persisted has the records that it kept on disk. -/
theorem persisted_topK_leads (limit : 1 < options.limit)
    (faithful : FaithfulHook options.activeProtector) (calls : List (Call ρ)) :
    Leads (employ (ofOptions options order) (do feed calls; persist)) s
      (fun p s' => ∃ t, p.2 = .topK t ∧ t.Persisted options order (offered calls) p.1 s')
      (fun _ _ => True) := by
  have made : Leads (ofOptions options order : SpillM (Sorter ρ)) s
      (fun sorter s' => ∃ t, sorter = .topK t ∧ t.backing.finished = false ∧
        t.Keeps options order s' [] [] ∧ ∃ name, t.backing.Housed options name s')
      (fun _ _ => True) := by
    have above := UInt64.lt_iff_toNat_lt.mp limit
    rw [ofOptions]
    refine Leads.bind (Leads.of_get (Leads.bind (Leads.of_lift (fun _ _ => ?_) fun _ _ => trivial)))
    -- a limit above 1 rules out the other two kinds of sorters
    rw [if_neg (by rintro zero; rw [zero] at above; exact absurd above (by decide)),
      if_neg (by rintro one; rw [one] at above; exact absurd above (by decide))]
    refine Leads.seq ((TopK.ofOptions_leads faithful s).and (TopK.ofOptions_housed options order s))
      ?_ fun _ _ _ => trivial
    rintro t s' ⟨⟨accepting, keeps⟩, housed⟩
    exact Leads.of_pure ⟨t, rfl, accepting, keeps, housed⟩
  refine employ_leads made ?_
  rintro _ s₁ ⟨t, rfl, accepting, keeps, name, housed⟩
  refine Leads.seq (feed_topK keeps accepting (Selects.refl order options.most []) calls) ?_
    fun _ _ _ => trivial
  rintro _ ⟨_, s₂⟩ ⟨t₂, spilled, buffered, rfl, keeps₂, selects, accepting₂, advances⟩
  apply dispatch_topK
  apply (TopK.persist_leads keeps₂ accepting₂).mono
  · rintro m ⟨t₃, s₃⟩ ⟨keeps₃, -, s', follows, described⟩
    -- the manifest tells where the runs lie, and what the sorter kept lies there
    obtain ⟨lists, stands, inOrder, ties⟩ := keeps₃.inRuns
    have housed₃ := housed.of_advances (advances.trans follows.advances)
    obtain ⟨describes, -⟩ := housed₃.describes described stands
    exact ⟨t₃, rfl, ⟨s', described⟩, ⟨lists, stands⟩, _, selects, lists, describes, inOrder, ties⟩
  · exact fun _ _ _ => trivial

/-- Whoever takes up what a sorter with a limit persisted gives out the first records of everything
    that was handed over, to it or to the sorter with the limit. -/
theorem finish_of_kept_leads [LawfulStorable ρ] {m : Manifest} {kept : List ρ}
    (faithful : FaithfulHook options.activeProtector) (alike : options.Alike options')
    (most : k ≤ Merge.unlimited) (selects : Selects order k kept xs)
    (leaves : m.Leaves options order s.disk kept) (next : List (Call ρ)) :
    Leads (employ (resume m options' order) (do feed next; done)) s
      (fun p t => ∃ out, Drains p.1 t out ∧ out.take k = leading order k (xs ++ offered next) ∧
        ((xs ++ offered next).length ≤ Merge.unlimited → out.Perm (kept ++ offered next)))
      (fun _ _ => True) := by
  have faithful' : FaithfulHook options'.activeProtector := by
    rw [alike.protector]
    exact faithful
  apply (finish_leads_first (resume_leads faithful leaves alike)).mono
  · rintro p t ⟨n, unlimited, drains⟩
    have all := selects.append (offered next)
    refine ⟨_, drains, ?_, fun few => ?_⟩
    · rw [← all.same, leading, leading, List.take_take, Nat.min_eq_left (Nat.le_trans most unlimited)]
    · rw [leading_eq_stableSort]
      · exact perm_stableSort _
      · exact Nat.le_trans (Nat.le_trans all.sublist.length_le few) unlimited
  · exact fun _ _ _ => trivial

/-! ## Records of any kinds that take space -/

/-- When a sorter with a limit was persisted and a sorter without one took up its runs and more
    records, what comes out begins with the first records of all that was handed to either. What
    comes out is all that was handed to the second, and some of what was handed to the first. -/
theorem drains_first_of_handover {key value : Kind} (kinds : ¬ (key = .null ∧ value = .null))
    {options options' : Options} {order : Comparator (Record key value)} [Std.TransCmp order]
    (limit : 1 < options.limit) (faithful : FaithfulHook options.activeProtector)
    (alike : options.Alike options') {calls next : List (Call (Record key value))}
    {s s' t t' : Store} {m : Manifest} {sorter sorter' : Sorter (Record key value)}
    {sorted : Sorted (Record key value)}
    (h : (employ (ofOptions options order) (do feed calls; persist)).run.run s =
      (.ok (m, sorter), s'))
    (later : t.disk = s'.disk ∨ t.disk = (sorter.release.run s').2.disk)
    (h' : (employ (resume m options' order) (do feed next; done)).run.run t =
      (.ok (sorted, sorter'), t')) :
    StablySorts order (offered calls ++ offered next)
        (stableSort order (offered calls ++ offered next)) ∧
      ∃ kept out, kept.Sublist (offered calls) ∧ Drains sorted t' out ∧
        out.take options.limit.toNat =
          (stableSort order (offered calls ++ offered next)).take options.limit.toNat ∧
        ((offered calls ++ offered next).length < UInt64.size →
          out.Perm (kept ++ offered next)) := by
  have space := Record.takesSpace kinds
  obtain ⟨u, rfl, persisted⟩ := (persisted_topK_leads limit faithful calls).of_ok h
  obtain ⟨s₁, described⟩ := persisted.described
  obtain ⟨lists, stands⟩ := persisted.stands
  obtain ⟨kept, selects, leaves⟩ := persisted.leaves
  -- giving the first sorter up does not touch what it wrote
  have disk : t.disk = s'.disk := by
    rcases later with same | released
    · exact same
    · exact released.trans (Backing.release_of_described described stands).1
  rw [← disk] at leaves
  have most : options.most = options.limit.toNat := by
    rw [Options.most, if_neg]
    rintro zero
    rw [zero] at limit
    exact absurd limit (by decide)
  rw [most] at selects
  have unlimited : options.limit.toNat ≤ Merge.unlimited :=
    Nat.le_pred_of_lt options.limit.toNat_lt
  obtain ⟨out, drains, first, perm⟩ :=
    (finish_of_kept_leads faithful alike unlimited selects leaves next).of_ok h'
  exact ⟨stablySorts_stableSort _, kept, out, selects.sublist, drains, first,
    fun few => perm (Nat.le_pred_of_lt few)⟩

/-- Records that a sorter without a limit takes after one with a limit of two: a better one, and one
    that the cutoff would have rejected. -/
def callsAfterCutoff : List (Call Numbered) := [.add (0, ()), .add (3, ())]

/-- The sorter with a limit is persisted, and the one without a limit is done. -/
def handsOver : Bool :=
  match (employ (ofOptions spillingTwo ascending)
      (do feed callsWithCutoff; persist)).run.run {} with
  | (.ok (m, sorter), s') => ((employ (resume m spilling ascending)
    (do feed callsAfterCutoff; done)).run.run (sorter.release.run s').2).1.isOk
  | (.error _, _) => false

theorem drains_first_of_handover_two :
    ∃ m sorter s' sorted sorter' t',
      (employ (ofOptions spillingTwo ascending) (do feed callsWithCutoff; persist)).run.run {} =
        (.ok (m, sorter), s') ∧
      (employ (resume m spilling ascending) (do feed callsAfterCutoff; done)).run.run
        (sorter.release.run s').2 = (.ok (sorted, sorter'), t') ∧
      ∃ kept out, kept.Sublist (offered callsWithCutoff) ∧ Drains sorted t' out ∧
        out.take 2 =
          (stableSort ascending (offered callsWithCutoff ++ offered callsAfterCutoff)).take 2 ∧
        out.Perm (kept ++ offered callsAfterCutoff) := by
  have succeeds : handsOver = true := by decide +kernel
  rw [handsOver] at succeeds
  rcases h : (employ (ofOptions spillingTwo ascending) (do feed callsWithCutoff; persist)).run.run {}
    with ⟨_ | ⟨m, sorter⟩, s'⟩ <;> rw [h] at succeeds
  · exact Bool.noConfusion succeeds
  · dsimp only at succeeds
    rcases h' : (employ (resume m spilling ascending) (do feed callsAfterCutoff; done)).run.run
      (sorter.release.run s').2 with ⟨_ | ⟨sorted, sorter'⟩, t'⟩
    · rw [h'] at succeeds
      exact Bool.noConfusion succeeds
    · have faithful : FaithfulHook spillingTwo.activeProtector := .of_none rfl
      have limit : 1 < spillingTwo.limit := by decide
      have alike : spillingTwo.Alike spilling := ⟨rfl, rfl, rfl⟩
      obtain ⟨-, kept, out, fewer, drains, first, perm⟩ :=
        drains_first_of_handover (by decide) limit faithful alike h (.inr rfl) h'
      exact ⟨m, sorter, s', sorted, sorter', t', rfl, h', kept, out, fewer, drains, first,
        perm (by decide)⟩

end Sorter
end ExternalSort
