/-
  ExternalSort.Proofs.Sorter.Strategies

  What a sorter of any kind retains of the records it was given.

  Without a limit a sorter retains all of them, in its runs and in its buffer;
  with a limit, records that have the same first ones. A call that succeeds
  retains what was given before, and its own record. A call that fails does so
  too, unless it dropped the buffer, or the last write was cut short.
-/

import ExternalSort.Proofs.Sorter.SingleBest
import ExternalSort.Proofs.Sorter.TopK
import ExternalSort.Proofs.Sorter.Unbounded
import ExternalSort.Sorter.Basic

namespace ExternalSort
namespace Sorter

variable {ρ : Type}

/-! ## Any kind of sorter -/

/-- No more records are taken. -/
def finished : Sorter ρ → Bool
  | .unbounded u => u.backing.finished
  | .singleBest b => b.finished
  | .topK t => t.backing.finished

/-- The number of records in memory. -/
def inMemory : Sorter ρ → Nat
  | .unbounded u => u.data.size
  | .singleBest b => b.best.toList.length
  | .topK t => t.data.size

/-- The number of runs. -/
def runCount : Sorter ρ → Nat
  | .unbounded u => u.backing.runs.size
  | .singleBest _ => 0
  | .topK t => t.backing.runs.size

/-- The last write of a sorter was cut short. -/
def IsCut : Sorter ρ → Store → Prop
  | .unbounded u, s => u.backing.IsCut s
  | .singleBest _, _ => False
  | .topK t, s => t.backing.IsCut s

instance : (sorter : Sorter ρ) → (s : Store) → Decidable (sorter.IsCut s)
  | .unbounded u, s => inferInstanceAs (Decidable (u.backing.IsCut s))
  | .singleBest _, _ => .isFalse id
  | .topK t, s => inferInstanceAs (Decidable (t.backing.IsCut s))

/-- The buffer was emptied, and there is no new run. -/
def Drops (before after : Sorter ρ) : Prop :=
  after.inMemory = 0 ∧ after.runCount = before.runCount

variable [Storable ρ]

section Dispatch

variable {α S : Type} {unbounded : SorterM (Unbounded ρ) α} {singleBest : SorterM (SingleBest ρ) α}
  {topK : SorterM (TopK ρ) α} {s : Store}

omit [Storable ρ] in
/-- An operation on a sorter of one kind, with its state as a sorter of any kind: the state is wrapped
    and unwrapped, and nothing else changes. -/
theorem runOn_of_kind {op : SorterM S α} {wrap : S → Sorter ρ} {all : SorterM (Sorter ρ) α} {a b : S}
    {s' : Store} {result : Except Failure α}
    (hall : all.run.run (wrap a) = do
      let (result, b) ← op.run.run a
      return (result, wrap b))
    (hrun : Failing.runOn op (a, s) = (result, b, s')) :
    Failing.runOn all (wrap a, s) = (result, wrap b, s') := by
  refine Leads.runOn_of_run ?_
  rw [hall, StateT.run_bind, Leads.run_run_run hrun]
  rfl

omit [Storable ρ] in
theorem leads_of_kind {op : SorterM S α} {wrap : S → Sorter ρ} {all : SorterM (Sorter ρ) α} {a : S}
    {ok : α → Sorter ρ × Store → Prop} {err : Failure → Sorter ρ × Store → Prop}
    (hall : all.run.run (wrap a) = do
      let (result, b) ← op.run.run a
      return (result, wrap b))
    (h : Leads op (a, s) (fun x p => ok x (wrap p.1, p.2)) fun e p => err e (wrap p.1, p.2)) :
    Leads all (wrap a, s) ok err := by
  rcases h.outcome with ⟨x, ⟨b, s'⟩, hrun, h⟩ | ⟨e, ⟨b, s'⟩, hrun, h⟩
  · exact Leads.of_runOn_ok (runOn_of_kind hall hrun) h
  · exact Leads.of_runOn_error (runOn_of_kind hall hrun) h

variable {ok : α → Sorter ρ × Store → Prop} {err : Failure → Sorter ρ × Store → Prop}

omit [Storable ρ] in
theorem dispatch_unbounded {u : Unbounded ρ}
    (h : Leads unbounded (u, s) (fun x p => ok x (.unbounded p.1, p.2))
      fun e p => err e (.unbounded p.1, p.2)) :
    Leads (dispatch unbounded singleBest topK) (.unbounded u, s) ok err := leads_of_kind rfl h

omit [Storable ρ] in
theorem dispatch_singleBest {b : SingleBest ρ}
    (h : Leads singleBest (b, s) (fun x p => ok x (.singleBest p.1, p.2))
      fun e p => err e (.singleBest p.1, p.2)) :
    Leads (dispatch unbounded singleBest topK) (.singleBest b, s) ok err := leads_of_kind rfl h

omit [Storable ρ] in
theorem dispatch_topK {t : TopK ρ}
    (h : Leads topK (t, s) (fun x p => ok x (.topK p.1, p.2)) fun e p => err e (.topK p.1, p.2)) :
    Leads (dispatch unbounded singleBest topK) (.topK t, s) ok err := leads_of_kind rfl h

end Dispatch

/-! ## What is retained -/

/-- The records that a sorter was given, as far as its result depends on them. -/
inductive Retains (options : Options) (order : Comparator ρ) : Sorter ρ → Store → List ρ → Prop
  | unbounded {u : Unbounded ρ} {s : Store} {spilled buffered xs : List ρ}
      (limit : options.limit = 0) (keeps : u.Keeps options order s spilled buffered)
      (all : spilled ++ buffered = xs) : Retains options order (.unbounded u) s xs
  | singleBest {b : SingleBest ρ} {s : Store} {xs : List ρ} (limit : options.limit ≠ 0)
      (keeps : b.Keeps options order xs) : Retains options order (.singleBest b) s xs
  | topK {t : TopK ρ} {s : Store} {spilled buffered xs : List ρ} (limit : options.limit ≠ 0)
      (keeps : t.Keeps options order s spilled buffered)
      (same : leading order options.most (spilled ++ buffered) = leading order options.most xs) :
      Retains options order (.topK t) s xs

/-- What a call may come to that fails, with this many records in memory. -/
inductive Fails (options : Options) (order : Comparator ρ) (drops : Prop) (held : Nat)
    (sorter : Sorter ρ) (s : Store) (xs : List ρ) : Prop
  | retains (kept : ¬ drops) (retains : Retains options order sorter s xs)
  | drops (dropped : drops) (earlier : options.limit = 0 →
      Retains options order sorter s (xs.take (xs.length - held)))
  | cut (cut : sorter.IsCut s)

variable {options : Options} {order : Comparator ρ} {sorter : Sorter ρ} {s : Store} {xs : List ρ}

omit [Storable ρ] in
/-- Valid options make a sorter of the kind that the limit asks for: nothing but a new backing, or not
    even that for a single record. -/
theorem ofOptions_of {ok : Sorter ρ → Store → Prop} {err : SortError → Store → Prop}
    (invalid : ∀ e, options.validate s.spillForbidden = .error e → err e s)
    (unbounded : options.validate s.spillForbidden = .ok () → options.limit = 0 →
      ok (.unbounded
          { backing := ((Backing.ofOptions options : StoreM (Backing ρ)).run s).1, order })
        ((Backing.ofOptions options : StoreM (Backing ρ)).run s).2)
    (singleBest : options.limit = 1 → ok (.singleBest { options, order }) s)
    (topK : options.validate s.spillForbidden = .ok () → options.limit ≠ 1 →
      ok (.topK { backing := ((Backing.ofOptions options : StoreM (Backing ρ)).run s).1, order,
                  limit := options.limit.toNat })
        ((Backing.ofOptions options : StoreM (Backing ρ)).run s).2) :
    Leads (ofOptions options order : SpillM (Sorter ρ)) s ok err := by
  rw [ofOptions]
  refine Leads.bind (Leads.of_get (Leads.bind (Leads.of_lift (fun _ _ => ?_) invalid)))
  -- each kind is made for its own limits, so it does not refuse the one at hand
  by_cases zero : options.limit = 0
  · rw [if_pos zero]
    refine Leads.bind (Unbounded.ofOptions_of invalid (absurd zero) fun valid _ => ?_)
    exact Leads.of_pure (unbounded valid zero)
  · rw [if_neg zero]
    by_cases one : options.limit = 1
    · rw [if_pos one, SingleBest.ofOptions]
      refine Leads.bind (Leads.bind (Leads.of_get (Leads.bind (Leads.of_lift (fun _ _ => ?_) invalid))))
      rw [if_neg (not_not_intro one)]
      exact Leads.of_pure (Leads.of_pure (singleBest one))
    · rw [if_neg one]
      have several : ¬ options.limit ≤ 1 := by
        rw [UInt64.le_iff_toNat_le]
        have unit : (1 : UInt64).toNat = 1 := rfl
        have notZero : options.limit.toNat ≠ 0 := fun h => zero (UInt64.toNat_inj.mp h)
        have notOne : options.limit.toNat ≠ 1 := fun h => one (UInt64.toNat_inj.mp h)
        omega
      refine Leads.bind (TopK.ofOptions_of invalid (absurd · several) fun valid _ => ?_)
      exact Leads.of_pure (topK valid one)

/-- A new sorter retains nothing. -/
theorem ofOptions_leads (faithful : FaithfulHook options.activeProtector) (s : Store) :
    Leads (ofOptions options order : SpillM (Sorter ρ)) s
      (fun sorter s' => sorter.finished = false ∧ Retains options order sorter s' [])
      (fun _ _ => True) := by
  rw [ofOptions]
  refine Leads.bind (Leads.of_get (Leads.bind (Leads.of_lift (fun _ _ => ?_) fun _ _ => trivial)))
  -- the limit decides the kind: none, one record, or more
  by_cases zero : options.limit = 0
  · rw [if_pos zero]
    refine Leads.seq (Unbounded.ofOptions_leads faithful s) ?_ fun _ _ _ => trivial
    rintro u s' ⟨accepting, keeps⟩
    exact Leads.of_pure ⟨accepting, .unbounded zero keeps rfl⟩
  · rw [if_neg zero]
    by_cases one : options.limit = 1
    · rw [if_pos one]
      refine Leads.seq (SingleBest.ofOptions_leads s) ?_ fun _ _ _ => trivial
      rintro b s' ⟨accepting, keeps⟩
      exact Leads.of_pure ⟨accepting, .singleBest zero keeps⟩
    · rw [if_neg one]
      refine Leads.seq (TopK.ofOptions_leads faithful s) ?_ fun _ _ _ => trivial
      rintro t s' ⟨accepting, keeps⟩
      exact Leads.of_pure ⟨accepting, .topK zero keeps rfl⟩

/-- How a call fails without a limit. -/
theorem fails_unbounded {drops : Prop} {u : Unbounded ρ} {n held : Nat} {spilled buffered : List ρ}
    (limit : options.limit = 0)
    (ends : Ends (u.Keeps options order s) (u.Keeps options order s spilled [])
      (u.backing.IsCut s) n u.backing.runs.size spilled buffered)
    (hdrops : drops ↔ buffered ≠ [] ∧ u.data.size = 0 ∧ u.backing.runs.size = n)
    (hheld : buffered.length = held) :
    Fails options order drops held (.unbounded u) s (spilled ++ buffered) := by
  cases ends with
  | took took =>
    cases took with
    | stays keeps same =>
      refine .retains ?_ (.unbounded limit keeps rfl)
      rw [hdrops, keeps.size_data]
      exact fun h => h.1 (List.eq_nil_of_length_eq_zero h.2.1)
    | moves keeps more =>
      refine .retains ?_ (.unbounded limit keeps (List.append_nil _))
      rw [hdrops, more]
      exact fun h => Nat.succ_ne_self n h.2.2
  -- what was in memory is gone, and what was spilled before is left
  | loses keeps some same =>
    refine .drops (hdrops.mpr ⟨some, keeps.size_data, same⟩) fun _ => ?_
    rw [List.length_append, hheld, Nat.add_sub_cancel, List.take_left]
    exact .unbounded limit keeps (List.append_nil _)
  | cut cut => exact .cut cut

/-- How a call fails with a limit. -/
theorem fails_topK {drops : Prop} {t : TopK ρ} {n held : Nat} {spilled buffered : List ρ}
    (limit : options.limit ≠ 0)
    (ends : Ends (t.Keeps options order s) (t.data = #[]) (t.backing.IsCut s) n
      t.backing.runs.size spilled buffered)
    (same : leading order options.most (spilled ++ buffered) = leading order options.most xs)
    (hdrops : drops ↔ buffered ≠ [] ∧ t.data.size = 0 ∧ t.backing.runs.size = n) :
    Fails options order drops held (.topK t) s xs := by
  cases ends with
  | took took =>
    cases took with
    | stays keeps _ =>
      refine .retains ?_ (.topK limit keeps same)
      rw [hdrops, keeps.size_data]
      exact fun h => h.1 (List.eq_nil_of_length_eq_zero h.2.1)
    | moves keeps more =>
      refine .retains ?_ (.topK limit keeps (by rw [List.append_nil, same]))
      rw [hdrops, more]
      exact fun h => Nat.succ_ne_self n h.2.2
  -- the cutoff counts on what is gone, so nothing is said of what is left
  | loses none some runs =>
    refine .drops (hdrops.mpr ⟨some, ?_, runs⟩) fun zero => absurd zero limit
    rw [none]
    rfl
  | cut cut => exact .cut cut

variable [TakesSpace ρ] [Std.TransCmp order]

/-- A record that is handed over is retained with the others. -/
theorem add_leads (retains : Retains options order sorter s xs)
    (accepting : sorter.finished = false) (x : ρ) (spare : Nat) :
    Leads (add x spare) (sorter, s)
      (fun _ p => p.1.finished = false ∧ Retains options order p.1 p.2 (xs ++ [x]))
      (fun _ p => p.1.finished = false ∧
        Fails options order (sorter.Drops p.1) (sorter.inMemory + 1) p.1 p.2 (xs ++ [x])) := by
  cases retains with
  | unbounded limit keeps all =>
    subst all
    apply dispatch_unbounded
    apply (Unbounded.add_leads keeps accepting x spare).mono
    · rintro _ ⟨u', s'⟩ ⟨took, follows⟩
      obtain ⟨spilled', buffered', all, keeps'⟩ := took.exists_keeps
      exact ⟨follows.finished.trans accepting,
        .unbounded limit keeps' (all.trans (List.append_assoc _ _ _).symm)⟩
    · rintro _ ⟨u', s'⟩ ⟨ends, finished⟩
      rw [List.append_assoc]
      refine ⟨finished, fails_unbounded limit ends ?_ ?_⟩
      · exact ⟨fun h => ⟨by simp, h⟩, fun h => h.2⟩
      · rw [List.length_append, inMemory, keeps.size_data, List.length_singleton]
  | singleBest limit keeps =>
    apply dispatch_singleBest
    apply (SingleBest.add_leads keeps accepting x spare).mono
    · rintro _ ⟨b', s'⟩ ⟨keeps', finished⟩
      exact ⟨finished, .singleBest limit keeps'⟩
    · exact fun _ _ h => h.elim
  | topK limit keeps same =>
    -- what the sorter drops is behind the first records, and those are all that is claimed
    obtain ⟨buffered', -, same', leads⟩ := TopK.add_leads keeps accepting x spare
    have same'' := same'.symm.trans (leading_append_congr same [x])
    apply dispatch_topK
    apply leads.mono
    · rintro _ ⟨t', s'⟩ ⟨took, follows⟩
      obtain ⟨spilled', buffered'', all, keeps'⟩ := took.exists_keeps
      exact ⟨follows.finished.trans accepting, .topK limit keeps' (by rw [all, same''])⟩
    · rintro _ ⟨t', s'⟩ ⟨ends, some, finished⟩
      refine ⟨finished, fails_topK limit ends same'' ?_⟩
      exact ⟨fun h => ⟨some, h⟩, fun h => h.2⟩

/-- What is written out stays retained. -/
theorem persist_leads (retains : Retains options order sorter s xs)
    (accepting : sorter.finished = false) :
    Leads persist (sorter, s)
      (fun _ p => p.1.finished = false ∧ Retains options order p.1 p.2 xs)
      (fun _ p => p.1.finished = false ∧
        Fails options order (sorter.inMemory ≠ 0 ∧ sorter.Drops p.1) sorter.inMemory p.1 p.2 xs) := by
  cases retains with
  | unbounded limit keeps all =>
    subst all
    apply dispatch_unbounded
    apply (Unbounded.persist_leads keeps accepting).mono
    · rintro _ ⟨u', s'⟩ ⟨keeps', finished, -⟩
      exact ⟨finished, .unbounded limit keeps' (List.append_nil _)⟩
    · rintro _ ⟨u', s'⟩ ⟨ends, finished⟩
      refine ⟨finished, fails_unbounded limit ends ?_ ?_⟩
      · rw [inMemory, keeps.size_data, ne_eq, List.length_eq_zero_iff]
        exact Iff.rfl
      · rw [inMemory, keeps.size_data]
  | singleBest limit keeps =>
    apply dispatch_singleBest
    -- a sorter for one record has nothing to persist, and refuses
    refine Leads.of_throw₂ ⟨accepting, .retains ?_ (.singleBest limit keeps)⟩
    exact fun h => h.1 h.2.1
  | topK limit keeps same =>
    apply dispatch_topK
    apply (TopK.persist_leads keeps accepting).mono
    · rintro _ ⟨t', s'⟩ ⟨keeps', finished, -⟩
      exact ⟨finished, .topK limit keeps' (by rw [List.append_nil, same])⟩
    · rintro _ ⟨t', s'⟩ ⟨ends, finished⟩
      refine ⟨finished, fails_topK limit ends same ?_⟩
      rw [inMemory, keeps.size_data, ne_eq, List.length_eq_zero_iff]
      exact Iff.rfl

/-- A sorter gives out the first of the records it was given. -/
theorem done_leads [LawfulStorable ρ] (retains : Retains options order sorter s xs)
    (few : options.limit = 0 → xs.length ≤ Merge.unlimited) :
    Leads done (sorter, s)
      (fun sorted p => p.1.finished = true ∧ Drains sorted p.2 (leading order options.most xs))
      (fun _ p => p.1.finished = true) := by
  cases retains with
  | unbounded limit keeps all =>
    subst all
    -- without a limit everything comes out, as far as a merge can count
    have most : options.most = Merge.unlimited := by rw [Options.most, if_pos limit]
    apply dispatch_unbounded
    apply (Unbounded.done_leads keeps (by rw [most]; exact few limit)).mono
    · rintro sorted ⟨u', s'⟩ ⟨finished, drains⟩
      refine ⟨finished, ?_⟩
      rwa [leading, List.take_of_length_le]
      rw [(perm_stableSort _).length_eq, most]
      exact few limit
    · exact fun _ _ h => h.1
  | singleBest limit keeps =>
    apply dispatch_singleBest
    apply (SingleBest.done_leads keeps).mono
    · exact fun _ _ h => ⟨h.1, h.2.drains⟩
    · rintro _ _ ⟨rfl, finished⟩
      exact finished
  | topK limit keeps same =>
    apply dispatch_topK
    rw [← same]
    apply (TopK.done_leads keeps).mono
    · exact fun _ _ h => ⟨h.1, h.2.drains⟩
    · exact fun _ _ h => h

end Sorter
end ExternalSort
