/-
  ExternalSort.Proofs.Source

  Sources that give out what they stand for.

  A source is reliable if, whatever it has still to give, asking it for a record
  gives the first of them and closing it finds nothing wrong, as long as the
  state around it has a property that reading keeps. Reading a reliable source
  to its end gives all its records, in their order, and ends without an error.

  A source that reads it knows not what can still account for its records: each
  record that it gives is one that it owes, and it ends only when it owes nothing
  more.
-/

import ExternalSort.Source

namespace ExternalSort

/-- A sequence goes on from where its first part ends. -/
theorem run_bind_of_run {S α β : Type} {x : StateM S α} {f : α → StateM S β} {s s' : S} {a : α}
    (h : x.run s = (a, s')) : (x >>= f).run s = (f a).run s' := by
  rw [StateT.run_bind, h]
  rfl

namespace SortedSource

/-- Sources that give out the records `Gives` says, in states with the property `Calm`. -/
structure Reliable {S σ ρ : Type} [SortedSource (StateM S) σ ρ] (Gives : σ → List ρ → Prop)
    (Calm : S → Prop) : Prop where
  next : ∀ {source xs s}, Gives source xs → Calm s →
    ∃ source' s', (next source : StateM S _).run s = ((xs.head?.map .ok, source'), s') ∧
      Gives source' xs.tail ∧ Calm s'
  close : ∀ {source xs s}, Gives source xs → Calm s →
    ∃ source' s', (close source : StateM S _).run s = ((.ok (), source'), s') ∧
      Gives source' [] ∧ Calm s'
  release : ∀ {source xs s}, Gives source xs → Calm s →
    Calm ((release source : StateM S Unit).run s).2

variable {S σ τ ρ : Type} [SortedSource (StateM S) σ ρ] [SortedSource (StateM S) τ ρ]
  {Gives : σ → List ρ → Prop} {Gives' : τ → List ρ → Prop} {Calm : S → Prop}

/-! ## Reading to the end -/

theorem Reliable.drainOnto_eq (reliable : Reliable Gives Calm) {count : Nat} {xs : List ρ}
    {source : σ} {s : S} (gives : Gives source xs) (calm : Calm s) (long : xs.length < count)
    (taken : List ρ) :
    ∃ source' s', (drainOnto count taken source : StateM S _).run s =
      (((taken.reverse ++ xs, .finished), source'), s') ∧ Gives source' [] ∧ Calm s' := by
  induction count generalizing taken xs source s with
  | zero => omega
  | succ count ih =>
    obtain ⟨source', s', hnext, gives', calm'⟩ := reliable.next gives calm
    rw [drainOnto, run_bind_of_run hnext]
    cases xs with
    | nil => exact ⟨source', s', by rw [List.append_nil]; rfl, gives', calm'⟩
    | cons x xs =>
      obtain ⟨source'', s'', hrest, rest⟩ :=
        ih gives' calm' (Nat.lt_of_succ_lt_succ long) (x :: taken)
      refine ⟨source'', s'', ?_, rest⟩
      rw [List.reverse_cons, List.append_assoc] at hrest
      exact hrest

/-- Reading further than the records go gives all of them. -/
theorem Reliable.drain_eq (reliable : Reliable Gives Calm) {count : Nat} {xs : List ρ}
    {source : σ} {s : S} (gives : Gives source xs) (calm : Calm s) (long : xs.length < count) :
    ((drain count source : StateM S _).run s).1.1 = (xs, .finished) := by
  obtain ⟨source', s', h, -⟩ := reliable.drainOnto_eq gives calm long []
  rw [drain, h]
  rfl

/-- A source that was read to its end is closed without an error. -/
theorem Reliable.drain_close_eq (reliable : Reliable Gives Calm) {count : Nat} {xs : List ρ}
    {source : σ} {s : S} (gives : Gives source xs) (calm : Calm s) (long : xs.length < count) :
    ∃ source' s', (drain count source : StateM S _).run s = (((xs, .finished), source'), s') ∧
      ((SortedSource.close source' : StateM S _).run s').1.1 = .ok () := by
  obtain ⟨source', s', h, gives', calm'⟩ := reliable.drainOnto_eq gives calm long []
  obtain ⟨source'', s'', hclose, -⟩ := reliable.close gives' calm'
  exact ⟨source', s', h, by rw [hclose]⟩

/-! ## Kinds of sources -/

theorem next_inl {source source' : σ} {step : Step ρ} {s s' : S}
    (h : (next source : StateM S _).run s = ((step, source'), s')) :
    (next (Sum.inl source : σ ⊕ τ) : StateM S _).run s = ((step, .inl source'), s') :=
  run_bind_of_run h

theorem next_inr {source source' : τ} {step : Step ρ} {s s' : S}
    (h : (next source : StateM S _).run s = ((step, source'), s')) :
    (next (Sum.inr source : σ ⊕ τ) : StateM S _).run s = ((step, .inr source'), s') :=
  run_bind_of_run h

/-- What a source of either of two types has to give. -/
def GivesEither (Gives : σ → List ρ → Prop) (Gives' : τ → List ρ → Prop) :
    σ ⊕ τ → List ρ → Prop
  | .inl source => Gives source
  | .inr source => Gives' source

theorem Reliable.either (left : Reliable Gives Calm) (right : Reliable Gives' Calm) :
    Reliable (GivesEither Gives Gives') Calm where
  next {source xs s} gives calm := by
    cases source with
    | inl source =>
      obtain ⟨source', s', h, gives', calm'⟩ := left.next gives calm
      exact ⟨.inl source', s', next_inl h, gives', calm'⟩
    | inr source =>
      obtain ⟨source', s', h, gives', calm'⟩ := right.next gives calm
      exact ⟨.inr source', s', next_inr h, gives', calm'⟩
  close {source xs s} gives calm := by
    cases source with
    | inl source =>
      obtain ⟨source', s', h, gives', calm'⟩ := left.close gives calm
      refine ⟨.inl source', s', ?_, gives', calm'⟩
      show (SortedSource.close source >>= fun p => pure (p.1, Sum.inl p.2) : StateM S _).run s = _
      rw [run_bind_of_run h]
      rfl
    | inr source =>
      obtain ⟨source', s', h, gives', calm'⟩ := right.close gives calm
      refine ⟨.inr source', s', ?_, gives', calm'⟩
      show (SortedSource.close source >>= fun p => pure (p.1, Sum.inr p.2) : StateM S _).run s = _
      rw [run_bind_of_run h]
      rfl
  release {source xs s} gives calm := by
    cases source with
    | inl source => exact left.release gives calm
    | inr source => exact right.release gives calm

theorem inMemory_reliable (Calm : S → Prop) :
    Reliable (S := S) (fun (source : InMemory ρ) xs => source.records = xs) Calm where
  next {source xs s} gives calm := by
    obtain rfl := gives
    obtain ⟨_ | ⟨x, xs⟩⟩ := source
    · exact ⟨⟨[]⟩, s, rfl, rfl, calm⟩
    · exact ⟨⟨xs⟩, s, rfl, rfl, calm⟩
  close {source xs s} _ calm := ⟨⟨[]⟩, s, rfl, rfl, calm⟩
  release _ calm := calm

/-- What is kept by every record that is given, and says which ones were, is true of what was read
    when enough was. -/
theorem drainOnto_keeps {P : List ρ → σ → S → Prop}
    (record : ∀ {xs x source source' s s'}, P xs source s →
      (next source : StateM S _).run s = ((some (.ok x), source'), s') → P (xs ++ [x]) source' s')
    {count : Nat} {taken out : List ρ} {source source' : σ} {s s' : S}
    (h : (drainOnto count taken source : StateM S _).run s = (((out, .enough), source'), s'))
    (gave : P taken.reverse source s) : P out source' s' := by
  induction count generalizing taken source s with
  | zero =>
    rw [drainOnto] at h
    cases h
    exact gave
  | succ count ih =>
    rw [drainOnto] at h
    rcases hnext : (next source : StateM S _).run s with ⟨⟨_ | _ | x, source₁⟩, s₁⟩ <;>
      rw [run_bind_of_run hnext] at h
    · cases h
    · cases h
    · refine ih h ?_
      rw [List.reverse_cons]
      exact record gave hnext

theorem drain_of_none {source source' : σ} {s s' : S} {count : Nat}
    (h : (next source : StateM S _).run s = ((none, source'), s')) (pos : 0 < count) :
    (drain count source : StateM S _).run s = ((([], .finished), source'), s') := by
  obtain ⟨count, rfl⟩ := Nat.exists_eq_add_of_lt pos
  rw [drain, drainOnto, run_bind_of_run h]
  rfl

theorem drain_of_error {source source' : σ} {s s' : S} {count : Nat} {e : SortError}
    (h : (next source : StateM S _).run s = ((some (.error e), source'), s')) (pos : 0 < count) :
    (drain count source : StateM S _).run s = ((([], .failed e), source'), s') := by
  obtain ⟨count, rfl⟩ := Nat.exists_eq_add_of_lt pos
  rw [drain, drainOnto, run_bind_of_run h]
  rfl

/-- What every answer keeps holds after any reading. -/
theorem drainOnto_invariant {P : σ → S → Prop}
    (answer : ∀ {source source' step s s'}, P source s →
      (next source : StateM S _).run s = ((step, source'), s') → P source' s')
    {count : Nat} {taken out : List ρ} {ending : Ending} {source source' : σ} {s s' : S}
    (h : (drainOnto count taken source : StateM S _).run s = (((out, ending), source'), s'))
    (holds : P source s) : P source' s' := by
  induction count generalizing taken source s with
  | zero =>
    rw [drainOnto] at h
    cases h
    exact holds
  | succ count ih =>
    rw [drainOnto] at h
    rcases hnext : (next source : StateM S _).run s with ⟨⟨_ | _ | x, source₁⟩, s₁⟩ <;>
      rw [run_bind_of_run hnext] at h
    · cases h
      exact answer holds hnext
    · cases h
      exact answer holds hnext
    · exact ih h (answer holds hnext)

/-- A reading that did not take enough ended with an answer that was not a record. -/
theorem drainOnto_stops {P : σ → Prop}
    (answer : ∀ {source source' step s s'}, (next source : StateM S _).run s =
      ((step, source'), s') → (∀ x, step ≠ some (.ok x)) → P source')
    {count : Nat} {taken out : List ρ} {ending : Ending} {source source' : σ} {s s' : S}
    (h : (drainOnto count taken source : StateM S _).run s = (((out, ending), source'), s')) :
    ending = .enough ∨ P source' := by
  induction count generalizing taken source s with
  | zero =>
    rw [drainOnto] at h
    cases h
    exact .inl rfl
  | succ count ih =>
    rw [drainOnto] at h
    rcases hnext : (next source : StateM S _).run s with ⟨⟨_ | _ | x, source₁⟩, s₁⟩ <;>
      rw [run_bind_of_run hnext] at h
    · cases h
      exact .inr (answer hnext (by simp))
    · cases h
      exact .inr (answer hnext (by simp))
    · exact ih h

/-- A source that gives records up to an error is read up to that error. -/
theorem drainOnto_breaks (Gives : σ → List ρ → S → Prop) (Broken : SortError → σ → Prop)
    (record : ∀ {source x xs s}, Gives source (x :: xs) s → ∃ source' s',
      (next source : StateM S _).run s = ((some (.ok x), source'), s') ∧ Gives source' xs s')
    (error : ∀ {source s}, Gives source [] s → ∃ e source' s',
      (next source : StateM S _).run s = ((some (.error e), source'), s') ∧ Broken e source')
    {count : Nat} {xs : List ρ} {source : σ} {s : S} (gives : Gives source xs s)
    (long : xs.length < count) (taken : List ρ) :
    ∃ e source' s', (drainOnto count taken source : StateM S _).run s =
      (((taken.reverse ++ xs, .failed e), source'), s') ∧ Broken e source' := by
  induction count generalizing taken xs source s with
  | zero => omega
  | succ count ih =>
    rw [drainOnto]
    cases xs with
    | nil =>
      obtain ⟨e, source', s', hnext, broken⟩ := error gives
      rw [run_bind_of_run hnext, List.append_nil]
      exact ⟨e, source', s', rfl, broken⟩
    | cons x xs =>
      obtain ⟨source', s', hnext, gives'⟩ := record gives
      rw [run_bind_of_run hnext]
      have rest := ih gives' (Nat.lt_of_succ_lt_succ long) (x :: taken)
      rw [List.reverse_cons, List.append_assoc] at rest
      exact rest

/-- A source that always has the same record to give is never read to its end. -/
theorem drainOnto_endless {P : σ → S → Prop} {x : ρ}
    (record : ∀ {source s}, P source s → ∃ source' s',
      (next source : StateM S _).run s = ((some (.ok x), source'), s') ∧ P source' s')
    {source : σ} {s : S} (holds : P source s) (count : Nat) (taken : List ρ) :
    ∃ source' s', (drainOnto count taken source : StateM S _).run s =
      (((taken.reverse ++ List.replicate count x, .enough), source'), s') := by
  induction count generalizing taken source s with
  | zero => exact ⟨source, s, by rw [List.replicate_zero, List.append_nil]; rfl⟩
  | succ count ih =>
    obtain ⟨source', s', hnext, holds'⟩ := record holds
    rw [drainOnto, run_bind_of_run hnext]
    have rest := ih holds' (x :: taken)
    rw [List.reverse_cons, List.append_assoc] at rest
    exact rest

/-! ## Sources that account for their records -/

/-- Sources that give only records that they owe, and end only when they owe nothing more, as long
    as they are open, which may depend on the state. -/
structure Accounts {S σ ρ : Type} [SortedSource (StateM S) σ ρ] (Open : σ → S → Prop)
    (Owes : σ → List ρ → Prop) : Prop where
  record : ∀ {source source' x s s'}, Open source s →
    (next source : StateM S _).run s = ((some (.ok x), source'), s') →
    Open source' s' ∧ ∀ xs, Owes source' xs → Owes source (x :: xs)
  finish : ∀ {source source' s s'}, Open source s →
    (next source : StateM S _).run s = ((none, source'), s') → Owes source []

section Accounts

variable {Open : σ → S → Prop} {Open' : τ → S → Prop} {Owes : σ → List ρ → Prop}
  {Owes' : τ → List ρ → Prop}

theorem Accounts.drainOnto (accounts : Accounts Open Owes) {count : Nat}
    {source source' : σ} {s s' : S} (isOpen : Open source s) {taken out : List ρ}
    (h : (drainOnto count taken source : StateM S _).run s = (((out, .finished), source'), s')) :
    ∃ xs, out = taken.reverse ++ xs ∧ xs.length < count ∧ Owes source xs := by
  -- a source owes the record that it gave, and what the source after it owes
  induction count generalizing taken source s with
  | zero => cases h
  | succ count ih =>
    rw [SortedSource.drainOnto] at h
    rcases hnext : (next source : StateM S _).run s with ⟨⟨step, source₁⟩, s₁⟩
    rw [run_bind_of_run hnext] at h
    match step with
    | none =>
      obtain rfl : taken.reverse = out := by cases h; rfl
      exact ⟨[], (List.append_nil _).symm, Nat.succ_pos _, accounts.finish isOpen hnext⟩
    | some (.error e) => cases h
    | some (.ok x) =>
      obtain ⟨open₁, owes⟩ := accounts.record isOpen hnext
      obtain ⟨xs, rfl, few, owes₁⟩ := ih open₁ h
      exact ⟨x :: xs, by rw [List.reverse_cons, List.append_assoc]; rfl, Nat.succ_lt_succ few,
        owes xs owes₁⟩

/-- A source that was read to its end gave what it owed, and was asked once more. -/
theorem Accounts.drain (accounts : Accounts Open Owes) {count : Nat}
    {source source' : σ} {s s' : S} {out : List ρ}
    (h : (drain count source : StateM S _).run s = (((out, .finished), source'), s'))
    (isOpen : Open source s) : out.length < count ∧ Owes source out := by
  obtain ⟨xs, rfl, few, owes⟩ := accounts.drainOnto isOpen h
  exact ⟨few, owes⟩

/-- A source whose records leave less to read ends, and fails only as asking for a record can. -/
theorem drainOnto_ends {source : σ} {s : S} (isOpen : Open source s) {α : Type}
    {less : α → α → Prop} (wf : WellFounded less) (left : σ → α) {Fails : SortError → Prop}
    (record : ∀ {source source' x s s'}, Open source s →
      (next source : StateM S _).run s = ((some (.ok x), source'), s') →
      Open source' s' ∧ less (left source') (left source))
    (error : ∀ {source source' e s s'}, Open source s →
      (next source : StateM S _).run s = ((some (.error e), source'), s') → Fails e) :
    ∃ enough, ∀ count, enough ≤ count → ∀ taken, ∃ out ending source' s',
      (drainOnto count taken source : StateM S _).run s = (((out, ending), source'), s') ∧
        (ending = .finished ∨ ∃ e, ending = .failed e ∧ Fails e) := by
  -- by induction on what is left to read, which tells how often to ask
  induction h : left source using wf.induction generalizing source s with
  | _ _ ih =>
    subst h
    rcases hnext : (next source : StateM S _).run s with ⟨⟨step, source₁⟩, s₁⟩
    match step with
    | none =>
      refine ⟨1, fun count more taken => ?_⟩
      obtain ⟨count, rfl⟩ := Nat.exists_eq_add_of_le' more
      rw [drainOnto, run_bind_of_run hnext]
      exact ⟨_, _, _, _, rfl, .inl rfl⟩
    | some (.error e) =>
      refine ⟨1, fun count more taken => ?_⟩
      obtain ⟨count, rfl⟩ := Nat.exists_eq_add_of_le' more
      rw [drainOnto, run_bind_of_run hnext]
      exact ⟨_, _, _, _, rfl, .inr ⟨e, rfl, error isOpen hnext⟩⟩
    | some (.ok x) =>
      obtain ⟨open₁, fewer⟩ := record isOpen hnext
      obtain ⟨enough, rest⟩ := ih _ fewer open₁ rfl
      refine ⟨enough + 1, fun count more taken => ?_⟩
      obtain ⟨count, rfl⟩ := Nat.exists_eq_add_of_le' (Nat.le_trans (Nat.le_add_left 1 _) more)
      rw [drainOnto, run_bind_of_run hnext]
      exact rest count (Nat.le_of_succ_le_succ more) (x :: taken)

/-- When a source of either of two types is open. -/
def OpenEither (Open : σ → S → Prop) (Open' : τ → S → Prop) : σ ⊕ τ → S → Prop
  | .inl source => Open source
  | .inr source => Open' source

theorem Accounts.either (left : Accounts Open Owes) (right : Accounts Open' Owes') :
    Accounts (OpenEither Open Open') (GivesEither Owes Owes') where
  record {source source' x s s'} isOpen h := by
    cases source with
    | inl source =>
      rcases hnext : (SortedSource.next source : StateM S _).run s with ⟨⟨step, source₁⟩, s₁⟩
      rw [next_inl hnext] at h
      cases h
      exact left.record isOpen hnext
    | inr source =>
      rcases hnext : (SortedSource.next source : StateM S _).run s with ⟨⟨step, source₁⟩, s₁⟩
      rw [next_inr hnext] at h
      cases h
      exact right.record isOpen hnext
  finish {source source' s s'} isOpen h := by
    cases source with
    | inl source =>
      rcases hnext : (SortedSource.next source : StateM S _).run s with ⟨⟨step, source₁⟩, s₁⟩
      rw [next_inl hnext] at h
      cases h
      exact left.finish isOpen hnext
    | inr source =>
      rcases hnext : (SortedSource.next source : StateM S _).run s with ⟨⟨step, source₁⟩, s₁⟩
      rw [next_inr hnext] at h
      cases h
      exact right.finish isOpen hnext

theorem inMemory_accounts :
    Accounts (fun (_ : InMemory ρ) (_ : S) => True) fun source xs => source.records = xs where
  record {source source' x s s'} _ h := by
    obtain ⟨_ | ⟨y, ys⟩⟩ := source
    · cases h
    · cases h
      exact ⟨trivial, fun xs hxs => congrArg (x :: ·) hxs⟩
  finish {source source' s s'} _ h := by
    obtain ⟨_ | ⟨y, ys⟩⟩ := source
    · rfl
    · cases h

end Accounts
end SortedSource
end ExternalSort
