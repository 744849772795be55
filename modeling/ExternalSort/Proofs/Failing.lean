/-
  ExternalSort.Proofs.Failing

  Operations that change a state and may fail.

  The operations on records, spill files, runs and sorters all have this shape,
  with one state or with one state inside another; a failure keeps what was
  changed before it. `Leads` says what such an operation leads to: one property
  of its result and the state if it succeeds, another one if it fails. A
  sequence leads where its second part leads from wherever the first one does.
-/

namespace ExternalSort

/-- Monads of operations on a state `σ` that may fail with `ε`. -/
class Failing (m : Type → Type) [Monad m] (ε σ : outParam Type) where
  runOn {α : Type} : m α → σ → Except ε α × σ
  runOn_pure {α : Type} (a : α) (s : σ) : runOn (pure a) s = (.ok a, s)
  runOn_bind {α β : Type} (x : m α) (f : α → m β) (s : σ) :
    runOn (x >>= f) s =
      match runOn x s with
      | (.ok a, s') => runOn (f a) s'
      | (.error e, s') => (.error e, s')

/-- No state. -/
instance {ε : Type} : Failing (Except ε) ε Unit where
  runOn x s := (x, s)
  runOn_pure _ _ := rfl
  runOn_bind x f s := by cases x <;> rfl

instance {ε σ : Type} : Failing (ExceptT ε (StateM σ)) ε σ where
  runOn x s := x.run.run s
  runOn_pure _ _ := rfl
  runOn_bind x f s := by
    simp only [ExceptT.run_bind, StateT.run_bind]
    rcases x.run.run s with ⟨_ | _, s'⟩ <;> rfl

/-- One state inside another. -/
instance {ε σ τ : Type} : Failing (ExceptT ε (StateT σ (StateM τ))) ε (σ × τ) where
  runOn x s :=
    let out := (x.run.run s.1).run s.2
    (out.1.1, (out.1.2, out.2))
  runOn_pure _ _ := rfl
  runOn_bind x f s := by
    simp only [ExceptT.run_bind, StateT.run_bind]
    rcases (x.run.run s.1).run s.2 with ⟨⟨_ | _, inner⟩, outer⟩ <;> rfl

variable {m : Type → Type} [Monad m] {ε σ τ α β : Type} [Failing m ε σ]

/-- The operation succeeds with `ok`, or it fails with `err`. -/
def Leads (x : m α) (s : σ) (ok : α → σ → Prop) (err : ε → σ → Prop) : Prop :=
  match Failing.runOn x s with
  | (.ok a, s') => ok a s'
  | (.error e, s') => err e s'

namespace Leads

variable {x : m α} {f : α → m β} {s s' : σ} {ok ok' : α → σ → Prop} {err err' : ε → σ → Prop}

theorem of_pure {a : α} (h : ok a s) : Leads (pure a : m α) s ok err := by
  rw [Leads, Failing.runOn_pure]
  exact h

theorem bind {ok : β → σ → Prop}
    (h : Leads x s (fun a s' => Leads (f a) s' ok err) err) : Leads (x >>= f) s ok err := by
  rw [Leads] at h
  rw [Leads, Failing.runOn_bind]
  rcases hx : Failing.runOn x s with ⟨_ | a, s'⟩
  · simpa only [hx] using h
  · simpa only [hx, Leads] using h

theorem mono (h : Leads x s ok err) (hok : ∀ a s', ok a s' → ok' a s')
    (herr : ∀ e s', err e s' → err' e s') : Leads x s ok' err' := by
  rw [Leads] at h ⊢
  rcases hx : Failing.runOn x s with ⟨_ | a, s'⟩
  · simp only [hx] at h
    exact herr _ _ h
  · simp only [hx] at h
    exact hok _ _ h

/-- What holds of every outcome. -/
theorem of_forall (hok : ∀ a s', ok a s') (herr : ∀ e s', err e s') : Leads x s ok err := by
  rw [Leads]
  split
  · exact hok _ _
  · exact herr _ _

/-- What an operation leads to, from two sides. -/
theorem and (h : Leads x s ok err) (k : Leads x s ok' err') :
    Leads x s (fun a s' => ok a s' ∧ ok' a s') fun e s' => err e s' ∧ err' e s' := by
  rw [Leads] at h k ⊢
  rcases hx : Failing.runOn x s with ⟨_ | a, s'⟩ <;> simp only [hx] at h k <;> exact ⟨h, k⟩

/-- A sequence, from what its first part leads to. -/
theorem seq {mid : α → σ → Prop} {ok : β → σ → Prop} (h : Leads x s mid err')
    (hok : ∀ a s', mid a s' → Leads (f a) s' ok err) (herr : ∀ e s', err' e s' → err e s') :
    Leads (x >>= f) s ok err :=
  bind (h.mono hok herr)

theorem of_ok {a : α} (h : Leads x s ok err) (hx : Failing.runOn x s = (.ok a, s')) : ok a s' := by
  rw [Leads, hx] at h
  exact h

theorem of_error {e : ε} (h : Leads x s ok err) (hx : Failing.runOn x s = (.error e, s')) :
    err e s' := by
  rw [Leads, hx] at h
  exact h

theorem of_runOn_ok {a : α} (hx : Failing.runOn x s = (.ok a, s')) (h : ok a s') :
    Leads x s ok err := by
  rw [Leads, hx]
  exact h

theorem of_runOn_error {e : ε} (hx : Failing.runOn x s = (.error e, s')) (h : err e s') :
    Leads x s ok err := by
  rw [Leads, hx]
  exact h

/-- An operation succeeds or fails, and leads to what it leads to then. -/
theorem outcome (h : Leads x s ok err) :
    (∃ a s', Failing.runOn x s = (.ok a, s') ∧ ok a s') ∨
      ∃ e s', Failing.runOn x s = (.error e, s') ∧ err e s' := by
  rcases hx : Failing.runOn x s with ⟨e | a, s'⟩
  · exact .inr ⟨e, s', rfl, h.of_error hx⟩
  · exact .inl ⟨a, s', rfl, h.of_ok hx⟩

/-- What does not fail succeeds. -/
theorem exists_ok (h : Leads x s ok fun _ _ => False) :
    ∃ a s', Failing.runOn x s = (.ok a, s') ∧ ok a s' :=
  h.outcome.resolve_right fun ⟨_, _, _, fails⟩ => fails

/-- What an operation leads to can be the outcome itself. -/
theorem runOn_eq {a : α} (h : Leads x s (fun b t => b = a ∧ t = s') fun _ _ => False) :
    Failing.runOn x s = (.ok a, s') := by
  obtain ⟨_, _, hx, rfl, rfl⟩ := h.exists_ok
  exact hx

/-- Two sequences come to the same if their second parts do, wherever the first part leads. -/
theorem runOn_bind_congr {g : α → m β}
    (h : Leads x s (fun a s' => Failing.runOn (f a) s' = Failing.runOn (g a) s') fun _ _ => True) :
    Failing.runOn (x >>= f) s = Failing.runOn (x >>= g) s := by
  rw [Leads] at h
  rw [Failing.runOn_bind, Failing.runOn_bind]
  rcases hx : Failing.runOn x s with ⟨_ | a, s'⟩
  · rfl
  · simpa only [hx] using h

/-! ## One state -/

section One

variable {s : σ} {ok : α → σ → Prop} {err : ε → σ → Prop}

theorem of_get {ok : σ → σ → Prop} (h : ok s s) :
    Leads (get : ExceptT ε (StateM σ) σ) s ok err := h

theorem of_set {s' : σ} {ok : PUnit → σ → Prop} (h : ok () s') :
    Leads (set s' : ExceptT ε (StateM σ) PUnit) s ok err := h

theorem of_throw {e : ε} (h : err e s) : Leads (throw e : ExceptT ε (StateM σ) α) s ok err := h

/-- An operation that does not fail. -/
theorem of_state {x : StateM σ α} (h : ok (x.run s).1 (x.run s).2) :
    Leads (liftM x : ExceptT ε (StateM σ) α) s ok err := h

/-- Something that may fail, without a state. -/
theorem of_lift {r : Except ε α} (hok : ∀ a, r = .ok a → ok a s)
    (herr : ∀ e, r = .error e → err e s) :
    Leads (liftM r : ExceptT ε (StateM σ) α) s ok err := by
  cases r with
  | ok a => exact hok a rfl
  | error e => exact herr e rfl

theorem of_tryCatch {x : ExceptT ε (StateM σ) α} {f : ε → ExceptT ε (StateM σ) α}
    (h : Leads x s ok fun e s' => Leads (f e) s' ok err) : Leads (tryCatch x f) s ok err := by
  have split : (tryCatch x f).run.run s =
      match x.run.run s with
      | (.ok a, s') => (.ok a, s')
      | (.error e, s') => (f e).run.run s' := by
    show (x.run >>= fun r => match r with
      | .ok a => pure (.ok a)
      | .error e => (f e).run).run s = _
    rw [StateT.run_bind]
    rcases x.run.run s with ⟨_ | _, s'⟩ <;> rfl
  simp only [Leads, Failing.runOn] at h ⊢
  rw [split]
  rcases hx : x.run.run s with ⟨_ | _, s'⟩ <;> simpa only [hx] using h

/-- A failure that is told in another way. -/
theorem of_adapt {ε' : Type} {x : ExceptT ε' (StateM σ) α} {tell : ε' → ε}
    (h : Leads x s ok fun e s' => err (tell e) s') : Leads (x.adapt tell) s ok err := by
  have run : (x.adapt tell).run.run s = ((x.run.run s).1.mapError tell, (x.run.run s).2) := rfl
  simp only [Leads, Failing.runOn] at h ⊢
  rw [run]
  rcases hx : x.run.run s with ⟨_ | _, s'⟩ <;> rw [hx] at h <;> exact h

end One

/-! ## One state inside another -/

section Two

variable {s : σ × τ} {ok : α → σ × τ → Prop} {err : ε → σ × τ → Prop}

theorem of_get₂ {ok : σ → σ × τ → Prop} (h : ok s.1 s) :
    Leads (get : ExceptT ε (StateT σ (StateM τ)) σ) s ok err := h

theorem of_set₂ {a : σ} {ok : PUnit → σ × τ → Prop} (h : ok () (a, s.2)) :
    Leads (set a : ExceptT ε (StateT σ (StateM τ)) PUnit) s ok err := h

theorem of_modify₂ {f : σ → σ} {ok : PUnit → σ × τ → Prop} (h : ok () (f s.1, s.2)) :
    Leads (modify f : ExceptT ε (StateT σ (StateM τ)) PUnit) s ok err := h

theorem of_throw₂ {e : ε} (h : err e s) :
    Leads (throw e : ExceptT ε (StateT σ (StateM τ)) α) s ok err := h

theorem of_lift₂ {r : Except ε α} (hok : ∀ a, r = .ok a → ok a s)
    (herr : ∀ e, r = .error e → err e s) :
    Leads (liftM r : ExceptT ε (StateT σ (StateM τ)) α) s ok err := by
  cases r with
  | ok a => exact hok a rfl
  | error e => exact herr e rfl

/-- An operation on the outer state alone. -/
theorem of_outer {x : StateM τ α} (h : ok (x.run s.2).1 (s.1, (x.run s.2).2)) :
    Leads (liftM x : ExceptT ε (StateT σ (StateM τ)) α) s ok err := h

/-- An operation on the outer state alone, whose failure is looked at. -/
theorem of_outer_result {ε' : Type} {op : ExceptT ε' (StateM τ) α}
    {f : Except ε' α → ExceptT ε (StateT σ (StateM τ)) β} {ok : β → σ × τ → Prop}
    (h : Leads op s.2 (fun a t => Leads (f (.ok a)) (s.1, t) ok err)
      fun e t => Leads (f (.error e)) (s.1, t) ok err) :
    Leads (liftM (op.run : StateM τ (Except ε' α)) >>= f) s ok err := by
  refine bind (of_outer ?_)
  rcases h.outcome with ⟨a, t, hop, h⟩ | ⟨e, t, hop, h⟩
  · rw [show op.run.run s.2 = (.ok a, t) from hop]
    exact h
  · rw [show op.run.run s.2 = (.error e, t) from hop]
    exact h

/-- An operation whose failure is looked at. -/
theorem of_result {ε' : Type} {x : ExceptT ε' (StateT σ (StateM τ)) α}
    {ok : Except ε' α → σ × τ → Prop} {err : ε → σ × τ → Prop}
    (h : Leads x s (fun a => ok (.ok a)) fun e => ok (.error e)) :
    Leads (ExceptT.lift x.run : ExceptT ε (StateT σ (StateM τ)) (Except ε' α)) s ok err := by
  show ok ((x.run.run s.1).run s.2).1.1 (((x.run.run s.1).run s.2).1.2, ((x.run.run s.1).run s.2).2)
  rw [Leads, show Failing.runOn x s = (((x.run.run s.1).run s.2).1.1,
    ((x.run.run s.1).run s.2).1.2, ((x.run.run s.1).run s.2).2) from rfl] at h
  rcases hx : ((x.run.run s.1).run s.2).1.1 with e | a <;> rw [hx] at h <;> exact h

theorem runOn_of_run {x : ExceptT ε (StateT σ (StateM τ)) α} {a b : σ} {t u : τ} {r : Except ε α}
    (h : (x.run.run a).run t = ((r, b), u)) : Failing.runOn x (a, t) = (r, b, u) := by
  show (((x.run.run a).run t).1.1, ((x.run.run a).run t).1.2, ((x.run.run a).run t).2) = _
  rw [h]

/-- The two states of an outcome. -/
theorem run_run_run {x : ExceptT ε (StateT σ (StateM τ)) α} {a b : σ} {t u : τ} {r : Except ε α}
    (h : Failing.runOn x (a, t) = (r, b, u)) : (x.run.run a).run t = ((r, b), u) := by
  rcases hx : (x.run.run a).run t with ⟨⟨r', b'⟩, u'⟩
  rw [runOn_of_run hx] at h
  cases h
  rfl

end Two

end Leads

/-! ## Several calls -/

namespace Failing

variable {call : β → m α} {accepts : Except ε α → Bool} {s s' : σ}

/-- What an operation gives and where it leads, if it succeeds. -/
def ok? (x : m α) (s : σ) : Option (α × σ) :=
  match runOn x s with
  | (.ok a, s') => some (a, s')
  | (.error _, _) => none

theorem runOn_of_ok? {x : m α} {a : α} (h : ok? x s = some (a, s')) :
    runOn x s = (.ok a, s') := by
  unfold ok? at h
  split at h
  · next run =>
    rw [run]
    cases h
    rfl
  · cases h

/-- Where calls lead, if what each of them comes to is accepted. -/
def follow (call : β → m α) (accepts : Except ε α → Bool) : List β → σ → Option σ
  | [], s => some s
  | x :: rest, s =>
    if accepts (runOn (call x) s).1 then follow call accepts rest (runOn (call x) s).2 else none

/-- What each accepted call keeps holds of where calls lead. -/
theorem of_follow {P : List β → σ → Prop}
    (step : ∀ earlier x s result s', P earlier s → runOn (call x) s = (result, s') →
      accepts result = true → P (earlier ++ [x]) s')
    {earlier calls : List β} (start : P earlier s)
    (h : follow call accepts calls s = some s') : P (earlier ++ calls) s' := by
  induction calls generalizing earlier s with
  | nil =>
    obtain rfl := Option.some.inj h
    rwa [List.append_nil]
  | cons x rest ih =>
    rw [follow] at h
    split at h
    · next accepted =>
      have next := ih (step earlier x s _ _ start rfl accepted) h
      rwa [List.append_assoc] at next
    · cases h

end Failing
end ExternalSort
