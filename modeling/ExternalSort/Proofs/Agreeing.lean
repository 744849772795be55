/-
  ExternalSort.Proofs.Agreeing

  Operations that check their comparisons beside the same operations without
  checks.

  Both do the same, until the first one tells of a violation. What it is that
  differs between them is taken away from states and results by an erasure,
  which also says when checking cannot find anything. There is one rule for each
  form of an operation: a sequence agrees where its parts do.
-/

import ExternalSort.Proofs.Failing
import ExternalSort.Source

namespace ExternalSort

/-! ## Errors that tell of a violation -/

/-- The comparator contradicted itself. -/
def SortError.IsViolation : SortError → Prop
  | .comparatorInvariantViolation _ => True
  | _ => False

/-- The comparator contradicted itself. -/
def Failure.IsViolation : Failure → Prop
  | .error e => e.IsViolation
  | .misuse _ => False

/-- Errors and answers of which some tell of a violation. -/
class Telling (ε : Type) where
  Tells : ε → Prop

instance : Telling SortError := ⟨SortError.IsViolation⟩

instance : Telling Failure := ⟨Failure.IsViolation⟩

instance {ε α : Type} [Telling ε] : Telling (Except ε α) where
  Tells
    | .error e => Telling.Tells e
    | .ok _ => False

instance {α : Type} [Telling α] : Telling (Option α) where
  Tells
    | some a => Telling.Tells a
    | none => False

open Telling (Tells)

/-! ## Erasures -/

/-- What is taken away from a value when nothing is checked, and when checking finds nothing. -/
structure Erasure (α β : Type) where
  erase : α → β
  sound : α → Prop

namespace Erasure

/-- Nothing is taken away. -/
def same {α : Type} (sound : Prop) : Erasure α α := ⟨id, fun _ => sound⟩

/-- Only the inner one of two states changes. -/
def inside {S T : Type} (E : Erasure S T) (υ : Type) : Erasure (S × υ) (T × υ) :=
  ⟨fun p => (E.erase p.1, p.2), fun p => E.sound p.1⟩

/-- Beside an answer. -/
def beside {S T : Type} (E : Erasure S T) (α : Type) : Erasure (α × S) (α × T) :=
  ⟨fun p => (p.1, E.erase p.2), fun p => E.sound p.2⟩

/-- Of a result, if there is one. -/
def result {α β : Type} (F : Erasure α β) (ε : Type) : Erasure (Except ε α) (Except ε β) :=
  ⟨Except.map F.erase, fun r => ∀ a, r = .ok a → F.sound a⟩

/-- Where there is no result, there is nothing to find. -/
theorem sound_error {α β ε : Type} (F : Erasure α β) (e : ε) : (F.result ε).sound (.error e) := by
  rintro a ⟨⟩

/-- Of a result and a state. -/
def both {α β S T : Type} (F : Erasure α β) (E : Erasure S T) : Erasure (α × S) (β × T) :=
  ⟨fun p => (F.erase p.1, E.erase p.2), fun p => F.sound p.1 ∧ E.sound p.2⟩

end Erasure

/-! ## Operations that agree -/

variable {m n : Type → Type} [Monad m] [Monad n] {ε σ τ α β : Type} [Telling ε] [Failing m ε σ]
  [Failing n ε τ]

/-- What `x` does, `y` does as well, but for what is taken away, and what was sound stays so; or `x`
    tells of a violation, and something was not sound. -/
def Agrees (E : Erasure σ τ) (F : Erasure α β) (x : m α) (y : n β) (s : σ) : Prop :=
  Leads x s
    (fun a s' => (E.sound s → E.sound s' ∧ F.sound a) ∧
      Failing.runOn y (E.erase s) = (.ok (F.erase a), E.erase s'))
    fun e s' => (Tells e ∧ ¬ E.sound s) ∨ (¬ Tells e ∧ (E.sound s → E.sound s') ∧
      Failing.runOn y (E.erase s) = (.error e, E.erase s'))

/-- An operation that does not tell of a violation. -/
def Discreet (x : m α) : Prop := ∀ s, Leads x s (fun _ _ => True) fun e _ => ¬ Tells e

namespace Agrees

variable {E : Erasure σ τ} {F : Erasure α β} {x : m α} {y : n β} {s s' : σ}

theorem of_pure {a : α} (h : E.sound s → F.sound a) :
    Agrees E F (pure a : m α) (pure (F.erase a) : n β) s :=
  Leads.of_pure ⟨fun sound => ⟨sound, h sound⟩, Failing.runOn_pure _ _⟩

/-- Operations that agree from a later state on, seen from an earlier one. -/
theorem later (h : Agrees E F x y s') (sound : E.sound s → E.sound s') :
    Leads x s'
      (fun a t => (E.sound s → E.sound t ∧ F.sound a) ∧
        Failing.runOn y (E.erase s') = (.ok (F.erase a), E.erase t))
      fun e t => (Tells e ∧ ¬ E.sound s) ∨ (¬ Tells e ∧ (E.sound s → E.sound t) ∧
        Failing.runOn y (E.erase s') = (.error e, E.erase t)) := by
  apply h.mono
  · rintro a t ⟨keeps, same⟩
    exact ⟨fun before => keeps (sound before), same⟩
  · rintro e t (⟨tells, unsound⟩ | ⟨quiet, keeps, same⟩)
    · exact .inl ⟨tells, fun before => unsound (sound before)⟩
    · exact .inr ⟨quiet, fun before => keeps (sound before), same⟩

theorem seq {α' β' : Type} {G : Erasure α' β'} {k : α → m α'} {k' : β → n β'}
    (h : Agrees E F x y s)
    (hk : ∀ a s', (E.sound s → E.sound s' ∧ F.sound a) → Agrees E G (k a) (k' (F.erase a)) s') :
    Agrees E G (x >>= k) (y >>= k') s := by
  apply Leads.seq h
  · rintro a s' ⟨keeps, same⟩
    rw [Failing.runOn_bind, same]
    exact (hk a s' keeps).later fun before => (keeps before).1
  · rintro e s' (told | ⟨quiet, keeps, same⟩)
    · exact .inl told
    · refine .inr ⟨quiet, keeps, ?_⟩
      rw [Failing.runOn_bind, same]

/-- What is asked for first is the same on both sides. -/
theorem ask {α' β' : Type} {p : Prop} {G : Erasure α' β'} {z : m α} {z' : n α} {k : α → m α'}
    {k' : α → n β'} (h : Agrees E (.same p) z z' s) (hk : ∀ a s', Agrees E G (k a) (k' a) s') :
    Agrees E G (z >>= k) (z' >>= k') s :=
  h.seq fun a s' _ => hk a s'

theorem ite {p : Prop} [Decidable p] {x' : m α} {y' : n β} (h : p → Agrees E F x y s)
    (h' : ¬p → Agrees E F x' y' s) :
    Agrees E F (if p then x else x') (if p then y else y') s := by
  by_cases hp : p
  · rw [if_pos hp, if_pos hp]
    exact h hp
  · rw [if_neg hp, if_neg hp]
    exact h' hp

/-- Nothing comes after a failure. -/
theorem of_failure {σ α β γ γ' : Type} {E : Erasure σ σ} {F : Erasure α β} {s : σ} {e : ε}
    {k : γ → ExceptT ε (StateM σ) α} {k' : γ' → ExceptT ε (StateM σ) β} (h : ¬ Tells e) :
    Agrees E F (throw e >>= k) (throw e >>= k') s :=
  Leads.bind (Leads.of_throw (.inr ⟨h, id, rfl⟩))

/-! ## One state inside another -/

section Two

variable {υ S T α β α' β' : Type} {E : Erasure S T} {F : Erasure α β} {G : Erasure α' β'}
  {p : S × υ} {k : S → ExceptT ε (StateT S (StateM υ)) α}
  {k' : T → ExceptT ε (StateT T (StateM υ)) β} {l : Unit → ExceptT ε (StateT S (StateM υ)) α}
  {l' : Unit → ExceptT ε (StateT T (StateM υ)) β}

theorem of_throw {e : ε} (h : ¬ Tells e) :
    Agrees (E.inside υ) F (throw e : ExceptT ε (StateT S (StateM υ)) α)
      (throw e : ExceptT ε (StateT T (StateM υ)) β) p :=
  Leads.of_throw₂ (.inr ⟨h, id, rfl⟩)

/-- Nothing comes after a failure. -/
theorem of_throw_seq {γ γ' : Type} {e : ε} {k : γ → ExceptT ε (StateT S (StateM υ)) α}
    {k' : γ' → ExceptT ε (StateT T (StateM υ)) β} (h : ¬ Tells e) :
    Agrees (E.inside υ) F (throw e >>= k) (throw e >>= k') p :=
  Leads.bind (Leads.of_throw₂ (.inr ⟨h, id, rfl⟩))

theorem of_get (h : Agrees (E.inside υ) F (k p.1) (k' (E.erase p.1)) p) :
    Agrees (E.inside υ) F (get >>= k) (get >>= k') p :=
  Leads.bind (Leads.of_get₂ h)

theorem of_set {a : S} {b : T} (hb : b = E.erase a) (sound : E.sound p.1 → E.sound a)
    (h : Agrees (E.inside υ) F (l ()) (l' ()) (a, p.2)) :
    Agrees (E.inside υ) F (set a >>= l) (set b >>= l') p := by
  subst hb
  exact Leads.bind (Leads.of_set₂ (h.later sound))

theorem of_modify {f : S → S} {g : T → T} (same : g (E.erase p.1) = E.erase (f p.1))
    (sound : E.sound p.1 → E.sound (f p.1)) :
    Agrees (E.inside υ) (.same True) (modify f : ExceptT ε (StateT S (StateM υ)) PUnit)
      (modify g : ExceptT ε (StateT T (StateM υ)) PUnit) p :=
  Leads.of_modify₂ ⟨fun before => ⟨sound before, trivial⟩,
    congrArg (fun b => (Except.ok PUnit.unit, b, p.2)) same⟩

end Two
end Agrees

/-! ## Operations that check nothing -/

namespace Discreet

variable {x : m α} {k : α → m β}

/-- An operation that checks nothing agrees with itself. -/
theorem agrees (h : Discreet x) {p : Prop} (s : σ) : Agrees (.same p) (.same True) x x s := by
  rw [Agrees, Leads]
  have quiet := h s
  rcases hx : Failing.runOn x s with ⟨e | a, s'⟩
  · exact .inr ⟨quiet.of_error hx, id, hx⟩
  · exact ⟨fun holds => ⟨holds, trivial⟩, hx⟩

theorem of_pure (a : α) : Discreet (pure a : m α) := fun _ => Leads.of_pure trivial

theorem seq (h : Discreet x) (hk : ∀ a, Discreet (k a)) : Discreet (x >>= k) :=
  fun s => (h s).seq (fun a s' _ => hk a s') fun _ _ h => h

theorem ite {p : Prop} [Decidable p] {x' : m α} (h : p → Discreet x) (h' : ¬p → Discreet x') :
    Discreet (if p then x else x') := by
  by_cases hp : p
  · rw [if_pos hp]
    exact h hp
  · rw [if_neg hp]
    exact h' hp

/-! ### No state -/

theorem of_error {e : ε} (h : ¬ Tells e) : Discreet (.error e : Except ε α) := fun _ => h

theorem of_ok (a : α) : Discreet (.ok a : Except ε α) := fun _ => trivial

theorem not_tells {r : Except ε α} (h : Discreet r) {e : ε} (hr : r = .error e) : ¬ Tells e :=
  (h ()).of_error (Prod.ext hr rfl)

/-! ### One state -/

theorem of_get : Discreet (get : ExceptT ε (StateM σ) σ) := fun _ => Leads.of_get trivial

theorem of_state (x : StateM σ α) : Discreet (liftM x : ExceptT ε (StateM σ) α) :=
  fun _ => Leads.of_state trivial

theorem of_lift {r : Except ε α} (h : Discreet r) : Discreet (liftM r : ExceptT ε (StateM σ) α) :=
  fun _ => Leads.of_lift (fun _ _ => trivial) fun _ => h.not_tells

/-! ### One state inside another -/

theorem of_modify₂ {S : Type} (f : S → S) :
    Discreet (modify f : ExceptT ε (StateT S (StateM σ)) PUnit) :=
  fun _ => Leads.of_modify₂ trivial

end Discreet

/-- What checks nothing comes first. -/
theorem Agrees.of_lift {υ S T α β γ : Type} {E : Erasure S T} {F : Erasure α β} {p : S × υ}
    {r : Except ε γ} {k : γ → ExceptT ε (StateT S (StateM υ)) α}
    {k' : γ → ExceptT ε (StateT T (StateM υ)) β} (hr : Discreet r)
    (h : ∀ a, r = .ok a → Agrees (E.inside υ) F (k a) (k' a) p) :
    Agrees (E.inside υ) F (liftM r >>= k) (liftM r >>= k') p := by
  cases r with
  | ok a => exact h a rfl
  | error e => exact .inr ⟨hr.not_tells rfl, id, rfl⟩

/-! ## Answers that agree -/

/-- A computation answers what another one does, but for what is taken away, and what was sound stays
    so; or it tells of a violation, and something was not sound. If the sources are silent, it tells
    of nothing else. -/
def Conforms {S α β : Type} (sound silent : Prop) (tells : α → Prop) (F : Erasure α β)
    (x : StateM S α) (y : StateM S β) : Prop :=
  ∀ s, (tells (x.run s).1 ∧ ¬ sound) ∨
    ((silent → ¬ tells (x.run s).1) ∧ (sound → F.sound (x.run s).1) ∧
      y.run s = (F.erase (x.run s).1, (x.run s).2))

namespace Conforms

variable {S α β γ : Type} {sound silent : Prop} {tells : α → Prop} {F : Erasure α β}
  {x : StateM S γ}

theorem of_eq {a : α} {b : β} (same : b = F.erase a) (quiet : silent → ¬ tells a)
    (h : sound → F.sound a) : Conforms sound silent tells F (pure a : StateM S α) (pure b) :=
  fun _ => .inr ⟨quiet, h, congrArg (·, _) same⟩

theorem of_pure {a : α} (quiet : silent → ¬ tells a) (h : sound → F.sound a) :
    Conforms sound silent tells F (pure a : StateM S α) (pure (F.erase a)) :=
  .of_eq rfl quiet h

theorem of_told {a : α} {y : StateM S β} (told : tells a) (h : ¬ sound) :
    Conforms sound silent tells F (pure a) y :=
  fun _ => .inl ⟨told, h⟩

theorem mono {sound' : Prop} {x : StateM S α} {y : StateM S β}
    (h : Conforms sound' silent tells F x y) (hs : sound → sound') :
    Conforms sound silent tells F x y := by
  intro s
  rcases h s with ⟨told, unsound⟩ | ⟨quiet, keeps, same⟩
  · exact .inl ⟨told, fun holds => unsound (hs holds)⟩
  · exact .inr ⟨quiet, fun holds => keeps (hs holds), same⟩

/-- What is asked for first is the same on both sides. -/
theorem ask {k : γ → StateM S α} {k' : γ → StateM S β}
    (h : ∀ s, Conforms sound silent tells F (k (x.run s).1) (k' (x.run s).1)) :
    Conforms sound silent tells F (x >>= k) (x >>= k') :=
  fun s => h s (x.run s).2

/-- A computation that goes on after one that conforms; what that one tells is told in the end. -/
theorem seq {δ : Type} {tells' : γ → Prop} {G : Erasure γ δ} {y : StateM S δ} {k : γ → StateM S α}
    {k' : δ → StateM S β} (h : Conforms sound silent tells' G x y)
    (told : ∀ c s, tells' c → tells ((k c).run s).1)
    (hk : ∀ c, (silent → ¬ tells' c) → (sound → G.sound c) →
      Conforms sound silent tells F (k c) (k' (G.erase c))) :
    Conforms sound silent tells F (x >>= k) (y >>= k') := by
  intro s
  rcases h s with ⟨tells, unsound⟩ | ⟨quiet, sound, same⟩
  · exact .inl ⟨told _ _ tells, unsound⟩
  · rw [StateT.run_bind, StateT.run_bind, same]
    exact hk _ quiet sound (x.run s).2

theorem ite {p : Prop} [Decidable p] {x x' : StateM S α} {y y' : StateM S β}
    (h : p → Conforms sound silent tells F x y) (h' : ¬p → Conforms sound silent tells F x' y') :
    Conforms sound silent tells F (if p then x else x') (if p then y else y') := by
  by_cases hp : p
  · rw [if_pos hp, if_pos hp]
    exact h hp
  · rw [if_neg hp, if_neg hp]
    exact h' hp

/-- No answers at all. -/
theorem nil {A Q : Type} [Telling A] {E : Erasure Q Q} {q : Q} (h : sound → E.sound q) :
    Conforms sound silent (fun p => ∃ a ∈ p.1, Tells a) (E.beside (List A))
      (pure ([], q) : StateM S _) (pure ([], E.erase q)) := by
  apply of_pure (F := E.beside (List A)) (a := ([], q)) _ h
  rintro - ⟨_, mem, -⟩
  exact List.not_mem_nil mem

/-- A first answer and then more of them. -/
theorem cons {A Q : Type} [Telling A] {E : Erasure Q Q} {x y : StateM S (A × Q)}
    {k l : Q → StateM S (List A × Q)}
    (h : Conforms sound silent (Tells ·.1) (E.beside A) x y)
    (hk : ∀ q, (sound → E.sound q) → Conforms sound silent (fun p => ∃ a ∈ p.1, Tells a)
      (E.beside (List A)) (k q) (l (E.erase q))) :
    Conforms sound silent (fun p => ∃ a ∈ p.1, Tells a) (E.beside (List A))
      (do
        let (a, q) ← x
        let (more, q) ← k q
        return (a :: more, q))
      (do
        let (a, q) ← y
        let (more, q) ← l q
        return (a :: more, q)) := by
  apply h.seq
  · exact fun _ _ told => ⟨_, List.mem_cons_self, told⟩
  · rintro ⟨a, q⟩ quiet sound
    apply (hk q sound).seq
    · rintro _ _ ⟨other, mem, told⟩
      exact ⟨other, List.mem_cons_of_mem _ mem, told⟩
    · rintro ⟨more, q'⟩ quiet' sound'
      apply Conforms.of_pure (a := (a :: more, q')) _ sound'
      rintro holds ⟨other, mem, told⟩
      rcases List.mem_cons.mp mem with rfl | mem
      · exact quiet holds told
      · exact quiet' holds ⟨other, mem, told⟩

end Conforms

/-- Sources that tell of no violation themselves. -/
structure SortedSource.Silent (S σ : Type) {ρ : Type} [SortedSource (StateM S) σ ρ] : Prop where
  next : ∀ (source : σ) (s : S), ¬ Tells ((SortedSource.next source : StateM S _).run s).1.1
  close : ∀ (source : σ) (s : S), ¬ Tells ((SortedSource.close source : StateM S _).run s).1.1

/-! ## Operations as answers -/

section Operations

variable {σ S α β : Type} {F : Erasure α β}

/-- What a computation answers, as an operation. -/
theorem Conforms.agrees {sound : Prop} {x : StateM σ (Except ε α)} {y : StateM σ (Except ε β)}
    (h : Conforms sound True Tells (F.result ε) x y) (s : σ) :
    Agrees (.same sound) F (ExceptT.mk x) (ExceptT.mk y) s := by
  have outcome := h s
  rw [Agrees, Leads]
  rcases hrun : x.run s with ⟨e | a, t⟩ <;> rw [hrun] at outcome
  · rw [show Failing.runOn (ExceptT.mk x) s = _ from hrun]
    exact outcome.imp id fun h => ⟨h.1 trivial, id, h.2.2⟩
  · rw [show Failing.runOn (ExceptT.mk x) s = _ from hrun]
    obtain ⟨-, sound, same⟩ := outcome.resolve_left fun told => told.1
    exact ⟨fun holds => ⟨holds, sound holds a rfl⟩, same⟩

/-- What an operation comes to, as an answer. -/
theorem Agrees.conforms {sound : Prop} {x : ExceptT ε (StateM σ) α} {y : ExceptT ε (StateM σ) β}
    (h : ∀ s, Agrees (.same sound) F x y s) :
    Conforms sound True Tells (F.result ε) x.run y.run := by
  intro s
  rcases (h s).outcome with ⟨a, t, hrun, keeps, same⟩ | ⟨e, t, hrun, outcome⟩ <;>
    rw [show x.run.run s = _ from hrun]
  · exact .inr ⟨fun _ => id, fun holds b hb => Except.ok.inj hb ▸ (keeps holds).2, same⟩
  · exact outcome.imp id fun h => ⟨fun _ => h.1, fun _ => F.sound_error e, h.2.2⟩

/-- What an operation on a state inside another comes to. -/
theorem Agrees.conforms_inside {E : Erasure S S} {a : S} {x : ExceptT ε (StateT S (StateM σ)) α}
    {y : ExceptT ε (StateT S (StateM σ)) β} (h : ∀ s, Agrees (E.inside σ) F x y (a, s)) :
    Conforms (E.sound a) True (Tells ·.1) ((F.result ε).both E) (x.run.run a)
      (y.run.run (E.erase a)) := by
  intro s
  rcases (h s).outcome with ⟨b, ⟨a', t⟩, hrun, keeps, same⟩ | ⟨e, ⟨a', t⟩, hrun, outcome⟩ <;>
    rw [Leads.run_run_run hrun]
  · exact .inr ⟨fun _ => id, fun holds =>
      ⟨fun c hc => Except.ok.inj hc ▸ (keeps holds).2, (keeps holds).1⟩, Leads.run_run_run same⟩
  · rcases outcome with told | ⟨quiet, keeps, same⟩
    · exact .inl told
    · exact .inr ⟨fun _ => quiet, fun holds => ⟨F.sound_error e, keeps holds⟩,
        Leads.run_run_run same⟩

end Operations
end ExternalSort
