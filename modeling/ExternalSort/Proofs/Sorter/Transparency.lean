/-
  ExternalSort.Proofs.Sorter.Transparency

  Checking the comparator is transparent.

  A process makes sorters, uses them in any order, and reads what they give out,
  while other things happen to the files. Whether the sorters check their
  comparators or not, every answer is the same, until one of them tells of a
  violation; and a comparator that never contradicts itself is never blamed.
-/

import ExternalSort.Proofs.Sorter.Checking.Limited
import ExternalSort.Proofs.Sorter.Checking.Unbounded
import ExternalSort.Proofs.Sorter.Session
import Mathlib.Data.List.InsertIdx

namespace ExternalSort

open Telling (Tells)
open Sorter (Numbered ascending)

variable {ρ : Type}

/-! ## Sorters of any kind -/

namespace Sorter

/-- The same sorter, without checks. -/
def unverified : Sorter ρ → Sorter ρ
  | .unbounded u => .unbounded ((Unbounded.erasure ρ).erase u)
  | .singleBest b => .singleBest ((SingleBest.erasure ρ).erase b)
  | .topK t => .topK ((TopK.erasure ρ).erase t)

/-- The comparator of the sorter never contradicts itself. -/
def Sound : Sorter ρ → Prop
  | .unbounded u => (Unbounded.erasure ρ).sound u
  | .singleBest b => (SingleBest.erasure ρ).sound b
  | .topK t => (TopK.erasure ρ).sound t

/-- Checks are taken away from sorters. -/
def erasure (ρ : Type) : Erasure (Sorter ρ) (Sorter ρ) := ⟨unverified, Sound⟩

section Dispatch

variable {α β S : Type} {E : Erasure S S} {F : Erasure α β}

theorem agrees_of_kind {op : SorterM S α} {op' : SorterM S β} {wrap : S → Sorter ρ}
    {all : SorterM (Sorter ρ) α} {all' : SorterM (Sorter ρ) β} {a : S} {s : Store}
    (same : ∀ b, (wrap b).unverified = wrap (E.erase b)) (sound : ∀ b, (wrap b).Sound ↔ E.sound b)
    (hall : all.run.run (wrap a) = do
      let (result, b) ← op.run.run a
      return (result, wrap b))
    (hall' : all'.run.run (wrap (E.erase a)) = do
      let (result, b) ← op'.run.run (E.erase a)
      return (result, wrap b))
    (h : Agrees (E.inside Store) F op op' (a, s)) :
    Agrees ((erasure ρ).inside Store) F all all' (wrap a, s) := by
  have erased (b : S) (t : Store) :
      ((erasure ρ).inside Store).erase (wrap b, t) = (wrap (E.erase b), t) := Prod.ext (same b) rfl
  rcases h.outcome with ⟨x, ⟨b, t⟩, hrun, keeps, alike⟩ | ⟨e, ⟨b, t⟩, hrun, told | ⟨quiet, keeps, alike⟩⟩
  · refine Leads.of_runOn_ok (runOn_of_kind hall hrun) ⟨fun before => ?_, ?_⟩
    · obtain ⟨after, result⟩ := keeps ((sound a).mp before)
      exact ⟨(sound b).mpr after, result⟩
    · rw [erased, erased]
      exact runOn_of_kind hall' alike
  · exact Leads.of_runOn_error (runOn_of_kind hall hrun)
      (.inl ⟨told.1, fun before => told.2 ((sound a).mp before)⟩)
  · refine Leads.of_runOn_error (runOn_of_kind hall hrun) (.inr ⟨quiet, fun before => ?_, ?_⟩)
    · exact (sound b).mpr (keeps ((sound a).mp before))
    · rw [erased, erased]
      exact runOn_of_kind hall' alike

theorem dispatch_agrees {u : SorterM (Unbounded ρ) α} {b : SorterM (SingleBest ρ) α}
    {t : SorterM (TopK ρ) α} {u' : SorterM (Unbounded ρ) β} {b' : SorterM (SingleBest ρ) β}
    {t' : SorterM (TopK ρ) β} (hu : ∀ p, Agrees ((Unbounded.erasure ρ).inside Store) F u u' p)
    (hb : ∀ p, Agrees ((SingleBest.erasure ρ).inside Store) F b b' p)
    (ht : ∀ p, Agrees ((TopK.erasure ρ).inside Store) F t t' p) (p : Sorter ρ × Store) :
    Agrees ((erasure ρ).inside Store) F (dispatch u b t) (dispatch u' b' t') p := by
  obtain ⟨sorter, s⟩ := p
  cases sorter with
  | unbounded a => exact agrees_of_kind (fun _ => rfl) (fun _ => .rfl) rfl rfl (hu (a, s))
  | singleBest a => exact agrees_of_kind (fun _ => rfl) (fun _ => .rfl) rfl rfl (hb (a, s))
  | topK a => exact agrees_of_kind (fun _ => rfl) (fun _ => .rfl) rfl rfl (ht (a, s))

end Dispatch

theorem statistics_unverified (sorter : Sorter ρ) (s : Store) :
    sorter.unverified.statistics s = sorter.statistics s := by
  cases sorter <;> rfl

/-- Making a sorter of one kind, as a sorter of any kind. -/
theorem agrees_of_made {S : Type} {E : Erasure S S} {p : Prop} {op op' : SpillM S}
    {wrap : S → Sorter ρ} {s : Store} (same : ∀ b, (wrap b).unverified = wrap (E.erase b))
    (sound : ∀ b, E.sound b → (wrap b).Sound) (h : Agrees (.same p) E op op' s) :
    Agrees (.same p) (erasure ρ) (do return wrap (← op)) (do return wrap (← op')) s := by
  apply h.seq
  intro b _ keeps
  rw [← same b]
  exact Agrees.of_pure (F := erasure ρ) fun holds => sound b (keeps holds).2

theorem ofOptions_agrees (options : Options) (order : Comparator ρ) (s : Store) :
    Agrees (.same (Std.OrientedCmp order)) (erasure ρ) (ofOptions options order)
      (ofOptions options.unverified order) s := by
  rw [ofOptions, ofOptions]
  apply (Discreet.of_get.agrees s).ask
  intro t s
  apply ((Discreet.of_lift (options.validate_discreet _)).agrees s).ask
  intro _ s
  apply Agrees.ite
  · exact fun _ =>
      agrees_of_made (fun _ => rfl) (fun _ => id) (Unbounded.ofOptions_agrees options order s)
  · intro _
    apply Agrees.ite
    · exact fun _ =>
        agrees_of_made (fun _ => rfl) (fun _ => id) (SingleBest.ofOptions_agrees options order s)
    · exact fun _ =>
        agrees_of_made (fun _ => rfl) (fun _ => id) (TopK.ofOptions_agrees options order s)

theorem resume_agrees (manifest : Manifest) (options : Options) (order : Comparator ρ) (s : Store) :
    Agrees (.same (Std.OrientedCmp order)) (erasure ρ) (resume manifest options order)
      (resume manifest options.unverified order) s :=
  agrees_of_made (fun _ => rfl) (fun _ => id) (Unbounded.resume_agrees manifest options order s)

/-- A sorter of the kind for the limit of the options, or of a given kind. -/
inductive Strategy
  | byLimit
  | unbounded
  | singleBest
  | topK

/-- A sorter of the given strategy. -/
def ofStrategy (options : Options) (order : Comparator ρ) : Strategy → SpillM (Sorter ρ)
  | .byLimit => ofOptions options order
  | .unbounded => return .unbounded (← Unbounded.ofOptions options order)
  | .singleBest => return .singleBest (← SingleBest.ofOptions options order)
  | .topK => return .topK (← TopK.ofOptions options order)

theorem ofStrategy_agrees (options : Options) (order : Comparator ρ) (strategy : Strategy)
    (s : Store) :
    Agrees (.same (Std.OrientedCmp order)) (erasure ρ) (ofStrategy options order strategy)
      (ofStrategy options.unverified order strategy) s := by
  cases strategy with
  | byLimit => exact ofOptions_agrees options order s
  | unbounded =>
    exact agrees_of_made (fun _ => rfl) (fun _ => id) (Unbounded.ofOptions_agrees options order s)
  | singleBest =>
    exact agrees_of_made (fun _ => rfl) (fun _ => id) (SingleBest.ofOptions_agrees options order s)
  | topK => exact agrees_of_made (fun _ => rfl) (fun _ => id) (TopK.ofOptions_agrees options order s)

variable [Storable ρ]

theorem release_unverified (sorter : Sorter ρ) : sorter.unverified.release = sorter.release := by
  cases sorter <;> rfl

theorem add_agrees (record : ρ) (spare : Nat) (p : Sorter ρ × Store) :
    Agrees ((erasure ρ).inside Store) (.same True) (add record spare) (add record spare) p :=
  dispatch_agrees (Unbounded.add_agrees record spare) (SingleBest.add_agrees record spare)
    (TopK.add_agrees record spare) p

theorem done_agrees (p : Sorter ρ × Store) :
    Agrees ((erasure ρ).inside Store) (Sorted.erasure ρ) done done p :=
  dispatch_agrees Unbounded.done_agrees SingleBest.done_agrees TopK.done_agrees p

theorem persist_agrees (p : Sorter ρ × Store) :
    Agrees ((erasure ρ).inside Store) (.same True) persist persist p :=
  dispatch_agrees Unbounded.persist_agrees (fun _ => .of_throw id) TopK.persist_agrees p

end Sorter

/-! ## What sorters give out -/

namespace Sorted

variable [Storable ρ]

theorem next_conforms (sorted : Sorted ρ) :
    Conforms ((erasure ρ).sound sorted) True (Tells ·.1) ((erasure ρ).beside _)
      (SortedSource.next sorted : StoreM _) (SortedSource.next ((erasure ρ).erase sorted)) := by
  cases sorted with
  | inl records =>
    refine fun _ => .inr ⟨fun _ => ?_, id, rfl⟩
    obtain ⟨_ | ⟨record, rest⟩⟩ := records
    · exact id
    · exact id
  | inr q =>
    apply (Merge.next_conforms (fun _ => RunReader.silent ρ) q).seq (fun _ _ => id)
    intro p quiet sound
    exact .of_pure (F := (erasure ρ).beside _) (a := (p.1, .inr p.2)) quiet sound

theorem close_conforms (sorted : Sorted ρ) :
    Conforms ((erasure ρ).sound sorted) True (Tells ·.1) ((erasure ρ).beside _)
      (SortedSource.close sorted : StoreM _) (SortedSource.close ((erasure ρ).erase sorted)) := by
  cases sorted with
  | inl records => exact fun _ => .inr ⟨fun _ => id, id, rfl⟩
  | inr q =>
    apply (Merge.closeAll_conforms (fun _ => RunReader.silent ρ) { q with remaining := 0 }).seq
      (fun _ _ => id)
    intro p quiet sound
    exact .of_pure (F := (erasure ρ).beside _) (a := (p.1, .inr p.2)) quiet sound

theorem release_unverified (sorted : Sorted ρ) :
    (SortedSource.release ((erasure ρ).erase sorted) : StoreM Unit) = SortedSource.release sorted := by
  cases sorted <;> rfl

end Sorted

/-! ## A process with sorters -/

/-- What is done in a process: sorters are made, used and given up, and what they gave out is read. -/
inductive Deed (ρ : Type)
  | make (strategy : Sorter.Strategy) (options : Options) (order : Comparator ρ)
  | resume (manifest : Manifest) (options : Options) (order : Comparator ρ)
  | add (sorter : Nat) (record : ρ) (spare : Nat := 0)
  | persist (sorter : Nat)
  | done (sorter : Nat)
  | statistics (sorter : Nat)
  | drop (sorter : Nat)
  | next (output : Nat)
  | close (output : Nat)
  | discard (output : Nat)
  /-- Something else happens to the disk, the files in use or the permission to spill. -/
  | elsewhere (change : Store → Store)

/-- Both directions of comparing agree, and a record is equal to itself. -/
structure ComparesAlike (order : Comparator ρ) : Prop where
  reflexive : ∀ a, order a a = .eq
  antisymmetric : ∀ a b, order a b = (order b a).swap

theorem ComparesAlike.oriented {order : Comparator ρ} (h : ComparesAlike order) :
    Std.OrientedCmp order :=
  ⟨fun {a b} => h.antisymmetric a b⟩

/-- If a sorter is made, its comparator never contradicts itself. -/
def Deed.Consistent : Deed ρ → Prop
  | .make _ _ order | .resume _ _ order => ComparesAlike order
  | _ => True

/-- What a deed comes to. -/
inductive Report (ρ : Type)
  | made (result : Except SortError Unit)
  | called (result : Except Failure Unit)
  | persisted (result : Except Failure Manifest)
  | counted (statistics : Statistics)
  | step (step : Step ρ)
  | closed (result : Except SortError Unit)
  | nothing

instance : Telling (Report ρ) where
  Tells
    | .made result => Tells result
    | .called result => Tells result
    | .persisted result => Tells result
    | .step step => Tells step
    | .closed result => Tells result
    | .counted _ | .nothing => False

/-- The sorters of a process, and what they gave out. -/
structure Process (ρ : Type) where
  sorters : List (Sorter ρ) := []
  outputs : List (Sorted ρ) := []

namespace Process

/-- One more sorter, if it could be made. -/
def make (p : Process ρ) (made : SpillM (Sorter ρ)) : StoreM (Report ρ × Process ρ) := do
  match ← made.run with
  | .ok sorter => return (.made (.ok ()), { p with sorters := p.sorters ++ [sorter] })
  | .error e => return (.made (.error e), p)

/-- Calls an operation of a sorter, if there is one at this place. -/
def call {α : Type} (p : Process ρ) (i : Nat) (op : SorterM (Sorter ρ) α)
    (report : Except Failure α → Process ρ → Report ρ × Process ρ) :
    StoreM (Report ρ × Process ρ) := do
  match p.sorters[i]? with
  | none => return (.nothing, p)
  | some sorter => do
    let (result, sorter) ← op.run.run sorter
    return report result { p with sorters := p.sorters.set i sorter }

/-- Asks for something of what a sorter gave out. -/
def read {α : Type} (p : Process ρ) (j : Nat) (op : Sorted ρ → StoreM (α × Sorted ρ))
    (report : α → Report ρ) : StoreM (Report ρ × Process ρ) := do
  match p.outputs[j]? with
  | none => return (.nothing, p)
  | some sorted => do
    let (answer, sorted) ← op sorted
    return (report answer, { p with outputs := p.outputs.set j sorted })

/-! ### Without checks -/

/-- Checks are taken away from everything that a process has. -/
def erasure (ρ : Type) : Erasure (Process ρ) (Process ρ) where
  erase p := ⟨p.sorters.map (Sorter.erasure ρ).erase, p.outputs.map (Sorted.erasure ρ).erase⟩
  sound p := (∀ sorter ∈ p.sorters, (Sorter.erasure ρ).sound sorter) ∧
    ∀ sorted ∈ p.outputs, (Sorted.erasure ρ).sound sorted

/-- What a deed comes to, and what is left, without checks. -/
abbrev reportErasure (ρ : Type) : Erasure (Report ρ × Process ρ) (Report ρ × Process ρ) :=
  (erasure ρ).beside (Report ρ)

theorem sorters_erase (p : Process ρ) (i : Nat) :
    ((erasure ρ).erase p).sorters[i]? = p.sorters[i]?.map (Sorter.erasure ρ).erase :=
  List.getElem?_map

theorem outputs_erase (p : Process ρ) (j : Nat) :
    ((erasure ρ).erase p).outputs[j]? = p.outputs[j]?.map (Sorted.erasure ρ).erase :=
  List.getElem?_map

/-- A request that finds nothing at its place. -/
theorem nothing_conforms (p : Process ρ) :
    Conforms ((erasure ρ).sound p) True (Tells ·.1) (reportErasure ρ)
      (pure (.nothing, p) : StoreM (Report ρ × Process ρ)) (pure (.nothing, (erasure ρ).erase p)) :=
  .of_pure (F := reportErasure ρ) (a := (Report.nothing, p)) (fun _ => id) id

theorem make_conforms {made made' : SpillM (Sorter ρ)} {sound : Prop}
    (h : ∀ s, Agrees (.same sound) (Sorter.erasure ρ) made made' s) (p : Process ρ) :
    Conforms ((erasure ρ).sound p ∧ sound) True (Tells ·.1) (reportErasure ρ) (p.make made)
      (((erasure ρ).erase p).make made') := by
  rw [make, make]
  apply ((Agrees.conforms h).mono And.right).seq
  · intro result _ told
    cases result with
    | error e => exact told
    | ok sorter => exact told.elim
  · intro result quiet keeps
    cases result with
    | error e =>
      exact .of_pure (F := reportErasure ρ) (a := (Report.made (.error e), p)) quiet And.left
    | ok sorter =>
      refine .of_eq (by simp [Erasure.beside, erasure]) (fun _ => id) fun holds => ⟨?_, holds.1.2⟩
      exact List.forall_mem_append.mpr
        ⟨holds.1.1, List.forall_mem_singleton.mpr (keeps holds sorter rfl)⟩

theorem call_conforms {α β : Type} {F : Erasure α β} {op : SorterM (Sorter ρ) α}
    {op' : SorterM (Sorter ρ) β}
    {report : Except Failure α → Process ρ → Report ρ × Process ρ}
    {report' : Except Failure β → Process ρ → Report ρ × Process ρ}
    (h : ∀ q, Agrees ((Sorter.erasure ρ).inside Store) F op op' q)
    (same : ∀ result p, report' ((F.result _).erase result) ((erasure ρ).erase p) =
      (reportErasure ρ).erase (report result p))
    (tells : ∀ result p, Tells (report result p).1 ↔ Tells result)
    (sound : ∀ result p, (F.result _).sound result → (erasure ρ).sound p →
      (erasure ρ).sound (report result p).2) (p : Process ρ) (i : Nat) :
    Conforms ((erasure ρ).sound p) True (Tells ·.1) (reportErasure ρ) (p.call i op report)
      (((erasure ρ).erase p).call i op' report') := by
  rw [call, call, sorters_erase]
  cases hi : p.sorters[i]? with
  | none => exact nothing_conforms p
  | some sorter =>
    have mem := List.mem_of_getElem? hi
    apply ((Agrees.conforms_inside fun s => h (sorter, s)).mono fun holds => holds.1 sorter mem).seq
    · exact fun c _ told => (tells c.1 _).mpr told
    · rintro ⟨result, sorter'⟩ quiet keeps
      -- the sorter goes back to its place on both sides
      have erased : (erasure ρ).erase { p with sorters := p.sorters.set i sorter' } =
          { (erasure ρ).erase p with
            sorters := ((erasure ρ).erase p).sorters.set i ((Sorter.erasure ρ).erase sorter') } := by
        simp [erasure]
      refine .of_eq ?_ (fun holds told => quiet holds ((tells _ _).mp told)) fun holds => ?_
      · rw [← same, erased]
        rfl
      · refine sound _ _ (keeps holds).1 ⟨fun other other_mem => ?_, holds.2⟩
        rcases List.mem_or_eq_of_mem_set other_mem with old | rfl
        · exact holds.1 other old
        · exact (keeps holds).2

theorem read_conforms {α : Type} [Telling α] {op : Sorted ρ → StoreM (α × Sorted ρ)}
    {report : α → Report ρ}
    (h : ∀ sorted, Conforms ((Sorted.erasure ρ).sound sorted) True (Tells ·.1)
      ((Sorted.erasure ρ).beside α) (op sorted) (op ((Sorted.erasure ρ).erase sorted)))
    (tells : ∀ a, Tells (report a) ↔ Tells a) (p : Process ρ) (j : Nat) :
    Conforms ((erasure ρ).sound p) True (Tells ·.1) (reportErasure ρ) (p.read j op report)
      (((erasure ρ).erase p).read j op report) := by
  rw [read, read, outputs_erase]
  cases hj : p.outputs[j]? with
  | none => exact nothing_conforms p
  | some sorted =>
    have mem := List.mem_of_getElem? hj
    apply ((h sorted).mono fun holds => holds.2 sorted mem).seq
    · exact fun c _ told => (tells c.1).mpr told
    · rintro ⟨a, sorted'⟩ quiet keeps
      refine .of_eq (by simp [Erasure.beside, erasure])
        (fun holds told => quiet holds ((tells _).mp told)) fun holds => ?_
      refine ⟨holds.1, fun other other_mem => ?_⟩
      rcases List.mem_or_eq_of_mem_set other_mem with old | rfl
      · exact holds.2 other old
      · exact keeps holds

/-! ### Deeds -/

variable [Storable ρ]

/-- Does one deed. Whether sorters check their comparators does not depend on their options. -/
def act (verify : Bool) (p : Process ρ) : Deed ρ → StoreM (Report ρ × Process ρ)
  | .make strategy options order =>
    p.make (Sorter.ofStrategy { options with verifyOrder := verify } order strategy)
  | .resume manifest options order =>
    p.make (Sorter.resume manifest { options with verifyOrder := verify } order)
  | .add i record spare => p.call i (Sorter.add record spare) fun result p => (.called result, p)
  | .persist i => p.call i Sorter.persist fun result p => (.persisted result, p)
  | .done i => p.call i Sorter.done fun result p =>
    match result with
    | .ok sorted => (.called (.ok ()), { p with outputs := p.outputs ++ [sorted] })
    | .error e => (.called (.error e), p)
  | .statistics i =>
    match p.sorters[i]? with
    | none => return (.nothing, p)
    | some sorter => return (.counted (sorter.statistics (← get)), p)
  | .drop i =>
    match p.sorters[i]? with
    | none => return (.nothing, p)
    | some sorter => do
      sorter.release
      return (.nothing, { p with sorters := p.sorters.eraseIdx i })
  | .next j => p.read j SortedSource.next .step
  | .close j => p.read j SortedSource.close .closed
  | .discard j =>
    match p.outputs[j]? with
    | none => return (.nothing, p)
    | some sorted => do
      SortedSource.release sorted
      return (.nothing, { p with outputs := p.outputs.eraseIdx j })
  | .elsewhere change => do
    modify change
    return (.nothing, p)

/-- Does deeds, first to last. -/
def actAll (verify : Bool) : Process ρ → List (Deed ρ) → StoreM (List (Report ρ) × Process ρ)
  | p, [] => return ([], p)
  | p, deed :: rest => do
    let (report, p) ← p.act verify deed
    let (reports, p) ← actAll verify p rest
    return (report :: reports, p)

theorem statistics_conforms (p : Process ρ) (i : Nat) :
    Conforms ((erasure ρ).sound p) True (Tells ·.1) (reportErasure ρ) (p.act true (.statistics i))
      (((erasure ρ).erase p).act false (.statistics i)) := by
  rw [act, act, sorters_erase]
  cases p.sorters[i]? with
  | none => exact nothing_conforms p
  | some sorter =>
    apply Conforms.ask
    intro s
    refine .of_eq ?_ (fun _ => id) id
    exact congrArg (fun stats => (Report.counted stats, _)) (sorter.statistics_unverified _)

theorem drop_conforms (p : Process ρ) (i : Nat) :
    Conforms ((erasure ρ).sound p) True (Tells ·.1) (reportErasure ρ) (p.act true (.drop i))
      (((erasure ρ).erase p).act false (.drop i)) := by
  rw [act, act, sorters_erase]
  cases p.sorters[i]? with
  | none => exact nothing_conforms p
  | some sorter =>
    dsimp only [Option.map]
    rw [show ((Sorter.erasure ρ).erase sorter).release = _ from sorter.release_unverified]
    apply Conforms.ask
    intro _
    refine .of_eq (by simp [Erasure.beside, erasure, List.eraseIdx_map]) (fun _ => id) fun holds => ?_
    exact ⟨fun other mem => holds.1 other (List.mem_of_mem_eraseIdx mem), holds.2⟩

theorem discard_conforms (p : Process ρ) (j : Nat) :
    Conforms ((erasure ρ).sound p) True (Tells ·.1) (reportErasure ρ) (p.act true (.discard j))
      (((erasure ρ).erase p).act false (.discard j)) := by
  rw [act, act, outputs_erase]
  cases p.outputs[j]? with
  | none => exact nothing_conforms p
  | some sorted =>
    dsimp only [Option.map]
    rw [sorted.release_unverified]
    apply Conforms.ask
    intro _
    refine .of_eq (by simp [Erasure.beside, erasure, List.eraseIdx_map]) (fun _ => id) fun holds => ?_
    exact ⟨holds.1, fun other mem => holds.2 other (List.mem_of_mem_eraseIdx mem)⟩

theorem act_conforms (p : Process ρ) (deed : Deed ρ) :
    Conforms ((erasure ρ).sound p ∧ deed.Consistent) True (Tells ·.1) (reportErasure ρ)
      (p.act true deed) (((erasure ρ).erase p).act false deed) := by
  cases deed with
  | make strategy options order =>
    have agrees := Sorter.ofStrategy_agrees { options with verifyOrder := true } order strategy
    exact (make_conforms agrees p).mono (And.imp_right ComparesAlike.oriented)
  | resume manifest options order =>
    have agrees := Sorter.resume_agrees manifest { options with verifyOrder := true } order
    exact (make_conforms agrees p).mono (And.imp_right ComparesAlike.oriented)
  -- requests to a sorter: its operation agrees, and what is left is how the answer is reported
  | add i record spare =>
    rw [act, act]
    refine Conforms.mono (call_conforms (Sorter.add_agrees record spare) ?_ ?_ ?_ p i) And.left
    · rintro (_ | _) _ <;> rfl
    · exact fun _ _ => .rfl
    · exact fun _ _ _ => id
  | persist i =>
    rw [act, act]
    refine Conforms.mono (call_conforms Sorter.persist_agrees ?_ ?_ ?_ p i) And.left
    · rintro (_ | _) _ <;> rfl
    · exact fun _ _ => .rfl
    · exact fun _ _ _ => id
  | done i =>
    rw [act, act]
    refine Conforms.mono (call_conforms Sorter.done_agrees ?_ ?_ ?_ p i) And.left
    · rintro (_ | sorted) _
      · rfl
      · simp [Erasure.beside, Erasure.result, erasure, Except.map]
    · rintro (_ | _) _ <;> exact .rfl
    · rintro (_ | sorted) q keeps sound
      · exact sound
      -- the new output is as sound as the sorter that it came from
      · exact ⟨sound.1, List.forall_mem_append.mpr
          ⟨sound.2, List.forall_mem_singleton.mpr (keeps sorted rfl)⟩⟩
  -- what follows compares nothing, but for reading an output
  | statistics i => exact (statistics_conforms p i).mono And.left
  | drop i => exact (drop_conforms p i).mono And.left
  | next j => exact (read_conforms Sorted.next_conforms (fun _ => .rfl) p j).mono And.left
  | close j => exact (read_conforms Sorted.close_conforms (fun _ => .rfl) p j).mono And.left
  | discard j => exact (discard_conforms p j).mono And.left
  | elsewhere change => exact .ask fun _ => (nothing_conforms p).mono And.left

theorem actAll_conforms (p : Process ρ) (deeds : List (Deed ρ)) :
    Conforms ((erasure ρ).sound p ∧ ∀ deed ∈ deeds, deed.Consistent) True
      (fun out => ∃ report ∈ out.1, Tells report) ((erasure ρ).beside (List (Report ρ)))
      (actAll true p deeds) (actAll false ((erasure ρ).erase p) deeds) := by
  induction deeds generalizing p with
  | nil => exact .nil (E := erasure ρ) And.left
  | cons deed rest ih =>
    have first := (act_conforms p deed).mono
      fun (holds : (erasure ρ).sound p ∧ ∀ deed' ∈ deed :: rest, deed'.Consistent) =>
        ⟨holds.1, holds.2 deed List.mem_cons_self⟩
    refine first.cons (k := (actAll true · rest)) (l := (actAll false · rest)) fun q sound => ?_
    exact (ih q).mono fun holds =>
      ⟨sound holds, fun deed' mem => holds.2 deed' (List.mem_cons_of_mem _ mem)⟩

end Process

/-! ## Transparency -/

variable [Storable ρ]

/-- Sorters that check their comparators answer the same as sorters that do not, and leave the files
    the same, unless one of them tells of a violation; and so do merges of any sources. If every
    comparator compares alike in both directions and finds each record equal to itself, no violation
    is told that a source has not told. -/
theorem checks_are_transparent {S σ τ : Type} [SortedSource (StateM S) σ τ] (deeds : List (Deed ρ))
    (s : Store) (sources : List σ) (limit : UInt64) (order : Comparator τ)
    (requests : List Merge.Request) (t : S) :
    (let checked := (Process.actAll true {} deeds).run s
      let unchecked := (Process.actAll false {} deeds).run s
      ((∃ report ∈ checked.1.1, Tells report) ∨
        checked.1.1 = unchecked.1.1 ∧ checked.2 = unchecked.2) ∧
      ((∀ deed ∈ deeds, deed.Consistent) → ∀ report ∈ checked.1.1, ¬ Tells report)) ∧
    (let checked := (Merge.lifetime sources limit order true requests : StateM S _).run t
      let unchecked := (Merge.lifetime sources limit order false requests : StateM S _).run t
      (Merge.Told checked.1 ∨ checked = unchecked) ∧
      (ComparesAlike order → checked = unchecked ∧
        (SortedSource.Silent S σ → ¬ Merge.Told checked.1))) := by
  have sorters := Process.actAll_conforms {} deeds s
  rw [show (Process.erasure ρ).erase {} = {} from rfl] at sorters
  have merge := Merge.lifetime_conforms (fun silent : SortedSource.Silent S σ => silent) sources limit
    order true requests t
  refine ⟨⟨?_, fun consistent report mem told => ?_⟩, ?_, fun consistent => ?_⟩
  · rcases sorters with ⟨told, -⟩ | ⟨-, -, same⟩
    · exact .inl told
    · rw [same]
      exact .inr ⟨rfl, rfl⟩
  · rcases sorters with ⟨-, unsound⟩ | ⟨quiet, -, -⟩
    · exact unsound ⟨⟨List.forall_mem_nil _, List.forall_mem_nil _⟩, consistent⟩
    · exact quiet trivial ⟨report, mem, told⟩
  · rcases merge with ⟨told, -⟩ | ⟨-, -, same⟩
    · exact .inl told
    · exact .inr same.symm
  · obtain ⟨quiet, -, same⟩ := merge.resolve_left fun told => told.2 consistent.oriented
    exact ⟨same.symm, quiet⟩

/-- Numbers in their order are sorted, and merged, as if nobody checked. -/
theorem checks_are_transparent_ascending :
    let deeds : List (Deed Numbered) := [.make .unbounded {} ascending, .add 0 (3, ()),
      .add 0 (1, ()), .done 0, .next 0, .next 0]
    let checked := ((Process.actAll true {} deeds).run {}).1.1
    let merged (verify : Bool) := (Merge.lifetime [(⟨[(3, ())]⟩ : InMemory Numbered), ⟨[(1, ())]⟩] 0
      ascending verify [.next, .next] : StoreM _).run {}
    ((∀ deed ∈ deeds, deed.Consistent) ∧ ∀ report ∈ checked, ¬ Tells report) ∧
    checked = [.made (.ok ()), .called (.ok ()), .called (.ok ()), .called (.ok ()),
      .step (some (.ok (1, ()))), .step (some (.ok (3, ())))] ∧
    (ComparesAlike ascending ∧ SortedSource.Silent Store (InMemory Numbered)) ∧
    merged true = merged false ∧ ¬ Merge.Told (merged true).1 := by
  intro deeds checked merged
  have alike : ComparesAlike ascending :=
    ⟨fun _ => Std.ReflCmp.compare_self, fun _ _ => Std.OrientedCmp.eq_swap⟩
  have silent : SortedSource.Silent Store (InMemory Numbered) := by
    refine ⟨fun source _ => ?_, fun _ _ => id⟩
    obtain ⟨_ | _⟩ := source <;> exact id
  have consistent : ∀ deed ∈ deeds, deed.Consistent := by
    simp only [deeds, List.forall_mem_cons]
    exact ⟨alike, trivial, trivial, trivial, trivial, trivial, List.forall_mem_nil _⟩
  obtain ⟨sorters, merges⟩ := checks_are_transparent deeds {}
    [(⟨[(3, ())]⟩ : InMemory Numbered), ⟨[(1, ())]⟩] 0 ascending [.next, .next] ({} : Store)
  obtain ⟨same, quiet⟩ := merges.2 alike
  exact ⟨⟨consistent, sorters.2 consistent⟩, rfl, ⟨alike, silent⟩, same, quiet silent⟩

/-- Only the sorter that checks its comparator notices that it calls everything less. -/
example (verify : Bool) :
    ((Process.actAll verify {} [.make .byLimit { limit := 1 } fun _ _ => .lt,
      .add 0 ((1, ()) : Int32 × Unit), .add 0 (2, ())]).run {}).1.1 =
    [.made (.ok ()), .called (.ok ()), .called (if verify then
      .error (.error (.comparatorInvariantViolation (.asymmetric .lt .lt))) else .ok ())] := by
  cases verify <;> rfl

end ExternalSort
