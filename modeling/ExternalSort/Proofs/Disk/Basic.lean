/-
  ExternalSort.Proofs.Disk.Basic

  What operations on a disk leave alone.

  Making directories only adds entries where there were none, so every path that
  led somewhere still leads there. Opening a file gives the content that its path
  leads to, or an empty one.
-/

import ExternalSort.Disk.Basic
import ExternalSort.Proofs.Bytes.StandsAt
import ExternalSort.Proofs.Failing

namespace ExternalSort
namespace Disk

/-! ## Entries -/

theorem lookup_filter_ne {entries : List (Location × Node)} {place there : Location}
    (h : there ≠ place) :
    (entries.filter (·.1 != place)).lookup there = entries.lookup there := by
  induction entries with
  | nil => rfl
  | cons e rest ih =>
    obtain ⟨here, node⟩ := e
    by_cases hhere : here = place
    · subst hhere
      have other : (there == here) = false := by simpa using h
      simp [List.lookup_cons, other, ih]
    · simp [hhere, List.lookup_cons, ih]

/-- The disk with more entries. -/
structure Grown (d d' : Disk) : Prop where
  home : d'.home = d.home
  node? : ∀ {place : Location} {node : Node}, d.node? place = some node →
    d'.node? place = some node

/-- The disk with more directories, and with the content it had. -/
structure Deepened (d d' : Disk) : Prop extends Grown d d' where
  contents : d'.contents = d.contents
  free : d'.free = d.free
  made : ∀ {place : Location} {node : Node}, d'.node? place = some node →
    d.node? place = some node ∨ node = .directory

theorem Grown.refl (d : Disk) : Grown d d := ⟨rfl, id⟩

theorem Grown.trans {d e f : Disk} (h : Grown d e) (k : Grown e f) : Grown d f :=
  ⟨k.home.trans h.home, fun hn => k.node? (h.node? hn)⟩

theorem Deepened.refl (d : Disk) : Deepened d d := ⟨Grown.refl d, rfl, rfl, .inl⟩

theorem Deepened.trans {d e f : Disk} (h : Deepened d e) (k : Deepened e f) : Deepened d f :=
  ⟨h.toGrown.trans k.toGrown, k.contents.trans h.contents, k.free.trans h.free,
    fun hn => (k.made hn).elim h.made .inr⟩

theorem place_ne_nil {d : Disk} {place : Location} (h : d.node? place ≠ some .directory) :
    place ≠ [] := by
  rintro rfl
  exact h (by rw [node?, if_pos rfl])

theorem node?_put_of_ne {d : Disk} {place there : Location} {node : Node} {known}
    (h : there ≠ place) : (d.put place node known).node? there = d.node? there := by
  have other : (there == place) = false := by simpa using h
  simp [node?, put, List.lookup_cons, other, lookup_filter_ne h]

theorem node?_put_self {d : Disk} {place : Location} {node : Node} (known) (h : place ≠ []) :
    (d.put place node known).node? place = some node := by
  simp [node?, put, h]

theorem grown_put {d : Disk} {place : Location} {node : Node} (known)
    (h : d.node? place = none) : Grown d (d.put place node known) := by
  refine ⟨rfl, fun {there node} hn => ?_⟩
  rw [node?_put_of_ne]
  · exact hn
  · rintro rfl
    rw [h] at hn
    exact absurd hn (by simp)

theorem deepened_put {d : Disk} {place : Location} (h : d.node? place = none) :
    Deepened d (d.put place .directory d.directory_known) := by
  refine ⟨grown_put _ h, rfl, rfl, fun {there node} hn => ?_⟩
  by_cases same : there = place
  · subst same
    rw [node?_put_self d.directory_known (place_ne_nil (by rw [h]; simp))] at hn
    exact .inr (Option.some.inj hn).symm
  · rw [node?_put_of_ne same] at hn
    exact .inl hn

/-! ## Making directories -/

/-- An operation that only makes directories, whether it succeeds or not. -/
def OnlyDeepens (op : DiskM Unit) : Prop :=
  ∀ d, Leads op d (fun _ d' => Deepened d d') (fun _ d' => Deepened d d')

theorem onlyDeepens_pure : OnlyDeepens (pure ()) := fun d => Leads.of_pure (Deepened.refl d)

theorem makeDirectory_deepens (p : Path) : OnlyDeepens (makeDirectory p) := by
  intro d
  have here := Deepened.refl d
  rw [makeDirectory]
  refine Leads.bind (Leads.of_get (Leads.bind (Leads.of_lift ?_ fun _ _ => here)))
  rintro ⟨directory, step⟩ -
  dsimp only
  split
  · exact Leads.bind (Leads.of_throw here)
  · refine Leads.bind (Leads.of_lift (fun place _ => ?_) fun _ _ => here)
    split
    · exact Leads.bind (Leads.of_throw here)
    · rename_i hfree
      exact Leads.of_set (deepened_put (by simpa using hfree))

theorem ensureDirectory_deepens (p : Path) : OnlyDeepens (ensureDirectory p) := by
  intro d
  rw [ensureDirectory]
  refine Leads.of_tryCatch ((makeDirectory_deepens p d).mono (fun _ _ h => h) fun e d' h => ?_)
  refine Leads.bind (Leads.of_get ?_)
  split
  · exact Leads.of_pure h
  · exact Leads.of_throw h

theorem ensureBelow_deepens (p : Path) {above : DiskM Unit} (h : OnlyDeepens above) :
    OnlyDeepens (ensureBelow p above) := by
  intro d
  rw [ensureBelow]
  refine Leads.of_tryCatch ((ensureDirectory_deepens p d).mono (fun _ _ h => h) fun e d' h' => ?_)
  split
  · refine Leads.seq (h d') (fun _ e k => ?_) fun _ _ k => h'.trans k
    refine (ensureDirectory_deepens p e).mono ?_ ?_
    · exact fun _ _ l => h'.trans (k.trans l)
    · exact fun _ _ l => h'.trans (k.trans l)
  · exact Leads.of_throw h'

theorem ensurePieces_deepens (pieces : List Name) : OnlyDeepens (ensurePieces pieces) := by
  induction pieces with
  | nil => exact onlyDeepens_pure
  | cons piece before ih =>
    rw [ensurePieces]
    split
    · exact ensureBelow_deepens _ ih
    · exact ih

theorem makeParents_deepens (p : Path) : OnlyDeepens (makeParents p) := by
  rw [makeParents]
  split
  · exact ensurePieces_deepens _
  · exact onlyDeepens_pure

/-! ## Finding files -/

theorem approach_ok_iff {d : Disk} {p : Path} {r : Location × Name} :
    d.approach p = .ok r ↔
      ('\x00' ∉ p.text.toList ∧ p.isEmpty = false ∧ ¬ pathLimit < p.text.utf8ByteSize) ∧
      ∃ l, d.follow (d.origin p) p.steps.dropLast = .ok l ∧
        r = (l, p.steps.getLast?.getD Path.here) := by
  rw [approach]
  -- one case for each refusal, in the order of the checks
  by_cases hzero : '\x00' ∈ p.text.toList
  · simp [hzero, bind, Except.bind, throw, throwThe, MonadExceptOf.throw]
  · by_cases hempty : p.isEmpty = true
    · simp [hzero, hempty, bind, Except.bind, throw, throwThe, MonadExceptOf.throw]
    · by_cases hlong : pathLimit < p.text.utf8ByteSize
      · simp [hzero, hempty, hlong, bind, Except.bind, throw, throwThe, MonadExceptOf.throw]
      · rcases hf : d.follow (d.origin p) p.steps.dropLast with e | l
        · simp [hzero, hempty, hlong, bind, Except.bind]
        · simp [hzero, hempty, hlong, bind, Except.bind, pure, Except.pure, eq_comm]

namespace Grown

variable {d d' : Disk} {p : Path}

theorem follow (h : Grown d d') {here l : Location} {steps : List Name}
    (hf : d.follow here steps = .ok l) : d'.follow here steps = .ok l := by
  induction steps generalizing here with
  | nil => exact hf
  | cons step rest ih =>
    rw [Disk.follow] at hf ⊢
    rcases henter : enter here step with e | next
    · simp [henter, bind, Except.bind] at hf
    · simp only [henter, bind, Except.bind] at hf ⊢
      rcases hnode : d.node? next with _ | node
      · simp [hnode] at hf
      · rw [hnode] at hf
        rw [h.node? hnode]
        cases node with
        | directory => exact ih hf
        | file _ => exact hf
        | fullDevice => exact hf

theorem approach (h : Grown d d') {r : Location × Name} (ha : d.approach p = .ok r) :
    d'.approach p = .ok r := by
  obtain ⟨sensible, l, hf, rfl⟩ := approach_ok_iff.mp ha
  refine approach_ok_iff.mpr ⟨sensible, l, ?_, rfl⟩
  rw [origin, h.home]
  exact h.follow hf

end Grown

/-- Finding, step by step. -/
theorem find_ok_iff {d : Disk} {p : Path} {node : Node} :
    d.find p = .ok node ↔ ∃ directory step place, d.approach p = .ok (directory, step) ∧
      enter directory step = .ok place ∧ d.node? place = some node ∧
      (node = .directory ∨ p.endsInSlash = false) := by
  constructor
  -- the place is looked up when the steps before it succeeded
  · intro h
    rw [find, resolve] at h
    rcases ha : d.approach p with e | ⟨directory, step⟩
    · simp [ha, bind, Except.bind] at h
    · rcases hp : enter directory step with e | place
      · simp [ha, hp, bind, Except.bind] at h
      · refine ⟨directory, step, place, rfl, hp, ?_⟩
        rcases hn : d.node? place with _ | here
        · simp [ha, hp, hn, bind, Except.bind] at h
        · cases here <;> cases hslash : p.endsInSlash <;>
            simp_all [bind, Except.bind]
  · rintro ⟨directory, step, place, ha, hp, hn, hslash⟩
    rw [find, resolve]
    cases node <;> simp_all [bind, Except.bind]

theorem Grown.find {d d' : Disk} {p : Path} {node : Node} (h : Grown d d')
    (hf : d.find p = .ok node) : d'.find p = .ok node := by
  obtain ⟨directory, step, place, ha, hp, hn, hslash⟩ := find_ok_iff.mp hf
  exact find_ok_iff.mpr ⟨directory, step, place, h.approach ha, hp, h.node? hn, hslash⟩

/-! ## Content -/

theorem content_store {d : Disk} {bytes : ByteArray} (fits) {number : Nat}
    (h : number < d.contents.size) : (d.store bytes fits).content number = d.content number := by
  have h' : number < (d.contents.push bytes).size := by rw [Array.size_push]; omega
  simp [content, store, Array.getElem?_push_lt, h]

theorem content_amend_self {d : Disk} {number : Nat} {change : ByteArray → ByteArray} (fits)
    (h : number < d.contents.size) :
    (d.amend number change fits).content number = change (d.content number) := by
  simp [content, amend, Array.getElem_modify, h]

theorem size_contents_amend {d : Disk} {number : Nat} {change : ByteArray → ByteArray} {fits} :
    (d.amend number change fits).contents.size = d.contents.size := by
  simp [amend]

/-- The content of an open file. -/
def bytesOf (d : Disk) : Handle → ByteArray
  | .file number => d.content number
  | .fullDevice => ByteArray.empty

theorem sizeOf_eq (d : Disk) (h : Handle) : d.sizeOf h = (d.bytesOf h).size := by
  cases h <;> rfl

theorem size_bytesOf_lt (d : Disk) (h : Handle) : (d.bytesOf h).size < offsetLimit := by
  cases h with
  | fullDevice => exact (by decide : 0 < offsetLimit)
  | file number =>
    rw [bytesOf, content, Array.getD]
    split
    · exact d.small number _
    · exact (by decide : 0 < offsetLimit)

/-- The entry of an open file. -/
def nodeOf : Handle → Node
  | .file number => .file number
  | .fullDevice => .fullDevice

/-- An open file has content. -/
def Known (d : Disk) : Handle → Prop
  | .file number => number < d.contents.size
  | .fullDevice => True

instance (d : Disk) : (h : Handle) → Decidable (d.Known h)
  | .file number => inferInstanceAs (Decidable (number < d.contents.size))
  | .fullDevice => .isTrue trivial

theorem Grown.contentAt {d d' : Disk} {p : Path} {bytes : ByteArray} (h : Grown d d')
    (contents : d'.contents = d.contents) (hc : d.contentAt p = .ok bytes) :
    d'.contentAt p = .ok bytes := by
  have same (number : Nat) : d'.content number = d.content number := by
    rw [content, content, contents]
  rw [Disk.contentAt] at hc ⊢
  rcases hf : d.find p with e | node
  · simp [hf, bind, Except.bind] at hc
  · rw [hf] at hc
    rw [h.find hf]
    cases node with
    | directory => exact hc
    | file number =>
      simp only [bind, Except.bind, same] at hc ⊢
      exact hc
    | fullDevice => exact hc

theorem Deepened.contentAt {d d' : Disk} {p : Path} {bytes : ByteArray} (h : Deepened d d')
    (hc : d.contentAt p = .ok bytes) : d'.contentAt p = .ok bytes :=
  h.toGrown.contentAt h.contents hc

theorem Deepened.fileSize {d d' : Disk} {p : Path} {n : Nat} (h : Deepened d d')
    (hs : d.fileSize p = .ok n) : d'.fileSize p = .ok n := by
  rw [Disk.fileSize] at hs ⊢
  rcases hf : d.find p with e | node <;> rw [hf] at hs
  · cases hs
  · rw [h.toGrown.find hf]
    cases node with
    | directory => exact hs
    | file number =>
      show Except.ok (d'.content number).size = _
      rw [content, h.contents]
      exact hs
    | fullDevice => exact hs

/-- The content that a path leads to is that of the file it opens. -/
theorem contentAt_eq {d : Disk} {p : Path} {h : Handle} (hf : d.find p = .ok (nodeOf h)) :
    d.contentAt p = .ok (d.bytesOf h) := by
  rw [contentAt, hf]
  cases h <;> rfl

/-! ## Opening files -/

/-- What opening a file gives. -/
structure Opened (p : Path) (d d' : Disk) (h : Handle) : Prop extends Grown d d' where
  known : d'.Known h
  found : d'.find p = .ok (nodeOf h)
  content : ∀ bytes, d.contentAt p = .ok bytes → d'.bytesOf h = bytes
  others : ∀ number < d.contents.size, d'.content number = d.content number
  size : d.contents.size ≤ d'.contents.size

/-- A file that is opened is as long as its path said; a directory is not opened. -/
theorem Opened.size_eq {p : Path} {d d' : Disk} {h : Handle} {n : Nat} (opened : Opened p d d' h)
    (hs : d.fileSize p = .ok n) : (d'.bytesOf h).size = n := by
  rw [fileSize] at hs
  rcases hf : d.find p with e | node <;> rw [hf] at hs
  · cases hs
  · cases node with
    | directory =>
      have directory := (opened.toGrown.find hf).symm.trans opened.found
      cases h <;> cases directory
    | file number =>
      rw [opened.content (d.content number) (by rw [contentAt, hf]; rfl)]
      exact Except.ok.inj hs
    | fullDevice =>
      rw [opened.content .empty (by rw [contentAt, hf]; rfl)]
      exact Except.ok.inj hs

theorem known_of_node? {d : Disk} {place : Location} {number : Nat}
    (hn : d.node? place = some (.file number)) : d.Known (.file number) := by
  have inside : place ≠ [] := place_ne_nil (by rw [hn]; simp)
  rw [node?, if_neg inside, List.lookup_eq_some_iff] at hn
  obtain ⟨before, after, hentries, -⟩ := hn
  exact d.sound place number (by simp [hentries])

/-- A file that is there is opened as it is. -/
theorem Opened.of_found {p : Path} {d : Disk} {h : Handle} (found : d.find p = .ok (nodeOf h))
    (known : d.Known h) : Opened p d d h := by
  refine ⟨Grown.refl d, known, found, fun bytes hc => ?_, fun _ _ => rfl, Nat.le_refl _⟩
  rw [contentAt_eq found] at hc
  exact Except.ok.inj hc

section Vacant

variable {p : Path} {d : Disk} {directory place : Location} {step : Name}
  (ha : d.approach p = .ok (directory, step)) (hp : enter directory step = .ok place)
  (vacant : d.node? place = none)

include ha hp vacant

theorem contentAt_of_vacant (bytes : ByteArray) : d.contentAt p ≠ .ok bytes := by
  intro hc
  -- the path leads to one place only, and nothing stands there
  rcases hf : d.find p with e | node
  · simp [contentAt, hf, bind, Except.bind] at hc
  · obtain ⟨_, _, _, ha', hp', hn', -⟩ := find_ok_iff.mp hf
    obtain ⟨rfl, rfl⟩ := Prod.mk.inj (Except.ok.inj (ha.symm.trans ha'))
    obtain rfl := Except.ok.inj (hp.symm.trans hp')
    exact absurd (vacant.symm.trans hn') (by simp)

/-- A file that was not there is made, and has no content. -/
theorem Opened.of_vacant (hslash : p.endsInSlash = false)
    (fits : ByteArray.empty.size < offsetLimit) :
    Opened p d (d.putFile place .empty fits).2 (.file (d.putFile place .empty fits).1) := by
  have known : ∀ number, Node.file d.contents.size = .file number →
      number < (d.store .empty fits).contents.size := by
    intro number eq
    cases eq
    simp [store]
  -- the content is stored first, where no entry refers to it, and then gets its entry
  have grown : Grown d ((d.store .empty fits).put place (.file d.contents.size) known) :=
    Grown.trans (e := d.store .empty fits) ⟨rfl, id⟩ (grown_put known vacant)
  refine ⟨grown, ?_, ?_, fun bytes hc => absurd hc (contentAt_of_vacant ha hp vacant bytes),
    fun number hlt => content_store fits hlt, ?_⟩
  · simp [Known, putFile, put, store]
  · exact find_ok_iff.mpr ⟨directory, step, place, grown.approach ha, hp,
      node?_put_self known (place_ne_nil (by rw [vacant]; simp)), .inr hslash⟩
  · simp [putFile, put, store]

end Vacant

theorem openAppend_leads (p : Path) (d : Disk) :
    Leads (openAppend p) d (fun h d' => Opened p d d' h) (fun _ d' => d' = d) := by
  rw [openAppend]
  refine Leads.bind (Leads.of_get (Leads.bind (Leads.of_lift ?_ fun _ _ => rfl)))
  rintro ⟨directory, step⟩ ha
  dsimp only
  by_cases hslash : p.endsInSlash = true
  · rw [if_pos hslash]
    exact Leads.bind (Leads.of_throw rfl)
  · rw [if_neg hslash]
    refine Leads.bind (Leads.of_lift (fun place hp => ?_) fun _ _ => rfl)
    have hslash : p.endsInSlash = false := by simpa using hslash
    -- the place is vacant, or what stands there decides
    rcases hn : d.node? place with _ | node
    · exact Leads.bind (Leads.of_set (Leads.of_pure (.of_vacant ha hp hn hslash (by decide))))
    · have found : d.find p = .ok node :=
        find_ok_iff.mpr ⟨directory, step, place, ha, hp, hn, .inr hslash⟩
      cases node with
      | directory => exact Leads.of_throw rfl
      | file number => exact Leads.of_pure (.of_found found (known_of_node? hn))
      | fullDevice => exact Leads.of_pure (.of_found (h := .fullDevice) found trivial)

/-! ## Appending and reading -/

/-- What happens when bytes are written to an open file: its content gets longer. -/
structure Written (h : Handle) (bytes : ByteArray) (d d' : Disk) : Prop extends Grown d d' where
  known : d'.Known h
  content : d'.bytesOf h = d.bytesOf h ++ bytes

theorem Written.nothing {h : Handle} {d : Disk} (known : d.Known h) : Written h .empty d d :=
  ⟨Grown.refl d, known, by rw [ByteArray.append_empty]⟩

theorem contents_extend (d : Disk) (number : Nat) (bytes : ByteArray) :
    (d.extend number bytes).contents = d.contents.modify number (· ++ d.fitting number bytes) := by
  rw [extend, amend]

theorem written_extend {d : Disk} {number : Nat} (known : number < d.contents.size)
    (bytes : ByteArray) :
    Written (.file number) (d.fitting number bytes) d (d.extend number bytes) := by
  refine ⟨⟨by rw [extend, amend], id⟩, ?_, ?_⟩
  · rw [Known, contents_extend, Array.size_modify]
    exact known
  · rw [bytesOf, bytesOf, content, contents_extend]
    simp [content, Array.getElem_modify, known]

/-- A write succeeds with all bytes, or fails with some of them. -/
theorem append_leads {h : Handle} {d : Disk} (bytes : ByteArray) (known : d.Known h) :
    Leads (append h bytes) d (fun _ d' => Written h bytes d d')
      (fun _ d' => ∃ some, Written h some d d') := by
  cases h with
  | fullDevice =>
    rw [append]
    split
    · rename_i hempty
      rw [bytes_isEmpty_iff.mp hempty]
      exact Leads.of_pure (.nothing known)
    · exact Leads.of_throw ⟨.empty, .nothing known⟩
  | file number =>
    have written := written_extend known bytes
    rw [append]
    refine Leads.bind (Leads.of_get (Leads.bind (Leads.of_set ?_)))
    split
    · exact Leads.of_throw ⟨_, written⟩
    · rename_i hall
      -- nothing was cut off, so all bytes are written
      have whole : d.fitting number bytes = bytes := by
        rw [fitting, ByteArray.size_extract] at hall
        rw [fitting, ← Nat.max_eq_left (show bytes.size ≤ d.room (d.content number).size by omega),
          ByteArray.extract_zero_max_size]
      rw [whole] at written
      exact Leads.of_pure written

/-- The number of bytes that can still be written to an open file. -/
def roomAt (d : Disk) : Handle → Nat
  | .file number => d.room (d.content number).size
  | .fullDevice => 0

theorem room_extend (d : Disk) (number : Nat) (bytes : ByteArray) :
    d.roomAt (.file number) ≤
      (d.fitting number bytes).size + (d.extend number bytes).roomAt (.file number) := by
  have size : ((d.extend number bytes).content number).size ≤
      (d.content number).size + (d.fitting number bytes).size := by
    by_cases known : number < d.contents.size
    · rw [← ByteArray.size_append]
      exact Nat.le_of_eq (congrArg ByteArray.size (written_extend known bytes).content)
    · -- there is no such content, before and after
      simp [content, contents_extend, known]
  have free : (d.extend number bytes).free = d.free.map (· - (d.fitting number bytes).size) := rfl
  rw [roomAt, roomAt, room, room, free]
  cases d.free with
  | none =>
    dsimp only [Option.map_none]
    omega
  | some space =>
    dsimp only [Option.map_some]
    omega

/-- A write takes the room of its bytes, and fails only if there is less. -/
theorem append_room (h : Handle) (bytes : ByteArray) (d : Disk) :
    Leads (append h bytes) d (fun _ d' => d.roomAt h ≤ bytes.size + d'.roomAt h)
      (fun _ _ => d.roomAt h < bytes.size) := by
  cases h with
  | fullDevice =>
    rw [append]
    split
    · exact Leads.of_pure (Nat.zero_le _)
    · rename_i some
      refine Leads.of_throw (Nat.pos_of_ne_zero fun zero => some ?_)
      exact bytes_isEmpty_iff.mpr (ByteArray.size_eq_zero_iff.mp zero)
  | file number =>
    have taken := d.room_extend number bytes
    have fits : (d.fitting number bytes).size = min (d.roomAt (.file number)) bytes.size := by
      rw [fitting, ByteArray.size_extract, Nat.sub_zero, roomAt]
    rw [append]
    refine Leads.bind (Leads.of_get (Leads.bind (Leads.of_set ?_)))
    split
    · exact Leads.of_throw (by omega)
    · exact Leads.of_pure (by omega)

/-- Removing an entry keeps the content. -/
theorem remove_contents (p : Path) (d : Disk) :
    ((remove p).run.run d).2.contents = d.contents := by
  have kept : Leads (remove p) d (fun _ d' => d'.contents = d.contents)
      (fun _ d' => d'.contents = d.contents) := by
    rw [remove]
    refine Leads.bind (Leads.of_get (Leads.bind (Leads.of_lift (fun node _ => ?_) fun _ _ => rfl)))
    split
    · exact Leads.of_throw rfl
    · exact Leads.bind (Leads.of_lift (fun _ _ => Leads.of_set rfl) fun _ _ => rfl)
  rcases kept.outcome with ⟨_, d', hrun, kept⟩ | ⟨_, d', hrun, kept⟩ <;>
    exact (congrArg (·.2.contents) hrun).trans kept

/-- Reading what is there. -/
theorem readAt_eq {d : Disk} {h : Handle} {bytes : ByteArray} {offset : Nat}
    (hpos : 0 < bytes.size) (limit : offset + bytes.size < offsetLimit)
    (stands : StandsAt bytes (d.bytesOf h) offset) :
    d.readAt h offset bytes.size = .ok bytes := by
  have inside : ¬ offsetLimit ≤ offset + bytes.size := by omega
  cases h with
  | file number =>
    simp only [readAt, inside, if_false]
    exact congrArg Except.ok stands.extract_eq
  | fullDevice =>
    have := stands.le_size
    simp only [bytesOf, ByteArray.size_empty] at this
    omega

end Disk
end ExternalSort
