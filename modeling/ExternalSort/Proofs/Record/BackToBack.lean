/-
  ExternalSort.Proofs.Record.BackToBack

  Values of any kinds, written back to back and read with one cursor.

  Whoever knows the kinds reads the values that were written, and stands behind
  the last of them whatever comes next. Where the buffer is cut, the values in
  front of the cut are read and the first one that reaches behind it is short of
  bytes. Such a value is never the empty one: that one ends where it begins.
-/

import ExternalSort.Error
import ExternalSort.Proofs.Record.Canonical

namespace ExternalSort

open Storable (encode decode)

/-- A value of any kind. -/
structure Value where
  kind : Kind
  content : kind.Carrier

/-- The value fits its length word, if it has one. -/
def Kind.Fits : (k : Kind) → k.Carrier → Prop
  | .bytes, x => x.size < UInt32.size
  | .text, x => x.toUTF8.size < UInt32.size
  | _, _ => True

namespace Value

/-- The byte form of a value. -/
def form (v : Value) : ByteArray := encode v.content

/-- The value fits its length word, if it has one. -/
def Fits (v : Value) : Prop := v.kind.Fits v.content

end Value

/-- Writes values behind what the buffer holds, one after the other. -/
def writeEach (buffer : ByteArray) (vs : List Value) : ByteArray :=
  vs.foldl (fun buffer v => buffer ++ v.form) buffer

/-- What is told of a fault in a buffer that has no name. -/
def ReadFault.damage (fault : ReadFault) : SortError := .corruptData ⟨"<chunk>"⟩ (.record fault)

/-- Reads values of the given kinds, one after the other: those in front of the first fault,
the fault, and where the cursor stands then. -/
def readEach : List Kind → Cursor → List Value × Option SortError × Cursor
  | [], c => ([], none, c)
  | k :: kinds, c =>
    match Reader.runOn (decode : Reader k.Carrier) c with
    | (.ok x, c) =>
      let (vs, fault, c) := readEach kinds c
      (⟨k, x⟩ :: vs, fault, c)
    | (.error fault, c) => ([], some fault.damage, c)

/-! ## Whole values -/

namespace Reader

/-- A value that fits is read where it stands. -/
theorem runOn_decode {v : Value} {input : ByteArray} {pos : Nat} (origin : Nat) (fits : v.Fits)
    (h : StandsAt v.form input pos) :
    runOn (decode : Reader v.kind.Carrier) ⟨input, pos, origin⟩
      = (.ok v.content, ⟨input, pos + v.form.size, origin⟩) := by
  obtain ⟨kind, x⟩ := v
  have word (width : Nat) (n : Nat) (narrow : width < UInt32.size) :
      (Word.bytes width n).size < UInt32.size := by
    rwa [Word.size_bytes]
  cases kind with
  | int32 => exact LawfulStorable.decode_encode origin (word 4 _ (by decide)) h
  | int64 => exact LawfulStorable.decode_encode origin (word 8 _ (by decide)) h
  | word32 => exact LawfulStorable.decode_encode origin (word 4 _ (by decide)) h
  | word64 => exact LawfulStorable.decode_encode origin (word 8 _ (by decide)) h
  | bytes => exact runOn_counted origin fits h
  | text => exact runOn_text origin fits h
  | null => rfl

end Reader

theorem readEach_cons {v : Value} {c c' : Cursor} (kinds : List Kind)
    (h : Reader.runOn decode c = (.ok v.content, c')) :
    readEach (v.kind :: kinds) c
      = (v :: (readEach kinds c').1, (readEach kinds c').2) := by
  rw [readEach, h]

theorem readEach_cons_error {k : Kind} {c c' : Cursor} {fault : ReadFault} (kinds : List Kind)
    (h : Reader.runOn (decode : Reader k.Carrier) c = (.error fault, c')) :
    readEach (k :: kinds) c = ([], some fault.damage, c') := by
  rw [readEach, h]

/-- What the buffer holds stays in front. -/
theorem writeEach_extends (buffer : ByteArray) (vs : List Value) :
    ∃ more, writeEach buffer vs = buffer ++ more := by
  induction vs generalizing buffer with
  | nil => exact ⟨.empty, by simp [writeEach]⟩
  | cons v vs ih =>
    obtain ⟨more, hmore⟩ := ih (buffer ++ v.form)
    exact ⟨v.form ++ more, by rw [← ByteArray.append_assoc, ← hmore]; rfl⟩

/-- The first of the values stands where the buffer ended. -/
theorem stands_writeEach (buffer : ByteArray) (v : Value) (vs : List Value) :
    StandsAt v.form (writeEach buffer (v :: vs)) buffer.size := by
  obtain ⟨more, hmore⟩ := writeEach_extends (buffer ++ v.form) vs
  rw [show writeEach buffer (v :: vs) = buffer ++ v.form ++ more from hmore]
  exact (StandsAt.behind buffer v.form).append more

theorem readEach_writeEach {vs : List Value} (fits : ∀ v ∈ vs, v.Fits) (before after : ByteArray) :
    readEach (vs.map Value.kind) ⟨writeEach before vs ++ after, before.size, 0⟩
      = (vs, none, ⟨writeEach before vs ++ after, (writeEach before vs).size, 0⟩) := by
  induction vs generalizing before with
  | nil => rfl
  | cons v vs ih =>
    have first := Reader.runOn_decode 0 (fits v (by simp)) ((stands_writeEach before v vs).append after)
    have later := ih (fun u hu => fits u (by simp [hu])) (before ++ v.form)
    rw [ByteArray.size_append] at later
    rw [List.map_cons, readEach_cons _ first]
    exact congrArg (fun r : List Value × Option SortError × Cursor => (v :: r.1, r.2)) later

/-! ## Values that are cut -/

/-- What stands in front of a cut stands there still. -/
theorem StandsAt.cut {bytes full : ByteArray} {pos n : Nat} (h : StandsAt bytes full pos)
    (whole : pos + bytes.size ≤ n) : StandsAt bytes (full.extract 0 n) pos := by
  have inside := h.le_size
  have same : (full.extract 0 n).extract pos (pos + bytes.size) = bytes := by
    rw [ByteArray.extract_extract, Nat.zero_add, Nat.zero_add, Nat.min_eq_left whole, h.extract_eq]
  rw [← same]
  refine .of_extract (Nat.le_add_right _ _) ?_
  rw [ByteArray.size_extract]
  omega

/-- Where a buffer is cut inside a form that stands at `pos`, the reader asks for bytes that reach
behind the cut and belong to the form. -/
def Reader.EndsShort {α : Type} (r : Reader α) (form : ByteArray) : Prop :=
  ∀ ⦃full : ByteArray⦄ ⦃pos n : Nat⦄ (origin : Nat), StandsAt form full pos → pos ≤ n →
    n < pos + form.size →
    Leads r ⟨full.extract 0 n, pos, origin⟩ (fun _ _ => False)
      fun fault _ => ∃ needed place, fault = .short needed (place - origin) (n - place) ∧
        place ≤ n ∧ n < place + needed ∧ place + needed ≤ pos + form.size

namespace Reader.EndsShort

variable {α β : Type} {r : Reader α} {form : ByteArray}

theorem take {n : Nat} (size : form.size = n) : (Reader.take n).EndsShort form := by
  intro full pos n origin stands inside short
  have reach := stands.le_size
  have left : (full.extract 0 n).size - pos = n - pos := by
    rw [ByteArray.size_extract]
    omega
  rw [Reader.take]
  refine Leads.bind (Leads.of_get ?_)
  split
  · refine Leads.bind (Leads.of_throw ⟨form.size, pos, ?_, inside, short, Nat.le_refl _⟩)
    rw [size]
    exact congrArg (ReadFault.short _ (pos - origin)) left
  · rename_i enough
    have : ¬ (full.extract 0 n).size - pos < form.size := by rwa [size]
    omega

theorem bind (h : r.EndsShort form) (f : α → Reader β) : Reader.EndsShort (r >>= f) form := by
  intro full pos n origin stands inside short
  exact Leads.seq (h origin stands inside short) (fun _ _ none => none.elim) fun _ _ told => told

theorem word (width n : Nat) : (Reader.word width).EndsShort (Word.bytes width n) :=
  (take (Word.size_bytes width n)).bind _

/-- Either the length is short, or it is read and the bytes are. -/
theorem counted {bytes : ByteArray} (fits : bytes.size < UInt32.size) :
    Reader.counted.EndsShort (Storable.encodeCounted bytes) := by
  intro full pos n origin stands inside short
  rw [Storable.size_encodeCounted] at short ⊢
  rw [Reader.counted]
  by_cases head : n < pos + 4
  · refine Leads.seq (word 4 bytes.size origin stands.left inside ?_) (fun _ _ none => none.elim) ?_
    · rwa [Word.size_bytes]
    · rintro fault _ ⟨needed, place, rfl, before, behind, reach⟩
      rw [Word.size_bytes] at reach
      exact ⟨needed, place, rfl, before, behind, by omega⟩
  · have length : runOn (Reader.word 4) ⟨full.extract 0 n, pos, origin⟩
        = (.ok bytes.size, ⟨full.extract 0 n, pos + 4, origin⟩) := by
      refine runOn_word 4 origin fits (stands.left.cut ?_)
      rw [Word.size_bytes]
      omega
    have body := stands.right
    rw [Word.size_bytes] at body
    refine Leads.bind (Leads.of_runOn_ok length ?_)
    refine (take rfl origin body (by omega) (by omega)).mono (fun _ _ none => none) ?_
    rintro fault _ ⟨needed, place, rfl, before, behind, reach⟩
    exact ⟨needed, place, rfl, before, behind, by omega⟩

theorem text {x : String} (fits : x.toUTF8.size < UInt32.size) :
    Reader.text.EndsShort (Storable.encodeCounted x.toUTF8) :=
  (counted fits).bind _

/-- A value that is cut is short of bytes. -/
theorem decode {v : Value} (fits : v.Fits) :
    (Storable.decode : Reader v.kind.Carrier).EndsShort v.form := by
  obtain ⟨kind, x⟩ := v
  cases kind with
  | int32 => exact (word 4 _).bind _
  | int64 => exact (word 8 _).bind _
  | word32 => exact (word 4 _).bind _
  | word64 => exact (word 8 _).bind _
  | bytes => exact counted fits
  | text => exact text fits
  | null =>
    intro full pos n origin _ inside short
    exact absurd short (Nat.not_lt.mpr inside)

end Reader.EndsShort

/-- Where the buffer that the values were written to is cut behind `n` bytes, the values that end
in front of the cut are read. If there is another one, it takes space, and it is told that bytes
of it are missing. -/
def ReadsUpTo (before : ByteArray) (vs : List Value) (n : Nat) : Prop :=
  ∃ whole rest fault c, vs = whole ++ rest ∧ (writeEach before whole).size ≤ n ∧
    readEach (vs.map Value.kind) ⟨(writeEach before vs).extract 0 n, before.size, 0⟩
      = (whole, fault, c) ∧
    (rest = [] ∧ fault = none ∧ c.position = (writeEach before vs).size ∨
      ∃ v later needed place, rest = v :: later ∧ v.kind ≠ .null ∧
        fault = some (ReadFault.short needed place (n - place)).damage ∧
        place ≤ n ∧ n < place + needed ∧
        place + needed ≤ (writeEach before (whole ++ [v])).size)

theorem readsUpTo {vs : List Value} (fits : ∀ v ∈ vs, v.Fits) (before : ByteArray) {n : Nat}
    (inside : before.size ≤ n) : ReadsUpTo before vs n := by
  induction vs generalizing before with
  | nil => exact ⟨[], [], none, _, rfl, inside, rfl, .inl ⟨rfl, rfl, rfl⟩⟩
  | cons v vs ih =>
    have stands := stands_writeEach before v vs
    have size : (before ++ v.form).size = before.size + v.form.size := ByteArray.size_append
    by_cases first : before.size + v.form.size ≤ n
    · have read := Reader.runOn_decode 0 (fits v (by simp)) (stands.cut first)
      obtain ⟨whole, rest, fault, c, rfl, upTo, later, stop⟩ :=
        ih (fun u hu => fits u (by simp [hu])) (before ++ v.form) (size ▸ first)
      rw [size] at later
      refine ⟨v :: whole, rest, fault, c, rfl, upTo, ?_, stop⟩
      rw [List.map_cons, readEach_cons _ read]
      exact congrArg (fun r : List Value × Option SortError × Cursor => (v :: r.1, r.2)) later
    · have short := Reader.EndsShort.decode (fits v (by simp)) 0 stands inside (by omega)
      obtain ⟨_, _, _, none⟩ | ⟨_, c, hread, needed, place, rfl, front, behind, reach⟩ := short.outcome
      · exact none.elim
      · refine ⟨[], v :: vs, _, c, rfl, inside, readEach_cons_error _ hread, .inr ?_⟩
        refine ⟨v, vs, needed, place, rfl, ?_, rfl, front, behind, size ▸ reach⟩
        intro null
        obtain ⟨kind, x⟩ := v
        subst null
        exact first inside

/-! ## What was read -/

/-- Writing again what was read gives the bytes that were read. -/
theorem encode_of_runOn_decode {k : Kind} {x : k.Carrier} {c c' : Cursor}
    (inside : c.position ≤ c.bytes.size) (h : Reader.runOn decode c = (.ok x, c')) :
    c'.bytes = c.bytes ∧ c.position ≤ c'.position ∧ c'.position ≤ c.bytes.size ∧
      encode x = c.bytes.extract c.position c'.position := by
  obtain ⟨input, pos, origin⟩ := c
  obtain ⟨stands, rfl⟩ := (CanonicalStorable.reads origin inside).of_ok h
  exact ⟨rfl, Nat.le_add_right _ _, stands.le_size, stands.extract_eq.symm⟩

/-! ## The law -/

/-- Values that were written back to back are read back, whatever follows. In front of a cut the
values that end there are read, and the next one is damaged. And what is read was written in the
bytes that it was read from. -/
theorem read_back_to_back :
    (∀ vs : List Value, (∀ v ∈ vs, v.Fits) → ∀ before : ByteArray,
      (∀ after, readEach (vs.map Value.kind) ⟨writeEach before vs ++ after, before.size, 0⟩
        = (vs, none, ⟨writeEach before vs ++ after, (writeEach before vs).size, 0⟩)) ∧
      ∀ n, before.size ≤ n → ReadsUpTo before vs n) ∧
    ∀ (k : Kind) (x : k.Carrier) (c c' : Cursor), c.position ≤ c.bytes.size →
      Reader.runOn decode c = (.ok x, c') →
      c'.bytes = c.bytes ∧ c.position ≤ c'.position ∧ c'.position ≤ c.bytes.size ∧
        encode x = c.bytes.extract c.position c'.position :=
  ⟨fun _ fits before => ⟨readEach_writeEach fits before, fun _ => readsUpTo fits before⟩,
    fun _ _ _ _ => encode_of_runOn_decode⟩

/-- A number, a byte string, a text, the empty value and a number. -/
def mixedValues : List Value :=
  [⟨.int32, -42⟩, ⟨.bytes, [1, 2, 3].toByteArray⟩, ⟨.text, "wörld"⟩, ⟨.null, ()⟩,
    ⟨.word64, 18446744073709551615⟩]

/-- The law for values of five kinds, with a byte behind them, with a cut inside the text, and for
the byte string where it stands. -/
theorem read_mixed_back_to_back :
    (∀ v ∈ mixedValues, v.Fits) ∧
    readEach (mixedValues.map Value.kind)
        ⟨writeEach .empty mixedValues ++ [255].toByteArray, ByteArray.empty.size, 0⟩
      = (mixedValues, none, ⟨writeEach .empty mixedValues ++ [255].toByteArray,
          (writeEach .empty mixedValues).size, 0⟩) ∧
    ReadsUpTo .empty mixedValues 17 ∧
    encode [1, 2, 3].toByteArray = (writeEach .empty mixedValues).extract 4 11 := by
  have fits : ∀ v ∈ mixedValues, v.Fits := by
    intro v hv
    simp only [mixedValues, List.mem_cons, List.not_mem_nil, or_false] at hv
    obtain rfl | rfl | rfl | rfl | rfl := hv
    · trivial
    · show [1, 2, 3].toByteArray.size < UInt32.size
      decide
    · show "wörld".toUTF8.size < UInt32.size
      decide
    · trivial
    · trivial
  have law := read_back_to_back.1 mixedValues fits .empty
  have inside : 4 ≤ (writeEach .empty mixedValues).size := by decide
  have read : Reader.runOn (decode : Reader Kind.bytes.Carrier) ⟨writeEach .empty mixedValues, 4, 0⟩
      = (.ok [1, 2, 3].toByteArray, ⟨writeEach .empty mixedValues, 11, 0⟩) := by rfl
  have again := read_back_to_back.2 .bytes [1, 2, 3].toByteArray _ _ inside read
  exact ⟨fits, law.1 _, law.2 17 (by decide), again.2.2.2⟩

end ExternalSort
