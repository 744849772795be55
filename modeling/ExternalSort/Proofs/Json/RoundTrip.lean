/-
  ExternalSort.Proofs.Json.RoundTrip

  A document that is written compactly is read back.

  This holds for the documents that have a written form of their own: numbers
  are natural, strings are text, and fields have names. Each part of the reader
  takes from the input what the printer wrote for it, and leaves what follows;
  after a number this must not look like more of it.
-/

import ExternalSort.Json.Printer
import ExternalSort.Json.Reader

namespace ExternalSort
namespace Json

/-! ## Strings -/

/-- The pieces that a character is read from. -/
inductive Piece.Spells : Piece → Char → Prop
  | char (c : Char) : Spells (.char c) c
  | unit {c : Char} (control : c.toNat < 32) : Spells (.unit c.toNat) c

theorem assemble?_cons {piece : Piece} {c : Char} (spells : piece.Spells c) (rest : List Piece) :
    assemble? (piece :: rest) = (assemble? rest).map (c :: ·) := by
  cases spells with
  | char => rw [assemble?]
  | unit control =>
    -- a control character is no half of a surrogate pair
    have whole : Char.ofNat c.toNat = c := Char.ofNat_toNat c
    have alone : ¬ (0xD800 ≤ c.toNat ∧ c.toNat < 0xE000) := by omega
    have high : ¬ (0xD800 ≤ c.toNat ∧ c.toNat < 0xDC00) := by omega
    have low : ¬ (0xDC00 ≤ c.toNat ∧ c.toNat < 0xE000) := by omega
    rw [assemble?.eq_def]
    split
    · cases ‹_ = _›
    · cases ‹_ = _›
    · cases ‹_ = _›
      rw [if_neg high, if_neg low, whole]
    · cases ‹_ = _›
      rw [if_neg alone, whole]

theorem hexValue?_hexDigit : ∀ n < 16, hexValue? (hexDigit n) = some n := by decide

theorem pieces?_of_escaped {e c : Char} (hue : e ≠ 'u') (he : escaped? e = some c)
    (rest : List Char) :
    pieces? ('\\' :: e :: rest) = (pieces? rest).map fun p => (.char c :: p.1, p.2) := by
  rw [pieces?.eq_def]
  split
  · cases ‹_ = _›
  · cases ‹_ = _›
  · cases ‹_ = _›
    exact absurd rfl hue
  · cases ‹_ = _›
    rw [he]
    cases pieces? rest <;> rfl
  · rename_i other same
    obtain ⟨rfl, rfl⟩ := List.cons.inj same
    exact absurd rfl (other _ _ rfl)

theorem pieces?_of_plain {c : Char} (quote : c ≠ '"') (slash : c ≠ '\\') (printable : ¬ c.toNat < 32)
    (rest : List Char) :
    pieces? (c :: rest) = (pieces? rest).map fun p => (.char c :: p.1, p.2) := by
  rw [pieces?.eq_def]
  split
  · cases ‹_ = _›
  · exact absurd (List.cons.inj ‹_ = _›).1 quote
  · exact absurd (List.cons.inj ‹_ = _›).1 slash
  · exact absurd (List.cons.inj ‹_ = _›).1 slash
  · cases ‹_ = _›
    rw [if_neg (by simp [slash, Nat.not_lt.mp printable])]
    cases pieces? rest <;> rfl

/-- A character is read as one piece. -/
theorem pieces?_escapeChar (c : Char) (rest : List Char) :
    ∃ piece, piece.Spells c ∧
      pieces? (escapeChar c ++ rest) = (pieces? rest).map fun p => (piece :: p.1, p.2) := by
  by_cases special : c ∈ ['"', '\\', '\n', '\r', '\t', '\x08', '\x0c'] <;>
    simp only [List.mem_cons, List.not_mem_nil, or_false, not_or] at special
  · -- a letter behind a backslash stands for each of these
    rcases special with rfl | rfl | rfl | rfl | rfl | rfl | rfl <;>
      exact ⟨.char _, .char _, pieces?_of_escaped (by decide) rfl rest⟩
  · obtain ⟨quote, slash, newline, return_, tab, backspace, feed⟩ := special
    rw [escapeChar, if_neg quote, if_neg slash, if_neg newline, if_neg return_, if_neg tab,
      if_neg backspace, if_neg feed]
    by_cases control : c.toNat < 32
    · rw [if_pos control]
      refine ⟨.unit c.toNat, .unit control, ?_⟩
      have value : hexUnit? '0' '0' (hexDigit (c.toNat / 16)) (hexDigit (c.toNat % 16))
          = some c.toNat := by
        rw [hexUnit?, hexValue?_hexDigit _ (by omega), hexValue?_hexDigit _ (by omega)]
        show some (((0 * 16 + 0) * 16 + c.toNat / 16) * 16 + c.toNat % 16) = some c.toNat
        congr 1
        omega
      show pieces? ('\\' :: 'u' :: '0' :: '0' :: _ :: _ :: rest) = _
      rw [pieces?, value]
      cases pieces? rest <;> rfl
    · rw [if_neg control]
      exact ⟨.char c, .char c, pieces?_of_plain quote slash control rest⟩

/-- A string is read up to the quote behind it. -/
theorem stringTail?_quoted (cs rest : List Char) :
    stringTail? (cs.flatMap escapeChar ++ '"' :: rest) = some (some cs, rest) := by
  have whole : ∃ pieces, pieces? (cs.flatMap escapeChar ++ '"' :: rest) = some (pieces, rest) ∧
      assemble? pieces = some cs := by
    induction cs with
    | nil => exact ⟨[], rfl, rfl⟩
    | cons c cs ih =>
      obtain ⟨pieces, hpieces, assembled⟩ := ih
      obtain ⟨piece, spells, hpiece⟩ := pieces?_escapeChar c (cs.flatMap escapeChar ++ '"' :: rest)
      refine ⟨piece :: pieces, ?_, ?_⟩
      · rw [List.flatMap_cons, List.append_assoc, hpiece, hpieces]
        rfl
      · rw [assemble?_cons spells, assembled]
        rfl
  obtain ⟨pieces, hpieces, assembled⟩ := whole
  rw [stringTail?, hpieces]
  exact congrArg (fun text => some (text, rest)) assembled

/-! ## Numbers -/

/-- What may follow a value: a comma, or the end of the array or the object around it. -/
def Follows (rest : List Char) : Prop := ∀ c ∈ rest.head?, c = ',' ∨ c = ']' ∨ c = '\x7d'

theorem Follows.head {c : Char} {rest : List Char} (h : Follows (c :: rest)) :
    c = ',' ∨ c = ']' ∨ c = '\x7d' := h c rfl

theorem follows_cons {c : Char} {rest : List Char} (h : c = ',' ∨ c = ']' ∨ c = '\x7d') :
    Follows (c :: rest) := by
  rintro _ ⟨rfl⟩
  exact h

theorem digitsOf_of_follows {rest : List Char} (follows : Follows rest) :
    digitsOf rest = ([], rest) := by
  cases rest with
  | nil => rfl
  | cons c rest =>
    have stop : c.isDigit = false := by rcases follows.head with rfl | rfl | rfl <;> rfl
    simp [digitsOf, stop]

theorem digitsOf_toDigits (n : Nat) {rest : List Char} (follows : Follows rest) :
    digitsOf (Nat.toDigits 10 n ++ rest) = (Nat.toDigits 10 n, rest) := by
  have all : ∀ c ∈ Nat.toDigits 10 n, c.isDigit = true := fun c hc =>
    Nat.isDigit_of_mem_toDigits (by decide) (by decide) hc
  obtain ⟨none, stays⟩ := Prod.mk.inj (digitsOf_of_follows follows)
  rw [digitsOf, List.takeWhile_append_of_pos all, List.dropWhile_append_of_pos all, none, stays,
    List.append_nil]

theorem digitsValue_toDigits (n : Nat) : digitsValue (Nat.toDigits 10 n) = n := by
  have same : digitsValue (Nat.toDigits 10 n) = Nat.ofDigitChars 10 (Nat.toDigits 10 n) 0 := by
    rw [digitsValue, Nat.ofDigitChars]
    congr 1
    funext sofar c
    rw [Nat.mul_comm]
    rfl
  rw [same, Nat.ofDigitChars_toDigits (by decide) (by decide)]

/-- Only zero begins with the digit zero. -/
theorem head?_toDigits_ne {n : Nat} (pos : 0 < n) : (Nat.toDigits 10 n).head? ≠ some '0' := by
  induction n using Nat.strongRecOn with
  | ind n ih =>
    by_cases small : n < 10
    · rw [Nat.toDigits_of_lt_base small]
      have digit : ∀ d < 10, 0 < d → d.digitChar ≠ '0' := by decide
      rw [List.head?_cons]
      exact fun zero => digit n small pos (Option.some.inj zero)
    · have before := ih (n / 10) (by omega) (by omega)
      rw [List.head?_eq_some_head Nat.toDigits_ne_nil] at before
      rwa [Nat.toDigits_of_base_le (by decide) (Nat.le_of_not_lt small), List.head?_append,
        List.head?_eq_some_head Nat.toDigits_ne_nil, Option.some_or]

theorem integerPart?_toDigits (n : Nat) {rest : List Char} (follows : Follows rest) :
    integerPart? (Nat.toDigits 10 n ++ rest) = some (Nat.toDigits 10 n, rest) := by
  -- a zero alone, or digits that do not begin with zero
  rcases Nat.eq_zero_or_pos n with rfl | pos
  · show integerPart? ('0' :: rest) = some (['0'], rest)
    rw [integerPart?, digitsOf_of_follows follows]
    rfl
  · have some : Nat.toDigits 10 n ≠ [] := Nat.toDigits_ne_nil
    rw [integerPart?.eq_def]
    split
    · rename_i zero
      have head := congrArg List.head? zero
      rw [List.head?_append, List.head?_eq_some_head some, Option.some_or,
        ← List.head?_eq_some_head some] at head
      exact absurd head (head?_toDigits_ne pos)
    · rw [digitsOf_toDigits n follows]
      simp [some]

theorem fraction?_of_follows {rest : List Char} (follows : Follows rest) :
    fraction? rest = some (false, rest) := by
  rw [fraction?.eq_def]
  split
  · exact absurd follows.head (by decide)
  · rfl

theorem exponent?_of_follows {rest : List Char} (follows : Follows rest) :
    exponent? rest = some (false, rest) := by
  cases rest with
  | nil => rfl
  | cons c rest =>
    rw [exponent?, if_neg]
    rcases follows.head with rfl | rfl | rfl <;> decide

/-- A natural number is read up to what follows it. -/
theorem unsigned?_toDigits (n : Nat) {rest : List Char} (follows : Follows rest) :
    unsigned? (Nat.toDigits 10 n ++ rest) = some (.natural n, rest) := by
  simp only [unsigned?, integerPart?_toDigits n follows, fraction?_of_follows follows,
    exponent?_of_follows follows, Option.bind_eq_bind, Option.bind_some, digitsValue_toDigits]
  rfl

/-! ## Documents -/

@[simp] theorem compact_null : null.compact = "null".toList := rfl

@[simp] theorem compact_true : (bool true).compact = "true".toList := rfl

@[simp] theorem compact_false : (bool false).compact = "false".toList := rfl

@[simp] theorem compact_natural (n : Nat) : (natural n).compact = Nat.toDigits 10 n := rfl

@[simp] theorem compact_text (cs : List Char) : (string (some cs)).compact = quoted cs := rfl

@[simp] theorem compact_array (items : List Json) :
    (array items).compact = '[' :: compactItems items := rfl

@[simp] theorem compact_object (fields : List (Option (List Char) × Json)) :
    (object fields).compact = '\x7b' :: compactFields fields := rfl

theorem compactItems_singleton (item : Json) : compactItems [item] = item.compact ++ [']'] := rfl

theorem compactItems_cons (item next : Json) (items : List Json) :
    compactItems (item :: next :: items) = item.compact ++ ',' :: compactItems (next :: items) := rfl

theorem compactFields_singleton (name : Option (List Char)) (value : Json) :
    compactFields [(name, value)] = quoted (name.getD []) ++ ':' :: (value.compact ++ ['\x7d']) := rfl

theorem compactFields_cons (name : Option (List Char)) (value : Json)
    (next : Option (List Char) × Json) (fields : List (Option (List Char) × Json)) :
    compactFields ((name, value) :: next :: fields) =
      quoted (name.getD []) ++ ':' :: (value.compact ++ ',' :: compactFields (next :: fields)) := rfl

/-- The documents that have a written form of their own. -/
inductive Plain : Json → Prop
  | null : Plain .null
  | bool (b : Bool) : Plain (.bool b)
  | natural (n : Nat) : Plain (.natural n)
  | text (cs : List Char) : Plain (.string (some cs))
  | array {items : List Json} (h : ∀ item ∈ items, Plain item) : Plain (.array items)
  | object {fields : List (List Char × Json)} (h : ∀ field ∈ fields, Plain field.2) :
      Plain (.object (fields.map fun field => (some field.1, field.2)))

/-- What a document is written as is read as the document, with enough fuel. -/
def ReadsBack (json : Json) : Prop :=
  ∀ fuel rest, Follows rest → 2 * json.compact.length ≤ fuel + 1 →
    value? fuel (json.compact ++ rest) = some (json, rest)

/-- A number begins with a digit. -/
theorem toDigits_begins (n : Nat) : ∃ c cs, Nat.toDigits 10 n = c :: cs ∧ c.isDigit = true := by
  rcases h : Nat.toDigits 10 n with _ | ⟨c, cs⟩
  · exact absurd h Nat.toDigits_ne_nil
  · exact ⟨c, cs, rfl,
      Nat.isDigit_of_mem_toDigits (b := 10) (n := n) (by decide) (by decide) (by rw [h]; simp)⟩

theorem isSpace_of_isDigit {c : Char} (digit : c.isDigit = true) : isSpace c = false := by
  refine Bool.eq_false_iff.mpr fun space => ?_
  simp only [isSpace, Bool.or_eq_true, beq_iff_eq] at space
  rcases space with ((rfl | rfl) | rfl) | rfl <;> exact absurd digit (by decide)

theorem ne_of_isDigit {c d : Char} (digit : c.isDigit = true) (other : d.isDigit = false) :
    c ≠ d := by
  rintro rfl
  exact Bool.noConfusion (digit.symm.trans other)

/-- A document begins with something that is not white space. -/
theorem compact_begins {json : Json} (plain : json.Plain) :
    ∃ c cs, json.compact = c :: cs ∧ isSpace c = false ∧ c ≠ ']' := by
  cases plain with
  | null => exact ⟨_, _, rfl, rfl, by decide⟩
  | bool b => cases b <;> exact ⟨_, _, rfl, rfl, by decide⟩
  | natural n =>
    obtain ⟨c, cs, begins, digit⟩ := toDigits_begins n
    rw [compact_natural]
    exact ⟨c, cs, begins, isSpace_of_isDigit digit, ne_of_isDigit digit rfl⟩
  | text cs => exact ⟨_, _, rfl, rfl, by decide⟩
  | array => exact ⟨_, _, rfl, rfl, by decide⟩
  | object => exact ⟨_, _, rfl, rfl, by decide⟩

theorem skipSpace_cons {c : Char} (h : isSpace c = false) (rest : List Char) :
    skipSpace (c :: rest) = c :: rest :=
  List.dropWhile_cons_of_neg (by rw [h]; exact Bool.false_ne_true)

theorem skipSpace_of_follows {rest : List Char} (follows : Follows rest) :
    skipSpace rest = rest := by
  cases rest with
  | nil => rfl
  | cons c rest =>
    refine skipSpace_cons ?_ rest
    rcases follows.head with rfl | rfl | rfl <;> rfl

/-- The items of an array are read up to the bracket behind them. -/
theorem items?_compactItems {item : Json} {items : List Json}
    (readsBack : ∀ j ∈ item :: items, ReadsBack j) (fuel : Nat) (rest : List Char)
    (enough : 2 * (compactItems (item :: items)).length ≤ fuel) :
    items? fuel (compactItems (item :: items) ++ rest) = some (item :: items, rest) := by
  induction items generalizing item fuel with
  | nil =>
    rw [compactItems_singleton, List.length_append, List.length_singleton] at enough
    obtain ⟨fuel, rfl⟩ : ∃ f, fuel = f + 1 := ⟨fuel - 1, by omega⟩
    have here := readsBack item List.mem_cons_self fuel (']' :: rest)
      (follows_cons (.inr (.inl rfl))) (by omega)
    rw [compactItems_singleton, List.append_assoc, List.singleton_append, items?, here]
    rfl
  | cons next items ih =>
    rw [compactItems_cons, List.length_append, List.length_cons] at enough
    obtain ⟨fuel, rfl⟩ : ∃ f, fuel = f + 1 := ⟨fuel - 1, by omega⟩
    have here := readsBack item List.mem_cons_self fuel
      (',' :: (compactItems (next :: items) ++ rest)) (follows_cons (.inl rfl)) (by omega)
    have others := ih (fun j hj => readsBack j (List.mem_cons_of_mem _ hj)) fuel (by omega)
    rw [compactItems_cons, List.append_assoc, List.cons_append, items?, here]
    exact congrArg (Option.map fun p => (item :: p.1, p.2)) others

theorem word?_singleton (c : Char) (rest : List Char) : word? [c] (c :: rest) = some rest := by
  rw [word?, if_pos rfl, word?]

/-- The name and the value of a field are read up to what follows. -/
theorem fields?_eq {value : Json} (back : ReadsBack value) (name : List Char) {fuel : Nat} {c : Char}
    (rest : List Char) (hc : c = ',' ∨ c = '\x7d') (enough : 2 * value.compact.length ≤ fuel + 1) :
    fields? (fuel + 1) (quoted name ++ ':' :: (value.compact ++ c :: rest)) =
      if c = ',' then (fields? fuel rest).map fun p => ((some name, value) :: p.1, p.2)
      else some ([(some name, value)], rest) := by
  have follows : Follows (c :: rest) := follows_cons (hc.imp id .inr)
  have start : quoted name ++ ':' :: (value.compact ++ c :: rest)
      = '"' :: (name.flatMap escapeChar ++ '"' :: ':' :: (value.compact ++ c :: rest)) := by
    rw [quoted, List.cons_append, List.append_assoc, List.singleton_append]
  have colon : word? [':'] (skipSpace (':' :: (value.compact ++ c :: rest)))
      = some (value.compact ++ c :: rest) := by
    rw [skipSpace_cons (by decide), word?_singleton]
  rw [start, fields?, skipSpace_cons (by decide), word?_singleton]
  simp only [Option.bind_eq_bind, Option.bind_some, stringTail?_quoted, colon,
    back fuel (c :: rest) follows enough, skipSpace_of_follows follows]
  rcases hc with rfl | rfl <;> rfl

/-- The fields of an object are read up to the brace behind them. -/
theorem fields?_compactFields {field : List Char × Json} {fields : List (List Char × Json)}
    (readsBack : ∀ f ∈ field :: fields, ReadsBack f.2) (fuel : Nat) (rest : List Char)
    (enough : 2 * (compactFields ((field :: fields).map fun f => (some f.1, f.2))).length ≤ fuel) :
    fields? fuel (compactFields ((field :: fields).map fun f => (some f.1, f.2)) ++ rest) =
      some ((field :: fields).map fun f => (some f.1, f.2), rest) := by
  -- the field is followed by the brace, or by a comma and the other fields
  induction fields generalizing field fuel with
  | nil =>
    obtain ⟨name, value⟩ := field
    have back : ReadsBack value := readsBack _ List.mem_cons_self
    simp only [List.map_cons, List.map_nil, compactFields_singleton, Option.getD_some,
      List.length_append, List.length_cons] at enough ⊢
    obtain ⟨fuel, rfl⟩ : ∃ f, fuel = f + 1 := ⟨fuel - 1, by omega⟩
    rw [List.append_assoc, List.cons_append, List.append_assoc, List.singleton_append,
      fields?_eq back name rest (.inr rfl) (by omega)]
    rfl
  | cons next fields ih =>
    obtain ⟨name, value⟩ := field
    have back : ReadsBack value := readsBack _ List.mem_cons_self
    have others := ih fun f hf => readsBack f (List.mem_cons_of_mem _ hf)
    simp only [List.map_cons, compactFields_cons, Option.getD_some, List.length_append,
      List.length_cons] at enough others ⊢
    obtain ⟨fuel, rfl⟩ : ∃ f, fuel = f + 1 := ⟨fuel - 1, by omega⟩
    rw [List.append_assoc, List.cons_append, List.append_assoc, List.cons_append,
      fields?_eq back name _ (.inl rfl) (by omega)]
    exact congrArg (Option.map fun p => ((some name, value) :: p.1, p.2)) (others fuel (by omega))

theorem readsBack_null : ReadsBack .null := by
  intro fuel rest follows enough
  obtain ⟨fuel, rfl⟩ : ∃ f, fuel = f + 1 := ⟨fuel - 1, by simp at enough; omega⟩
  rfl

theorem readsBack_bool (b : Bool) : ReadsBack (.bool b) := by
  intro fuel rest follows enough
  cases b <;>
  · obtain ⟨fuel, rfl⟩ : ∃ f, fuel = f + 1 := ⟨fuel - 1, by simp at enough; omega⟩
    rfl

theorem readsBack_natural (n : Nat) : ReadsBack (.natural n) := by
  intro fuel rest follows enough
  have whole := unsigned?_toDigits n follows
  obtain ⟨c, cs, begins, digit⟩ := toDigits_begins n
  rw [compact_natural, begins] at enough ⊢
  rw [begins] at whole
  obtain ⟨fuel, rfl⟩ : ∃ f, fuel = f + 1 := ⟨fuel - 1, by rw [List.length_cons] at enough; omega⟩
  rw [List.cons_append, value?, skipSpace_cons (isSpace_of_isDigit digit)]
  dsimp only
  rw [if_neg (ne_of_isDigit digit rfl), if_neg (ne_of_isDigit digit rfl),
    if_neg (ne_of_isDigit digit rfl), if_neg (ne_of_isDigit digit rfl),
    if_neg (ne_of_isDigit digit rfl), if_neg (ne_of_isDigit digit rfl),
    if_neg (ne_of_isDigit digit rfl)]
  exact whole

theorem readsBack_text (cs : List Char) : ReadsBack (.string (some cs)) := by
  intro fuel rest follows enough
  rw [compact_text, quoted] at enough ⊢
  obtain ⟨fuel, rfl⟩ : ∃ f, fuel = f + 1 := ⟨fuel - 1, by rw [List.length_cons] at enough; omega⟩
  rw [List.cons_append, List.append_assoc, List.singleton_append, value?,
    skipSpace_cons (by decide)]
  dsimp only
  rw [if_pos rfl, stringTail?_quoted]
  rfl

theorem readsBack_array {items : List Json} (plain : ∀ item ∈ items, Plain item)
    (back : ∀ item ∈ items, ReadsBack item) : ReadsBack (.array items) := by
  intro fuel rest follows enough
  rw [compact_array, List.length_cons] at enough
  obtain ⟨fuel, rfl⟩ : ∃ f, fuel = f + 1 := ⟨fuel - 1, by omega⟩
  rw [compact_array, List.cons_append, value?, skipSpace_cons (by decide)]
  cases items with
  | nil => rfl
  | cons item items =>
    have inside := items?_compactItems back fuel rest (by omega)
    -- the first item does not begin with a bracket, so the array is not taken for an empty one
    obtain ⟨c, cs, begins, space, bracket⟩ := compact_begins (plain item List.mem_cons_self)
    obtain ⟨cs', starts⟩ : ∃ cs', compactItems (item :: items) ++ rest = c :: cs' := by
      cases items with
      | nil => exact ⟨_, by rw [compactItems_singleton, begins]; rfl⟩
      | cons next items => exact ⟨_, by rw [compactItems_cons, begins]; rfl⟩
    rw [starts] at inside ⊢
    dsimp only
    rw [if_neg (by decide), if_pos rfl, skipSpace_cons space]
    split
    · rename_i h
      exact absurd (List.cons.inj h).1 bracket
    · rw [inside]
      rfl

theorem readsBack_object {fields : List (List Char × Json)}
    (back : ∀ field ∈ fields, ReadsBack field.2) :
    ReadsBack (.object (fields.map fun field => (some field.1, field.2))) := by
  intro fuel rest follows enough
  rw [compact_object, List.length_cons] at enough
  obtain ⟨fuel, rfl⟩ : ∃ f, fuel = f + 1 := ⟨fuel - 1, by omega⟩
  rw [compact_object, List.cons_append, value?, skipSpace_cons (by decide)]
  cases fields with
  | nil => rfl
  | cons field fields =>
    have inside := fields?_compactFields back fuel rest (by omega)
    obtain ⟨cs', starts⟩ : ∃ cs', compactFields ((field :: fields).map fun f => (some f.1, f.2))
        ++ rest = '"' :: cs' := by
      cases fields with
      | nil => exact ⟨_, rfl⟩
      | cons next fields => exact ⟨_, by rw [List.map_cons, List.map_cons, compactFields_cons]; rfl⟩
    rw [starts] at inside ⊢
    dsimp only
    rw [if_neg (by decide), if_neg (by decide), if_pos rfl, skipSpace_cons (by decide)]
    exact congrArg (Option.map fun p => (object p.1, p.2)) inside

theorem readsBack_of_plain {json : Json} (plain : json.Plain) : ReadsBack json := by
  induction plain with
  | null => exact readsBack_null
  | bool b => exact readsBack_bool b
  | natural n => exact readsBack_natural n
  | text cs => exact readsBack_text cs
  | array plain back => exact readsBack_array plain back
  | object _ back => exact readsBack_object back

/-- A document is read back from its compact form. -/
theorem read?_compact {json : Json} (plain : json.Plain) : read? json.compact = some json := by
  have back := readsBack_of_plain plain (2 * json.compact.length + 1) [] (by rintro c ⟨⟩) (by omega)
  rw [List.append_nil] at back
  rw [read?, back]
  rfl

end Json
end ExternalSort
