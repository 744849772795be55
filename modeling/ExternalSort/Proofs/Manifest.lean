/-
  ExternalSort.Proofs.Manifest

  Manifests have one written form, from which they are read back, and pass their
  check when their extents lie behind one another.

  The check compares each extent with the one before it. That no two of them meet,
  and that they have room for their lengths one behind the other (`checks_apart`),
  follows along the list.
-/

import ExternalSort.Manifest
import ExternalSort.Proofs.Json.Format

namespace ExternalSort

/-! ## Extents that lie behind one another -/

/-- Extents that lie behind one another, up to `bound`. -/
structure Extent.Lined (bound : Nat) (extents : List Extent) : Prop where
  apart : extents.Pairwise fun earlier later => earlier.stop ≤ later.start
  upright : ∀ e ∈ extents, e.start ≤ e.stop
  below : ∀ e ∈ extents, e.stop.toNat ≤ bound

namespace Extent.Lined

variable {bound : Nat} {extents : List Extent}

theorem nil (bound : Nat) : Lined bound [] := ⟨.nil, by simp, by simp⟩

theorem raise (h : Lined bound extents) {bound' : Nat} (le : bound ≤ bound') :
    Lined bound' extents :=
  { h with below := fun e he => Nat.le_trans (h.below e he) le }

/-- One more extent, which begins at the bound. -/
theorem concat (h : Lined bound extents) {e : Extent} {bound' : Nat}
    (start : e.start.toNat = bound) (stop : e.stop.toNat = bound') (le : bound ≤ bound') :
    Lined bound' (extents ++ [e]) := by
  refine ⟨List.pairwise_append.mpr ⟨h.apart, List.pairwise_singleton _ _, ?_⟩, ?_, ?_⟩
  · rintro earlier hearlier _ hlater
    obtain rfl := List.mem_singleton.mp hlater
    rw [UInt64.le_iff_toNat_le, start]
    exact h.below earlier hearlier
  · refine List.forall_mem_append.mpr ⟨h.upright, List.forall_mem_singleton.mpr ?_⟩
    rw [UInt64.le_iff_toNat_le, start, stop]
    exact le
  · refine List.forall_mem_append.mpr ⟨fun e he => ?_, List.forall_mem_singleton.mpr ?_⟩
    · exact Nat.le_trans (h.below e he) le
    · exact Nat.le_of_eq stop

end Extent.Lined

namespace Manifest

/-- No extent is misplaced behind `last` if they lie behind one another there. -/
theorem misplaced?_eq_none {last : UInt64} {extents : List Extent}
    (apart : extents.Pairwise fun earlier later => earlier.stop ≤ later.start)
    (upright : ∀ e ∈ extents, e.start ≤ e.stop) (behind : ∀ e ∈ extents, last ≤ e.start) :
    misplaced? last extents = none := by
  induction extents generalizing last with
  | nil => rfl
  | cons e rest ih =>
    obtain ⟨first, apart⟩ := List.pairwise_cons.mp apart
    obtain ⟨here, upright⟩ := List.forall_mem_cons.mp upright
    have inPlace : ¬ (e.stop < e.start ∨ e.start < last) := by
      rintro (inverted | early)
      · exact UInt64.not_lt.mpr here inverted
      · exact UInt64.not_lt.mpr (behind e List.mem_cons_self) early
    rw [misplaced?, if_neg inPlace]
    exact ih apart upright first

/-- Extents of which none is misplaced behind `last` lie behind one another there. -/
theorem of_misplaced?_eq_none {last : UInt64} {extents : List Extent}
    (h : misplaced? last extents = none) :
    (extents.Pairwise fun earlier later => earlier.stop ≤ later.start) ∧
      (∀ e ∈ extents, e.start ≤ e.stop) ∧ ∀ e ∈ extents, last ≤ e.start := by
  induction extents generalizing last with
  | nil => simp
  | cons e rest ih =>
    rw [misplaced?] at h
    split at h
    · cases h
    · rename_i inPlace
      obtain ⟨upright, behind⟩ := not_or.mp inPlace
      have upright := UInt64.not_lt.mp upright
      have behind := UInt64.not_lt.mp behind
      obtain ⟨apart, upright', behind'⟩ := ih h
      refine ⟨List.pairwise_cons.mpr ⟨behind', apart⟩, List.forall_mem_cons.mpr ⟨upright, upright'⟩,
        List.forall_mem_cons.mpr ⟨behind, fun e' he' => ?_⟩⟩
      exact UInt64.le_trans behind (UInt64.le_trans upright (behind' e' he'))

theorem misplaced?_of_checkExtents {m : Manifest} (checked : m.checkExtents = .ok ()) :
    misplaced? 0 m.extents = none := by
  rw [checkExtents] at checked
  split at checked
  · cases checked
  · assumption

/-- Extents that passed their check lie behind one another. -/
theorem lined_of_checkExtents {m : Manifest} {bound : Nat} (checked : m.checkExtents = .ok ())
    (below : ∀ e ∈ m.extents, e.stop.toNat ≤ bound) : Extent.Lined bound m.extents := by
  obtain ⟨apart, upright, -⟩ := of_misplaced?_eq_none (misplaced?_of_checkExtents checked)
  exact ⟨apart, upright, below⟩

theorem checkExtents_of_lined {m : Manifest} {bound : Nat} (lined : Extent.Lined bound m.extents) :
    m.checkExtents = .ok () := by
  rw [checkExtents, misplaced?_eq_none lined.apart lined.upright fun _ _ => UInt64.zero_le]

end Manifest

/-! ## Lengths -/

namespace Extent

/-- An extent that is not inverted has a length, which leads from its start to its end. -/
theorem length_of_upright {e : Extent} (upright : e.start ≤ e.stop) :
    ∃ n, e.length = .ok n ∧ e.start.toNat + n.toNat = e.stop.toNat := by
  refine ⟨e.stop - e.start, if_pos upright, ?_⟩
  rw [UInt64.toNat_sub_of_le _ _ upright]
  exact Nat.add_sub_of_le (UInt64.le_iff_toNat_le.mp upright)

/-- The number of bytes of all extents, if each has a length. -/
def totalLength : List Extent → Except Misuse Nat
  | [] => .ok 0
  | e :: rest => do return (← e.length).toNat + (← totalLength rest)

end Extent

namespace Manifest

/-- The lengths of extents of which none is misplaced behind `last` fit between `last` and the end
    of the last of them. -/
theorem totalLength_le {last : UInt64} {extents : List Extent}
    (inPlace : misplaced? last extents = none) :
    ∃ total, Extent.totalLength extents = .ok total ∧
      last.toNat + total ≤ ((extents.map Extent.stop).getLastD last).toNat := by
  induction extents generalizing last with
  | nil => exact ⟨0, rfl, Nat.le_refl _⟩
  | cons e rest ih =>
    rw [misplaced?] at inPlace
    split at inPlace
    · cases inPlace
    · rename_i here
      obtain ⟨upright, behind⟩ := not_or.mp here
      obtain ⟨n, length, reaches⟩ := Extent.length_of_upright (UInt64.not_lt.mp upright)
      obtain ⟨total, others, fits⟩ := ih inPlace
      refine ⟨n.toNat + total, by rw [Extent.totalLength, length, others]; rfl, ?_⟩
      rw [List.map_cons, List.getLastD_cons]
      -- behind `last` begins the extent, and at its end the room of the others
      have begins : last.toNat ≤ e.start.toNat := UInt64.le_iff_toNat_le.mp (UInt64.not_lt.mp behind)
      omega

/-- The check passes exactly the manifests of which no extent is inverted and each ends at or before
    the start of every later one. Then each extent has a length, and the lengths together are at most
    the end of the last extent. -/
theorem checks_apart (m : Manifest) :
    (m.checkExtents = .ok () ↔
      (∀ e ∈ m.extents, e.start ≤ e.stop) ∧
        ∀ (i j : Nat) (earlier later : Extent), i < j → m.extents[i]? = some earlier →
          m.extents[j]? = some later → earlier.stop ≤ later.start) ∧
    (m.checkExtents = .ok () →
      (∀ e ∈ m.extents, ∃ n, e.length = .ok n ∧ e.start.toNat + n.toNat = e.stop.toNat) ∧
        ∃ total, Extent.totalLength m.extents = .ok total ∧
          total ≤ ((m.extents.map Extent.stop).getLastD 0).toNat) := by
  refine ⟨⟨fun checked => ?_, ?_⟩, fun checked => ?_⟩
  · obtain ⟨apart, upright, -⟩ := of_misplaced?_eq_none (misplaced?_of_checkExtents checked)
    refine ⟨upright, fun i j earlier later before hi hj => ?_⟩
    obtain ⟨inside, rfl⟩ := List.getElem?_eq_some_iff.mp hi
    obtain ⟨inside', rfl⟩ := List.getElem?_eq_some_iff.mp hj
    exact List.pairwise_iff_getElem.mp apart i j inside inside' before
  · rintro ⟨upright, apart⟩
    have pairs : m.extents.Pairwise fun earlier later => earlier.stop ≤ later.start :=
      List.pairwise_iff_getElem.mpr fun i j hi hj before =>
        apart i j _ _ before (List.getElem?_eq_getElem hi) (List.getElem?_eq_getElem hj)
    rw [checkExtents, misplaced?_eq_none pairs upright fun _ _ => UInt64.zero_le]
  · have inPlace := misplaced?_of_checkExtents checked
    obtain ⟨-, upright, -⟩ := of_misplaced?_eq_none inPlace
    obtain ⟨total, all, fits⟩ := totalLength_le inPlace
    refine ⟨fun e he => Extent.length_of_upright (upright e he), total, all, ?_⟩
    rwa [UInt64.toNat_zero, Nat.zero_add] at fits

/-- Three extents, the second without bytes and the third behind a gap. -/
def stepped : Manifest := ⟨"runs", [⟨0, 100, 7⟩, ⟨100, 100, 7⟩, ⟨130, 200, 7⟩]⟩

theorem checks_apart_stepped :
    stepped.checkExtents = .ok () ∧
      (∀ e ∈ stepped.extents, ∃ n, e.length = .ok n ∧ e.start.toNat + n.toNat = e.stop.toNat) ∧
      ∃ total, Extent.totalLength stepped.extents = .ok total ∧ total ≤ 200 := by
  have checked : stepped.checkExtents = .ok () := rfl
  exact ⟨checked, (checks_apart stepped).2 checked⟩

end Manifest

/-! ## Reading back -/

theorem Json.naturalBelow?_natural {n bound : Nat} (lt : n < bound) :
    (Json.natural n).naturalBelow? bound = some n := by
  rw [Json.naturalBelow?, if_pos lt]

namespace Extent

theorem plain_toJson (e : Extent) : e.toJson.Plain := by
  have fields : ∀ f ∈ [("start_offset".toList, Json.natural e.start.toNat),
      ("end_offset".toList, .natural e.stop.toNat),
      ("checksum".toList, .natural e.checksum.toNat)], f.2.Plain := by
    simp [Json.Plain.natural]
  exact .object fields

theorem ofJson?_toJson (e : Extent) : ofJson? e.toJson = some e := by
  have fields : e.toJson.recordFields? ["start_offset", "end_offset", "checksum"] =
      some [some (.natural e.start.toNat), some (.natural e.stop.toNat),
        some (.natural e.checksum.toNat)] := rfl
  rw [ofJson?, fields]
  simp only [Option.bind_eq_bind, Option.bind_some, Json.naturalBelow?_natural e.start.toNat_lt,
    Json.naturalBelow?_natural e.stop.toNat_lt, Json.naturalBelow?_natural e.checksum.toNat_lt,
    UInt64.ofNat_toNat, UInt32.ofNat_toNat]
  rfl

theorem mapM_ofJson? (extents : List Extent) :
    (extents.map toJson).mapM ofJson? = some extents := by
  induction extents with
  | nil => rfl
  | cons e rest ih => rw [List.map_cons, List.mapM_cons, ofJson?_toJson, ih]; rfl

end Extent

namespace Manifest

theorem plain_toJson (m : Manifest) : m.toJson.Plain := by
  have extents : (Json.array (m.extents.map Extent.toJson)).Plain :=
    .array (List.forall_mem_map.mpr fun e _ => e.plain_toJson)
  have fields : ∀ f ∈ [("file_name".toList, Json.text m.fileName),
      ("ranges".toList, .array (m.extents.map Extent.toJson))], f.2.Plain :=
    List.forall_mem_cons.mpr ⟨.text _, List.forall_mem_singleton.mpr extents⟩
  exact .object fields

theorem ofJson?_toJson (m : Manifest) : ofJson? m.toJson = some m := by
  have fields : m.toJson.recordFields? ["file_name", "ranges"] =
      some [some (.text m.fileName), some (.array (m.extents.map Extent.toJson))] := rfl
  have name : (Json.text m.fileName).text? = some m.fileName :=
    congrArg some (String.ofList_toList)
  rw [ofJson?, fields]
  simp only [Option.bind_eq_bind, Option.bind_some, name, Extent.mapM_ofJson?]
  rfl

/-- A manifest is read back from its text. -/
theorem ofJsonText_jsonText (m : Manifest) : ofJsonText m.jsonText = .ok m := by
  rw [ofJsonText, jsonText, String.toList_ofList, Json.read?_compact m.plain_toJson,
    Option.bind_some, ofJson?_toJson]

end Manifest

/-! ## The written form -/

/-- What an extent is written as. -/
def Extent.Form (e : Extent) : Json.Form :=
  Json.RecordForm [("start_offset", Json.NumberForm e.start.toNat),
    ("end_offset", Json.NumberForm e.stop.toNat), ("checksum", Json.NumberForm e.checksum.toNat)]

/-- What a manifest is written as. -/
def Manifest.Form (m : Manifest) : Json.Form :=
  Json.RecordForm [("file_name", Json.TextForm m.fileName),
    ("ranges", Json.ArrayForm (m.extents.map Extent.Form))]

theorem Extent.form_iff (e : Extent) (text : List Char) : e.Form text ↔ text = e.toJson.compact := by
  refine @Json.recordForm_iff [("start_offset", _, .natural e.start.toNat),
    ("end_offset", _, .natural e.stop.toNat), ("checksum", _, .natural e.checksum.toNat)] ?_ text
  simp only [List.forall_mem_cons, List.not_mem_nil, false_implies, implies_true, and_true,
    Json.compact_natural]
  exact ⟨fun _ => Json.numberForm_iff, fun _ => Json.numberForm_iff, fun _ => Json.numberForm_iff⟩

namespace Manifest

theorem form_iff (m : Manifest) (text : List Char) : m.Form text ↔ text = m.toJson.compact := by
  refine @Json.recordForm_iff [("file_name", _, .text m.fileName),
    ("ranges", _, .array (m.extents.map Extent.toJson))] ?_ text
  simp only [List.forall_mem_cons, List.not_mem_nil, false_implies, implies_true, and_true]
  exact ⟨fun _ => Json.textForm_iff, fun _ => Json.arrayForm_iff fun e _ => e.form_iff⟩

/-- A manifest has exactly one written form, its JSON text, and is read back from it. -/
theorem read_back_from_form (m : Manifest) :
    (∀ text : String, m.Form text.toList ↔ text = m.jsonText) ∧
      ofJsonText m.jsonText = .ok m := by
  refine ⟨fun text => ?_, ofJsonText_jsonText m⟩
  rw [form_iff, jsonText, ← String.toList_inj, String.toList_ofList]

example : (⟨"a\"\x01", [⟨100, 0, 7⟩]⟩ : Manifest).jsonText =
    "\x7b\"file_name\":\"a\\\"\\u0001\",\"ranges\":[\x7b\"start_offset\":100," ++
      "\"end_offset\":0,\"checksum\":7\x7d]\x7d" := by decide +kernel

end Manifest
end ExternalSort
