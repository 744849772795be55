/-
  ExternalSort.Bytes.Lexicographic

  The order of byte strings: the first differing byte decides, and a string
  comes before its proper extensions.
-/

namespace ExternalSort

/-- Compares two byte strings from position `i` on. -/
def compareBytesFrom (a b : ByteArray) (i : Nat) : Ordering :=
  if ha : i < a.size then
    if hb : i < b.size then
      match compare a[i] b[i] with
      | .eq => compareBytesFrom a b (i + 1)
      | decided => decided
    else .gt
  else if i < b.size then .lt else .eq
termination_by a.size - i

/-- The lexicographic order of byte strings. -/
def compareBytes (a b : ByteArray) : Ordering := compareBytesFrom a b 0

end ExternalSort
