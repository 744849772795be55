/-
  ExternalSort.Protection

  A hook that protects spilled chunks at rest.

  The sorter never looks inside a protected buffer. It only hands back what the
  hook produced for a chunk, byte for byte and with the same database name.
-/

namespace ExternalSort

/-- A transformation of every chunk, applied after compression and undone before decompression. -/
structure Protector where
  /-- A hook that is not enabled is skipped, as if there were none. -/
  enabled : Bool := true
  /-- An upper bound on how much a buffer grows. -/
  growth : Nat
  /-- The protected form of a buffer, or the reason why there is none. -/
  protect : ByteArray → (database : Option String) → Except String ByteArray
  /-- The buffer that a protected form stands for, or the reason why there is none. -/
  unprotect : ByteArray → (database : Option String) → Except String ByteArray

/-- Undoing the hook gives back every buffer that it protected, and a buffer that was not empty
    does not become empty. -/
structure Protector.Faithful (p : Protector) : Prop where
  unprotect_protect : ∀ database input output,
    p.protect input database = .ok output → p.unprotect output database = .ok input
  nonempty : ∀ database input output,
    p.protect input database = .ok output → 0 < input.size → 0 < output.size

end ExternalSort
