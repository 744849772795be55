/-
  ExternalSort.Text.Fixed

  Quotients as text with two decimal places.

  The numbers shown are binary floating point numbers of 53 bits: each of the
  two operands and then their quotient is rounded to the nearest such number,
  an exact half to the even neighbour. The result is then rounded once more, in
  exact arithmetic, to two decimal places.
-/

namespace ExternalSort
namespace Fixed

/-- The quotient rounded to the nearest integer, an exact half to the even one. -/
def roundDiv (num den : Nat) : Nat :=
  let q := num / den
  let r := num % den
  if den < 2 * r ∨ (den = 2 * r ∧ q % 2 = 1) then q + 1 else q

/-- A nonnegative number as a quotient of two integers. -/
structure Ratio where
  num : Nat
  den : Nat

/-- The nearest number of 53 significant bits; the exponent range is not bounded. -/
def Ratio.toBinary (x : Ratio) : Ratio :=
  if x.num = 0 then ⟨0, 1⟩
  else
    -- `2 ^ up / 2 ^ down` scales the quotient to at least `2 ^ 52` and below `2 ^ 53`.
    let guess : Int := (x.den.log2 : Int) - x.num.log2 + 52
    let scaled (e : Int) : Ratio := ⟨x.num <<< e.toNat, x.den <<< (-e).toNat⟩
    let e := if (scaled guess).num < (scaled guess).den <<< 52 then guess + 1 else guess
    let m := roundDiv (scaled e).num (scaled e).den
    ⟨m <<< (-e).toNat, 1 <<< e.toNat⟩

/-- The floating point quotient of two integers. -/
def quotient (a b : Nat) : Ratio :=
  let x := Ratio.toBinary ⟨a, 1⟩
  let y := Ratio.toBinary ⟨b, 1⟩
  Ratio.toBinary ⟨x.num * y.den, x.den * y.num⟩

/-- A number with two decimal places. -/
def Ratio.twoPlaces (x : Ratio) : String :=
  let cents := roundDiv (x.num * 100) x.den
  let fraction := Nat.toDigits 10 (cents % 100)
  Nat.repr (cents / 100) ++ "." ++
    String.ofList (List.replicate (2 - fraction.length) '0' ++ fraction)

end Fixed
end ExternalSort
