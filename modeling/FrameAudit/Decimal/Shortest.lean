/-! # Shortest decimals

`shortest x` is the decimal with the fewest digits among those that round to the double `x`, and of
these the one nearest to `x`. A double is looked at as `mantissa * 2 ^ exponent`, and the reals that
round to it as an interval whose ends belong to it when the mantissa is even. The decimals
`digits * 10 ^ scale` of one `scale` form a grid; the coarsest grid with a point in the interval
gives the answer. All comparisons are made in natural numbers. -/

namespace FrameAudit

/-- The decimal `digits * 10 ^ scale`. -/
structure Decimal where
  digits : Nat
  scale : Int
deriving DecidableEq

/-- The magnitude `mantissa * 2 ^ exponent` of a finite double. -/
structure Binary where
  mantissa : Nat
  exponent : Int
deriving DecidableEq

namespace Binary

/-- The implicit leading bit of a mantissa, above 52 bits of fraction. -/
def leadingBit : Nat := 0x10000000000000

/-- The magnitude encoded in the bits of a finite double: the fraction below 11 bits of exponent,
with the leading bit unless the exponent field is zero. -/
def ofFloat (x : Float) : Binary :=
  let bits := x.toBits.toNat
  let fraction : Nat := bits % leadingBit
  let field : Nat := bits / leadingBit % 2048
  if field = 0 then ⟨fraction, -1074⟩ else ⟨fraction + leadingBit, field - 1075⟩

/-- Whether the next smaller double is nearer than the next larger one. -/
def narrowBelow (b : Binary) : Bool := b.mantissa == leadingBit && b.exponent != -1074

/-- Four times the mantissa, and four times the mantissas half way to the two neighbours. -/
def quarters (b : Binary) : Nat × Nat × Nat :=
  (4 * b.mantissa - (if b.narrowBelow then 1 else 2), 4 * b.mantissa, 4 * b.mantissa + 2)

/-- Numerators of `quarters` and the numerator of one grid step `10 ^ scale`, over one common
denominator. -/
def onGrid (b : Binary) (scale : Int) : (Nat × Nat × Nat) × Nat :=
  let (low, mid, high) := b.quarters
  let two := b.exponent - 2
  let up := Nat.pow 2 two.toNat * Nat.pow 10 (-scale).toNat
  ((low * up, mid * up, high * up), Nat.pow 2 (-two).toNat * Nat.pow 10 scale.toNat)

/-- The point of the grid of `10 ^ scale` that rounds to `b` and is nearest to it, if there is one.
Of two equally near points the even one is taken. -/
def nearestOnGrid (b : Binary) (scale : Int) : Option Decimal :=
  let ((low, mid, high), step) := b.onGrid scale
  let below := mid / step
  let inside (k : Nat) : Bool :=
    if b.mantissa % 2 = 0 then low ≤ k * step && k * step ≤ high
    else low < k * step && k * step < high
  let gapBelow := mid - below * step
  let gapAbove := (below + 1) * step - mid
  match inside below, inside (below + 1) with
  | true, true =>
    if gapBelow < gapAbove || (gapBelow == gapAbove && below % 2 == 0) then some ⟨below, scale⟩
    else some ⟨below + 1, scale⟩
  | true, false => some ⟨below, scale⟩
  | false, true => some ⟨below + 1, scale⟩
  | false, false => none

/-- Tries the grids from `10 ^ 309`, above every double, down to `10 ^ -342`, which has a point in
every interval. -/
def shortest (b : Binary) : Decimal :=
  ((List.range 652).findSome? fun i : Nat => b.nearestOnGrid (309 - i)).getD ⟨0, 0⟩

end Binary

namespace Decimal

/-- The shortest decimal that rounds to the magnitude of `x`. -/
def ofFloat (x : Float) : Decimal :=
  let b := Binary.ofFloat x
  if b.mantissa = 0 then ⟨0, 0⟩ else b.shortest

/-- How a decimal is laid out: positional notation from `10 ^ lowest` up to, but not including,
`10 ^ beyond`, and a mark for the exponent outside. -/
structure Layout where
  lowest : Int
  beyond : Int
  mark : String

/-- Puts a point after the first `k` digits, with at least one digit on each side. -/
private def point (digits : String) (k : Nat) : String :=
  let fraction := (digits.drop k).toString
  (digits.take k).toString ++ "." ++ (if fraction.isEmpty then "0" else fraction)

/-- The text of a decimal. Positional notation has at least one digit after the point; the exponent
form has a point only if there is more than one digit, and always a sign. -/
def render (layout : Layout) (d : Decimal) : String :=
  let digits := toString d.digits
  let top := d.scale + digits.length - 1
  if d.digits = 0 then "0.0"
  else if layout.lowest ≤ top && top < layout.beyond then
    if top < 0 then "0." ++ "".pushn '0' (-top - 1).toNat ++ digits
    else point (digits.pushn '0' d.scale.toNat) (top.toNat + 1)
  else
    let sign := if top < 0 then "-" else "+"
    let lead := if digits.length = 1 then digits else point digits 1
    lead ++ layout.mark ++ sign ++ toString top.natAbs

end Decimal

end FrameAudit
