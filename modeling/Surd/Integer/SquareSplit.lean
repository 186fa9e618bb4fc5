import Surd.Integer.Sqrt

/-!
# Splitting a number into a square and a square-free rest

`squareSplit? n` writes `n` as `s² · r` with the largest possible `s`. Small
factors are divided out by trial until the cube of the next one is larger
than what is left: such a rest has at most two prime factors, so it is a
square or square-free already. Trial stops at `maxTrialDivisor`; a rest that
is still too large by then is given up, unless it happens to be a square.
-/

namespace Surd.Integer

/-- The largest factor that is tried. -/
def maxTrialDivisor : Nat := 1 <<< 21

/-- A number taken apart as `outside² · inside · rest`. -/
structure Trial where
  outside : Nat
  inside : Nat
  rest : Nat
deriving DecidableEq, Repr

/-- How often `f` divides `n`, and `n` without those factors. Going through
`f²` halves what is left to count; `fuel` covers an `n` below `f ^ 2 ^ fuel`.

The count is a natural number without bound. A count of 32 bits agrees with it
as long as `f` does not divide `n` as often as `2 ^ 32` times, so for every `n`
below `2 ^ 2 ^ 32` (`divideOut_count_lt`). -/
def divideOut : Nat → Nat → Nat → Nat × Nat
  | 0, _, n => (0, n)
  | fuel + 1, f, n =>
    if n % f = 0 then
      let (m, r) := divideOut fuel (f * f) n
      if r % f = 0 then (2 * m + 1, r / f) else (2 * m, r)
    else (0, n)

namespace Trial

/-- Moves every factor `f` out of the rest, in pairs as far as possible. How
often `f` occurs is not bounded either: when a number below `2 ^ 2 ^ 32` is
taken apart, 32 bits are enough for every factor (`Splits.count_lt`), and from
there on a count of 32 bits could overflow where this one goes on. -/
def divide (f : Nat) (t : Trial) : Trial :=
  if t.rest % f = 0 then
    let (m, r) := divideOut (t.rest.log2 + 1) f t.rest
    ⟨t.outside * f.pow (m / 2), if m % 2 = 1 then t.inside * f else t.inside, r⟩
  else t

/-- Tries the next `count` factors from `f` on: `2` and then the odd numbers.
There is no outcome when they run out and the rest may still hide a square. -/
def search : Nat → Nat → Trial → Option Trial
  | 0, f, t =>
    if f * f * f ≤ t.rest then (sqrt? t.rest).map fun _ => t else some t
  | count + 1, f, t =>
    if f * f * f ≤ t.rest then search count (if f = 2 then 3 else f + 2) (t.divide f)
    else some t

/-- Moves the rest where it belongs. -/
def settle (t : Trial) : Nat × Nat :=
  match sqrt? t.rest with
  | some r => (t.outside * r, t.inside)
  | none => (t.outside, t.inside * t.rest)

end Trial

/-- A number taken apart as `outside² · inside`. -/
structure SquareSplit where
  outside : Nat
  inside : Int
deriving DecidableEq, Repr

/-- Takes a number apart into the largest possible square and a square-free
factor with its sign, unless that takes too many trials. Zero is the square of
zero. The number of trials is that of `2` and the odd numbers up to
`maxTrialDivisor`. -/
def squareSplit? (n : Int) : Option SquareSplit :=
  if n = 0 then some ⟨0, 1⟩
  else do
    let t ← Trial.search (maxTrialDivisor / 2) 2 ⟨1, 1, n.natAbs⟩
    let (outside, inside) := t.settle
    return ⟨outside, n.sign * inside⟩

end Surd.Integer
