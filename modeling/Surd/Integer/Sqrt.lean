/-!
# Integer square roots

The floor of a square root is found one binary digit at a time: the root of
`n / 4` is the root of `n` without its last digit.
-/

namespace Surd.Integer

/-- The square root of a number below `4 ^ digits`, rounded down. -/
def sqrtDigits : Nat → Nat → Nat
  | 0, _ => 0
  | digits + 1, n =>
    let r := 2 * sqrtDigits digits (n / 4)
    if (r + 1) * (r + 1) ≤ n then r + 1 else r

/-- The square root of a number, rounded down. -/
def sqrt (n : Nat) : Nat :=
  sqrtDigits (n.log2 / 2 + 1) n

/-- The square root of a perfect square. -/
def sqrt? (n : Nat) : Option Nat :=
  let r := sqrt n
  if r * r = n then some r else none

theorem sqrtDigits_bounds (digits n : Nat) (h : n < Nat.pow 4 digits) :
    sqrtDigits digits n * sqrtDigits digits n ≤ n ∧
      n < (sqrtDigits digits n + 1) * (sqrtDigits digits n + 1) := by
  induction digits generalizing n with
  | zero =>
    have : n = 0 := by simpa using h
    subst this
    simp [sqrtDigits]
  | succ digits ih =>
    have hq : n / 4 < Nat.pow 4 digits := by
      have : Nat.pow 4 (digits + 1) = Nat.pow 4 digits * 4 := rfl
      omega
    obtain ⟨hlo, hhi⟩ := ih (n / 4) hq
    generalize hs : sqrtDigits digits (n / 4) = s at hlo hhi
    simp only [sqrtDigits, hs]
    have hlo' : 2 * s * (2 * s) ≤ n := by
      have : 2 * s * (2 * s) = 4 * (s * s) := by rw [Nat.mul_mul_mul_comm]
      omega
    have hhi' : n < (2 * s + 2) * (2 * s + 2) := by
      have : (2 * s + 2) * (2 * s + 2) = 4 * ((s + 1) * (s + 1)) := by
        rw [show 2 * s + 2 = 2 * (s + 1) by omega, Nat.mul_mul_mul_comm]
      omega
    split
    · next h1 => exact ⟨h1, hhi'⟩
    · next h1 => exact ⟨hlo', by omega⟩

theorem lt_four_pow_log2 (n : Nat) : n < Nat.pow 4 (n.log2 / 2 + 1) := by
  have hlog : n < Nat.pow 2 (n.log2 + 1) := Nat.lt_log2_self
  have hle : Nat.pow 2 (n.log2 + 1) ≤ Nat.pow 2 (2 * (n.log2 / 2 + 1)) :=
    Nat.pow_le_pow_right (by decide) (by omega)
  have hsq : Nat.pow 2 (2 * (n.log2 / 2 + 1)) = Nat.pow 4 (n.log2 / 2 + 1) :=
    Nat.pow_mul 2 2 _
  exact hsq ▸ Nat.lt_of_lt_of_le hlog hle

/-- The square root is the largest number whose square fits. -/
theorem sqrt_bounds (n : Nat) : sqrt n * sqrt n ≤ n ∧ n < (sqrt n + 1) * (sqrt n + 1) :=
  sqrtDigits_bounds _ n (lt_four_pow_log2 n)

/-- Exactly the squares have a square root. -/
theorem sqrt?_eq_some_iff {n r : Nat} : sqrt? n = some r ↔ r * r = n := by
  obtain ⟨hlo, hhi⟩ := sqrt_bounds n
  simp only [sqrt?, Option.ite_none_right_eq_some, Option.some.injEq]
  constructor
  · rintro ⟨h, rfl⟩
    exact h
  · intro h
    have hle : r ≤ sqrt n := by
      rcases Nat.lt_or_ge (sqrt n) r with hlt | hge
      · have : (sqrt n + 1) * (sqrt n + 1) ≤ r * r := Nat.mul_le_mul hlt hlt
        omega
      · exact hge
    have hge : sqrt n ≤ r := by
      rcases Nat.lt_or_ge r (sqrt n) with hlt | hge
      · have hsq : (r + 1) * (r + 1) ≤ sqrt n * sqrt n := Nat.mul_le_mul hlt hlt
        have : r * r < (r + 1) * (r + 1) := Nat.mul_lt_mul'' (by omega) (by omega)
        omega
      · exact hge
    have : sqrt n = r := Nat.le_antisymm hge hle
    exact ⟨by rw [this, h], this⟩

end Surd.Integer
