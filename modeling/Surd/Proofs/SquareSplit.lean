import Mathlib.Data.Nat.Factorization.Induction
import Mathlib.Data.Nat.Squarefree
import Mathlib.Tactic.NormNum.IsSquare
import Mathlib.Tactic.NormNum.Prime
import Surd.Canonical
import Surd.Integer.SquareSplit

/-!
# The square split is exact, and a square-free part splits no further

Trial division keeps one invariant, `Trial.Splits`: what has been taken out so
far has only prime factors below the next trial factor, and what is left has
none of them. A trial factor that still divides the rest is therefore prime,
composite ones included in the count cost nothing, and a rest below the cube
of the next factor has two prime factors at most.

The second half is about giving up. The search fails on account of the rough
part of the number alone, the part without prime factors up to the last trial
factor (`squareSplit?_eq_none_iff`). The rough part of a square-free part is
the rough part of the whole number with squares taken out, so a number whose
split was found has a square-free part whose split is found again, and then
there is nothing to take out (`squareSplit?_inside`). Both halves together say
what becomes of any number (`squareSplit_cases`).
-/

namespace Surd

theorem Canonical.SquareFree.ne_zero {n : Int} (h : SquareFree n) : n ≠ 0 := by
  intro h0
  exact h 2 (by omega) (h0 ▸ Int.dvd_zero _)

theorem Canonical.squareFree_iff {n : Int} : SquareFree n ↔ Squarefree n.natAbs := by
  constructor
  · intro h x hx
    rcases Nat.lt_trichotomy x 1 with h0 | rfl | h1
    · obtain rfl : x = 0 := by omega
      have hn : n = 0 := by simpa using hx
      exact absurd (hn ▸ Int.dvd_zero _) (h 2 (by omega))
    · exact isUnit_one
    · exact absurd (Int.natCast_dvd.mpr hx) (h x h1)
  · intro h d hd hdvd
    have := Nat.isUnit_iff.mp (h d (Int.natCast_dvd.mp hdvd))
    omega

namespace Integer

theorem divideOut_spec {fuel f n : Nat} (hf : 2 ≤ f) (hn : 0 < n)
    (hlt : n < f ^ 2 ^ fuel) :
    f ^ (divideOut fuel f n).1 * (divideOut fuel f n).2 = n ∧
      ¬ f ∣ (divideOut fuel f n).2 := by
  induction fuel generalizing f with
  | zero =>
      rw [divideOut]
      refine ⟨by simp, fun hdvd => ?_⟩
      have := Nat.le_of_dvd hn hdvd
      simp only [Nat.pow_zero, Nat.pow_one] at hlt
      omega
  | succ fuel ih =>
      rw [divideOut]
      split
      · next hmod =>
          have hlt' : n < (f * f) ^ 2 ^ fuel := by
            rw [← Nat.pow_two, ← Nat.pow_mul, ← Nat.pow_succ']
            exact hlt
          have hff : 2 ≤ f * f := Nat.le_trans hf (Nat.le_mul_self f)
          obtain ⟨hval, hnd⟩ := ih hff hlt'
          generalize divideOut fuel (f * f) n = out at hval hnd
          obtain ⟨m, r⟩ := out
          simp only at hval hnd ⊢
          split
          · next hr =>
              have hfr : f * (r / f) = r := Nat.mul_div_cancel' (Nat.dvd_of_mod_eq_zero hr)
              refine ⟨?_, fun hdvd => hnd ?_⟩
              · show f ^ (2 * m + 1) * (r / f) = n
                rw [Nat.pow_succ, Nat.mul_assoc, hfr, Nat.pow_mul, Nat.pow_two, hval]
              · rw [← hfr]
                exact Nat.mul_dvd_mul_left f hdvd
          · next hr =>
              refine ⟨?_, fun hdvd => hr (Nat.mod_eq_zero_of_dvd hdvd)⟩
              show f ^ (2 * m) * r = n
              rw [Nat.pow_mul, Nat.pow_two, hval]
      · next hmod =>
          exact ⟨by simp, fun hdvd => hmod (Nat.mod_eq_zero_of_dvd hdvd)⟩

/-- The fuel that trial division passes is enough for any factor. -/
theorem lt_pow_two_pow_log2 {f n : Nat} (hf : 2 ≤ f) : n < f ^ 2 ^ (n.log2 + 1) :=
  calc n < 2 ^ (n.log2 + 1) := Nat.lt_log2_self
    _ ≤ 2 ^ 2 ^ (n.log2 + 1) := Nat.pow_le_pow_right (by omega) Nat.lt_two_pow_self.le
    _ ≤ f ^ 2 ^ (n.log2 + 1) := Nat.pow_le_pow_left hf _

/-- A factor does not occur more often than a number has bits. With `2 ^ 32` for
`k`, the count of a factor fits into 32 bits. -/
theorem divideOut_count_lt {fuel f n k : Nat} (hf : 2 ≤ f) (hn : 0 < n)
    (hlt : n < f ^ 2 ^ fuel) (hk : n < 2 ^ k) : (divideOut fuel f n).1 < k := by
  obtain ⟨hval, -⟩ := divideOut_spec hf hn hlt
  refine (Nat.pow_lt_pow_iff_right (show 1 < 2 by decide)).mp ?_
  calc 2 ^ (divideOut fuel f n).1 ≤ f ^ (divideOut fuel f n).1 := Nat.pow_le_pow_left hf _
    _ ≤ n := Nat.le_of_dvd hn (Dvd.intro _ hval)
    _ < 2 ^ k := hk

/-! ## The invariant of trial division -/

namespace Trial

/-- `t` is a decomposition of `n` that is complete for the primes below `f`. -/
structure Splits (n f : Nat) (t : Trial) : Prop where
  value : t.outside ^ 2 * t.inside * t.rest = n
  taken_lt : ∀ p, p.Prime → p ∣ t.outside * t.inside → p < f
  squarefree : Squarefree t.inside
  le_left : ∀ p, p.Prime → p ∣ t.rest → f ≤ p
  rest_pos : 0 < t.rest

theorem splits_start {n : Nat} (hn : 0 < n) : Splits n 2 ⟨1, 1, n⟩ where
  value := by simp
  taken_lt p hp h := absurd (Nat.dvd_one.mp h) hp.one_lt.ne'
  squarefree := squarefree_one
  le_left _ hp _ := hp.two_le
  rest_pos := hn

/-- The count of a factor is bounded by the number that the search started
from, however far it has come. -/
theorem Splits.count_lt {n f k : Nat} {t : Trial} (h : Splits n f t) (hf : 2 ≤ f) (hn : 0 < n)
    (hk : n < 2 ^ k) : (divideOut (t.rest.log2 + 1) f t.rest).1 < k := by
  have hle : t.rest ≤ n := Nat.le_of_dvd hn (Dvd.intro_left _ h.value)
  exact divideOut_count_lt hf h.rest_pos (lt_pow_two_pow_log2 hf) (hle.trans_lt hk)

/-- A factor that divides the rest has no smaller prime factor. -/
theorem Splits.prime_of_dvd {n f : Nat} {t : Trial} (h : Splits n f t) (hf : 2 ≤ f)
    (hdvd : f ∣ t.rest) : f.Prime := by
  have hmin : f.minFac.Prime := Nat.minFac_prime (by omega)
  have hle : f ≤ f.minFac := h.le_left _ hmin ((Nat.minFac_dvd f).trans hdvd)
  have : f.minFac = f := Nat.le_antisymm (Nat.minFac_le (by omega)) hle
  exact this ▸ hmin

theorem Splits.squarefree_mul {n f : Nat} {t : Trial} (h : Splits n f t) (hp : f.Prime) :
    Squarefree (t.inside * f) := by
  have hcop : t.inside.Coprime f := by
    refine ((Nat.Prime.coprime_iff_not_dvd hp).mpr fun hdvd => ?_).symm
    exact absurd (h.taken_lt f hp (hdvd.mul_left _)) (lt_irrefl f)
  exact (Nat.squarefree_mul hcop).mpr ⟨h.squarefree, hp.squarefree⟩

/-- A factor that is no prime factor of the rest is done without a division. -/
theorem Splits.succ {n f : Nat} {t : Trial} (h : Splits n f t) (hf : f.Prime → ¬ f ∣ t.rest) :
    Splits n (f + 1) t where
  value := h.value
  taken_lt p hp hd := Nat.lt_succ_of_lt (h.taken_lt p hp hd)
  squarefree := h.squarefree
  le_left := by
    intro p hp hd
    have hle := h.le_left p hp hd
    have hne : f ≠ p := by
      rintro rfl
      exact hf hp hd
    omega
  rest_pos := h.rest_pos

theorem Splits.take {n f m r : Nat} {t : Trial} (h : Splits n f t) (hp : f.Prime)
    (hval : f ^ m * r = t.rest) (hnd : ¬ f ∣ r) :
    Splits n (f + 1)
      ⟨t.outside * f ^ (m / 2), if m % 2 = 1 then t.inside * f else t.inside, r⟩ := by
  have hinside : (if m % 2 = 1 then t.inside * f else t.inside) = t.inside * f ^ (m % 2) := by
    rcases Nat.mod_two_eq_zero_or_one m with hm | hm <;> simp [hm]
  refine ⟨?_, ?_, ?_, ?_, ?_⟩
  · show (t.outside * f ^ (m / 2)) ^ 2 * (if m % 2 = 1 then _ else _) * r = n
    have hm : f ^ m = f ^ (m / 2) * f ^ (m / 2) * f ^ (m % 2) := by
      rw [← Nat.pow_add, ← Nat.pow_add]
      congr 1
      omega
    rw [hinside, ← h.value, ← hval, hm]
    ring
  · intro q hq hdvd
    rw [hinside] at hdvd
    have hcases : q ∣ t.outside * t.inside ∨ q ∣ f := by
      rcases hq.dvd_mul.mp hdvd with h1 | h1 <;> rcases hq.dvd_mul.mp h1 with h2 | h2
      · exact .inl (h2.mul_right _)
      · exact .inr (hq.dvd_of_dvd_pow h2)
      · exact .inl (h2.mul_left _)
      · exact .inr (hq.dvd_of_dvd_pow h2)
    rcases hcases with h1 | h1
    · exact Nat.lt_succ_of_lt (h.taken_lt q hq h1)
    · exact Nat.lt_succ_of_le (Nat.le_of_dvd hp.pos h1)
  · show Squarefree (if m % 2 = 1 then _ else _)
    split
    · exact h.squarefree_mul hp
    · exact h.squarefree
  · intro q hq hdvd
    have hle := h.le_left q hq (hval ▸ hdvd.mul_left _)
    have hne : q ≠ f := fun he => hnd (he ▸ hdvd)
    omega
  · exact Nat.pos_of_ne_zero fun h0 : r = 0 => hnd (h0 ▸ Nat.dvd_zero f)

/-- One trial division: afterwards `f` itself is among the factors done. -/
theorem Splits.divide {n f : Nat} {t : Trial} (h : Splits n f t) (hf : 2 ≤ f) :
    Splits n (f + 1) (t.divide f) := by
  rw [Trial.divide]
  split
  · next hmod =>
      have hp := h.prime_of_dvd hf (Nat.dvd_of_mod_eq_zero hmod)
      obtain ⟨hval, hnd⟩ := divideOut_spec hf h.rest_pos (lt_pow_two_pow_log2 hf)
      exact h.take hp hval hnd
  · next hmod => exact h.succ fun _ hdvd => hmod (Nat.mod_eq_zero_of_dvd hdvd)

theorem Splits.skip {n f : Nat} {t : Trial} (h : Splits n f t) (hf : 2 < f)
    (heven : f % 2 = 0) : Splits n (f + 1) t := by
  refine h.succ fun hp => ?_
  have hodd := hp.eq_two_or_odd
  omega

/-- Where the search for factors stands: `f` is the next one to try, and
`last` the one after the last `count` to come. -/
def Stage (last count f : Nat) : Prop :=
  (f = 2 ∧ 0 < count ∧ last = 2 * count + 1) ∨ (3 ≤ f ∧ f % 2 = 1 ∧ last = f + 2 * count)

theorem Splits.next {n last count f : Nat} {t : Trial} (h : Splits n f t)
    (hs : Stage last (count + 1) f) :
    Splits n (if f = 2 then 3 else f + 2) (t.divide f) ∧
      Stage last count (if f = 2 then 3 else f + 2) := by
  rcases hs with ⟨rfl, _, hlast⟩ | ⟨hf, hodd, hlast⟩
  · exact ⟨h.divide (by omega), .inr ⟨by simp, by simp, by simp; omega⟩⟩
  · rw [if_neg (by omega)]
    exact ⟨(h.divide (by omega)).skip (by omega) (by omega), .inr ⟨by omega, by omega, by omega⟩⟩

theorem Stage.le_last {last count f : Nat} (hs : Stage last count f) : f ≤ last := by
  rcases hs with ⟨rfl, _, _⟩ | ⟨_, _, _⟩ <;> omega

theorem Stage.eq_last {last f : Nat} (hs : Stage last 0 f) : f = last := by
  rcases hs with ⟨_, hc, _⟩ | ⟨_, _, hl⟩ <;> omega

/-- The search ends with a rest that is too small for three prime factors, or
with a perfect square once every factor has been tried. -/
theorem search_eq_some {n last count f : Nat} {t t' : Trial} (h : Splits n f t)
    (hs : Stage last count f) (ht : search count f t = some t') :
    ∃ g ≤ last, Splits n g t' ∧ (t'.rest < g ^ 3 ∨ g = last ∧ IsSquare t'.rest) := by
  induction count generalizing f t with
  | zero =>
      rw [search] at ht
      split at ht
      · next hcube =>
          obtain ⟨r, hr, rfl⟩ := Option.map_eq_some_iff.mp ht
          exact ⟨f, hs.le_last, h, .inr ⟨hs.eq_last, r, (sqrt?_eq_some_iff.mp hr).symm⟩⟩
      · next hcube =>
          cases ht
          rw [← pow_three'] at hcube
          exact ⟨f, hs.le_last, h, .inl (Nat.lt_of_not_le hcube)⟩
  | succ count ih =>
      rw [search] at ht
      split at ht
      · obtain ⟨h', hs'⟩ := h.next hs
        exact ih h' hs' ht
      · next hcube =>
          cases ht
          rw [← pow_three'] at hcube
          exact ⟨f, hs.le_last, h, .inl (Nat.lt_of_not_le hcube)⟩

/-- The search gives up only on a rest without small factors that is too
large and no perfect square. -/
theorem search_eq_none {n last count f : Nat} {t : Trial} (h : Splits n f t)
    (hs : Stage last count f) (ht : search count f t = none) :
    ∃ t', Splits n last t' ∧ last ^ 3 ≤ t'.rest ∧ ¬ IsSquare t'.rest := by
  induction count generalizing f t with
  | zero =>
      obtain rfl := hs.eq_last
      rw [search] at ht
      split at ht
      · next hcube =>
          rw [← pow_three'] at hcube
          refine ⟨t, h, hcube, ?_⟩
          rintro ⟨r, hr⟩
          rw [Option.map_eq_none_iff] at ht
          cases ht.symm.trans (sqrt?_eq_some_iff.mpr hr.symm)
      · cases ht
  | succ count ih =>
      rw [search] at ht
      split at ht
      · obtain ⟨h', hs'⟩ := h.next hs
        exact ih h' hs' ht
      · cases ht

end Trial

/-! ## The split -/

theorem stage_start : Trial.Stage (maxTrialDivisor + 1) (maxTrialDivisor / 2) 2 :=
  .inl ⟨rfl, by decide, by decide⟩

/-- What is left after a successful search is a square or square-free. -/
theorem Trial.Splits.squarefree_rest {n g : Nat} {t : Trial} (h : t.Splits n g)
    (hlt : t.rest < g ^ 3) (hsq : ¬ IsSquare t.rest) : Squarefree t.rest := by
  rw [Nat.squarefree_iff_prime_squarefree]
  rintro p hp ⟨k, hk⟩
  have hgp : g ≤ p := h.le_left p hp (hk ▸ Dvd.intro _ (Nat.mul_assoc _ _ _).symm)
  have hkg : k < g := by
    by_contra hge
    have hcube : g ^ 3 ≤ p * p * k := by
      rw [pow_three']
      exact Nat.mul_le_mul (Nat.mul_le_mul hgp hgp) (by omega)
    omega
  -- the cofactor has no prime factor left to have, so the rest is `p²`
  have hk1 : k = 1 := by
    by_contra hne
    have hle := h.le_left k.minFac (Nat.minFac_prime hne) (hk ▸ (Nat.minFac_dvd k).mul_left _)
    have hk0 : 0 < k := Nat.pos_of_ne_zero fun h0 => by
      have := h.rest_pos
      simp [hk, h0] at this
    have := Nat.minFac_le hk0
    omega
  exact hsq ⟨p, by rw [hk, hk1, Nat.mul_one]⟩

theorem settle_of_isSquare {t : Trial} {r : Nat} (h : r * r = t.rest) :
    t.settle = (t.outside * r, t.inside) := by
  rw [Trial.settle, sqrt?_eq_some_iff.mpr h]

theorem settle_of_not_isSquare {t : Trial} (h : ¬ IsSquare t.rest) :
    t.settle = (t.outside, t.inside * t.rest) := by
  rw [Trial.settle]
  cases hr : sqrt? t.rest with
  | none => rfl
  | some r => exact absurd ⟨r, (sqrt?_eq_some_iff.mp hr).symm⟩ h

/-- Settling the rest completes a decomposition of `n`. -/
theorem Trial.Splits.settle {n g : Nat} {t : Trial} (h : t.Splits n g)
    (hrest : t.rest < g ^ 3 ∨ IsSquare t.rest) :
    t.settle.1 ^ 2 * t.settle.2 = n ∧ Squarefree t.settle.2 := by
  by_cases hsq : IsSquare t.rest
  · obtain ⟨r, hr⟩ := hsq
    rw [settle_of_isSquare hr.symm]
    refine ⟨?_, h.squarefree⟩
    show (t.outside * r) ^ 2 * t.inside = n
    rw [← h.value, hr]
    ring
  · rw [settle_of_not_isSquare hsq]
    refine ⟨?_, ?_⟩
    · show t.outside ^ 2 * (t.inside * t.rest) = n
      rw [← h.value, Nat.mul_assoc]
    · have hcop : t.inside.Coprime t.rest := by
        refine Nat.coprime_of_dvd fun p hp h1 h2 => ?_
        exact absurd (h.taken_lt p hp (h1.mul_left _)) (h.le_left p hp h2).not_gt
      exact (Nat.squarefree_mul hcop).mpr
        ⟨h.squarefree, h.squarefree_rest (hrest.resolve_right hsq) hsq⟩

/-- The two parts of a split multiply back to the number, and no square but
`1` divides the inner one. -/
theorem squareSplit?_spec {n : Int} {s : SquareSplit} (h : squareSplit? n = some s) :
    (s.outside : Int) ^ 2 * s.inside = n ∧ Canonical.SquareFree s.inside := by
  rw [squareSplit?] at h
  split at h
  · next h0 =>
      cases h
      exact ⟨by simp [h0], Canonical.squareFree_iff.mpr squarefree_one⟩
  · next h0 =>
      obtain ⟨t, ht, hs⟩ := Option.bind_eq_some_iff.mp h
      obtain rfl : (⟨t.settle.1, n.sign * t.settle.2⟩ : SquareSplit) = s := by simpa using hs
      obtain ⟨g, _, hsplits, hrest⟩ :=
        Trial.search_eq_some (Trial.splits_start (Int.natAbs_pos.mpr h0)) stage_start ht
      obtain ⟨hval, hfree⟩ := hsplits.settle (hrest.imp_right And.right)
      refine ⟨?_, Canonical.squareFree_iff.mpr ?_⟩
      · show (t.settle.1 : Int) ^ 2 * (n.sign * t.settle.2) = n
        rw [mul_left_comm, ← Nat.cast_pow, ← Nat.cast_mul, hval, Int.sign_mul_natAbs]
      · show Squarefree (n.sign * t.settle.2).natAbs
        rwa [Int.natAbs_mul, Int.natAbs_sign_of_ne_zero h0, Nat.one_mul, Int.natAbs_natCast]

theorem outside_ne_zero {n : Int} {s : SquareSplit} (h : squareSplit? n = some s) (hn : n ≠ 0) :
    s.outside ≠ 0 := by
  intro h0
  obtain ⟨hval, -⟩ := squareSplit?_spec h
  exact hn (by simpa [h0] using hval.symm)

/-! ## Giving up -/

/-- `m` is what is left of `n` when every prime factor up to the last trial
factor has been divided out. -/
structure IsRoughPart (n m : Nat) : Prop where
  smooth : ∃ a, a * m = n ∧ ∀ p, p.Prime → p ∣ a → p ≤ maxTrialDivisor
  rough : ∀ p, p.Prime → p ∣ m → maxTrialDivisor < p

/-- The product of the prime factors that are larger than the last trial factor,
each as often as it occurs. -/
def roughPart (n : Nat) : Nat :=
  (n.primeFactorsList.filter (maxTrialDivisor < ·)).prod

theorem exists_mem_of_prime_dvd_prod {p : Nat} {ps : List Nat} (hp : p.Prime)
    (hps : ∀ q ∈ ps, q.Prime) (h : p ∣ ps.prod) : p ∈ ps := by
  obtain ⟨q, hq, hpq⟩ := hp.prime.dvd_prod_iff.mp h
  exact (Nat.prime_dvd_prime_iff_eq hp (hps q hq)).mp hpq ▸ hq

theorem isRoughPart_roughPart {n : Nat} (hn : n ≠ 0) : IsRoughPart n (roughPart n) := by
  have hprime : ∀ {r : Nat → Bool}, ∀ q ∈ n.primeFactorsList.filter r, q.Prime := fun q hq =>
    Nat.prime_of_mem_primeFactorsList (List.mem_filter.mp hq).1
  refine ⟨⟨(n.primeFactorsList.filter fun q => !decide (maxTrialDivisor < q)).prod, ?_, ?_⟩, ?_⟩
  · have hperm := List.filter_append_perm (maxTrialDivisor < ·) n.primeFactorsList
    rw [roughPart, Nat.mul_comm, ← List.prod_append, hperm.prod_eq,
      Nat.prod_primeFactorsList hn]
  · intro p hp h
    have hmem := exists_mem_of_prime_dvd_prod hp hprime h
    simpa using (List.mem_filter.mp hmem).2
  · intro p hp h
    have hmem := exists_mem_of_prime_dvd_prod hp hprime h
    simpa using (List.mem_filter.mp hmem).2

theorem IsRoughPart.mul {n n' m m' : Nat} (h : IsRoughPart n m) (h' : IsRoughPart n' m') :
    IsRoughPart (n * n') (m * m') := by
  obtain ⟨a, rfl, ha⟩ := h.smooth
  obtain ⟨a', rfl, ha'⟩ := h'.smooth
  refine ⟨⟨a * a', by ring, fun p hp hd => ?_⟩, fun p hp hd => ?_⟩
  · exact (hp.dvd_mul.mp hd).elim (ha p hp) (ha' p hp)
  · exact (hp.dvd_mul.mp hd).elim (h.rough p hp) (h'.rough p hp)

/-- The rough part survives dividing by small primes. -/
theorem IsRoughPart.dvd {n m b r : Nat} (h : IsRoughPart n m) (hn : b * r = n)
    (hb : ∀ p, p.Prime → p ∣ b → p ≤ maxTrialDivisor) : m ∣ r := by
  obtain ⟨a, ha, -⟩ := h.smooth
  have hcop : m.Coprime b := by
    refine Nat.coprime_of_dvd fun p hp h1 h2 => ?_
    exact absurd (hb p hp h2) (h.rough p hp h1).not_ge
  exact hcop.dvd_of_dvd_mul_left (hn ▸ ha ▸ Nat.dvd_mul_left m a)

theorem IsRoughPart.unique {n m m' : Nat} (h : IsRoughPart n m) (h' : IsRoughPart n m') :
    m = m' := by
  obtain ⟨a, ha, hsmooth⟩ := h.smooth
  obtain ⟨a', ha', hsmooth'⟩ := h'.smooth
  exact Nat.dvd_antisymm (h.dvd ha' hsmooth') (h'.dvd ha hsmooth)

theorem Trial.Splits.taken_le {n g : Nat} {t : Trial} (h : t.Splits n g)
    (hg : g ≤ maxTrialDivisor + 1) :
    ∀ p, p.Prime → p ∣ t.outside ^ 2 * t.inside → p ≤ maxTrialDivisor := by
  intro p hp hd
  have : p ∣ t.outside * t.inside := by
    rcases hp.dvd_mul.mp hd with h1 | h1
    · exact (hp.dvd_of_dvd_pow h1).mul_right _
    · exact h1.mul_left _
  have := h.taken_lt p hp this
  omega

/-- Once every factor has been tried, the rest is the rough part. -/
theorem Trial.Splits.isRoughPart {n : Nat} {t : Trial} (h : t.Splits n (maxTrialDivisor + 1)) :
    IsRoughPart n t.rest :=
  ⟨⟨_, h.value, h.taken_le (Nat.le_refl _)⟩, fun p hp hd => h.le_left p hp hd⟩

/-- A split is given up exactly when the rough part is too large and no
perfect square. -/
theorem squareSplit?_eq_none_iff {n : Int} :
    squareSplit? n = none ↔
      n ≠ 0 ∧ ∃ m, IsRoughPart n.natAbs m ∧ (maxTrialDivisor + 1) ^ 3 ≤ m ∧ ¬ IsSquare m := by
  rw [squareSplit?]
  split
  · next h0 => simp [h0]
  · next h0 =>
      have hstart := Trial.splits_start (Int.natAbs_pos.mpr h0)
      constructor
      · intro h
        cases ht : Trial.search (maxTrialDivisor / 2) 2 ⟨1, 1, n.natAbs⟩ with
        | some t => simp [ht] at h
        | none =>
            obtain ⟨t, hsplits, hle, hsq⟩ := Trial.search_eq_none hstart stage_start ht
            exact ⟨h0, t.rest, hsplits.isRoughPart, hle, hsq⟩
      · rintro ⟨-, m, hm, hle, hsq⟩
        cases ht : Trial.search (maxTrialDivisor / 2) 2 ⟨1, 1, n.natAbs⟩ with
        | none => rfl
        | some t =>
            exfalso
            obtain ⟨g, hg, hsplits, hrest⟩ := Trial.search_eq_some hstart stage_start ht
            have hdvd : m ∣ t.rest := hm.dvd hsplits.value (hsplits.taken_le hg)
            rcases hrest with hlt | ⟨rfl, hsquare⟩
            · have h1 : m ≤ t.rest := Nat.le_of_dvd hsplits.rest_pos hdvd
              have h2 : g ^ 3 ≤ (maxTrialDivisor + 1) ^ 3 := Nat.pow_le_pow_left hg 3
              omega
            · exact hsq (hm.unique hsplits.isRoughPart ▸ hsquare)

theorem isSquare_of_mul_self {c m : Nat} (hc : 0 < c) (h : IsSquare (c * c * m)) :
    IsSquare m := by
  obtain ⟨x, hx⟩ := h
  have hcx : c ∣ x := by
    rw [← Nat.pow_dvd_pow_iff (n := 2) (by omega), Nat.pow_two, Nat.pow_two, ← hx]
    exact Nat.dvd_mul_right _ _
  obtain ⟨y, rfl⟩ := hcx
  refine ⟨y, Nat.eq_of_mul_eq_mul_left (Nat.mul_pos hc hc) ?_⟩
  rw [hx]
  ring

/-- A square-free part does not lose its split: its rough part is that of the
whole number up to a square. -/
theorem squareSplit?_inside_ne_none {n : Int} {s : SquareSplit} (h : squareSplit? n = some s)
    (hn : n ≠ 0) : squareSplit? s.inside ≠ none := by
  intro hnone
  obtain ⟨hval, -⟩ := squareSplit?_spec h
  obtain ⟨-, m, hm, hle, hsq⟩ := squareSplit?_eq_none_iff.mp hnone
  have hout := outside_ne_zero h hn
  have hc := isRoughPart_roughPart hout
  generalize roughPart s.outside = c at hc
  have hpos : 0 < c := Nat.pos_of_ne_zero fun h0 => by
    obtain ⟨a, ha, -⟩ := hc.smooth
    exact hout (by rw [← ha, h0, Nat.mul_zero])
  have habs : s.outside * s.outside * s.inside.natAbs = n.natAbs := by
    rw [← hval, Int.natAbs_mul, Int.natAbs_pow, Int.natAbs_natCast, Nat.pow_two]
  refine absurd (squareSplit?_eq_none_iff.mpr ⟨hn, c * c * m, ?_, ?_, ?_⟩) (by simp [h])
  · exact habs ▸ (hc.mul hc).mul hm
  · exact hle.trans (Nat.le_mul_of_pos_left m (Nat.mul_pos hpos hpos))
  · exact fun hs => hsq (isSquare_of_mul_self hpos hs)

theorem squareSplit?_one : squareSplit? 1 = some ⟨1, 1⟩ := rfl

/-- A square-free part splits again, and there is nothing to take out. -/
theorem squareSplit?_inside {n : Int} {s : SquareSplit} (h : squareSplit? n = some s) :
    squareSplit? s.inside = some ⟨1, s.inside⟩ := by
  by_cases hn : n = 0
  · obtain rfl : s = ⟨0, 1⟩ := by simpa [squareSplit?, hn] using h.symm
    rfl
  · obtain ⟨-, hfree⟩ := squareSplit?_spec h
    obtain ⟨s', hs'⟩ := Option.ne_none_iff_exists'.mp (squareSplit?_inside_ne_none h hn)
    obtain ⟨hval, -⟩ := squareSplit?_spec hs'
    have hone : s'.outside = 1 := by
      rcases Nat.lt_trichotomy s'.outside 1 with h0 | h1 | h2
      · have : s'.outside = 0 := by omega
        exact absurd hval.symm (by simpa [this] using hfree.ne_zero)
      · exact h1
      · refine absurd ⟨s'.inside, ?_⟩ (hfree _ h2)
        rw [← hval, Nat.cast_mul, pow_two]
    have hin : s'.inside = s.inside := by simpa [hone] using hval
    rw [hs', ← hin, ← hone]

/-! ## The outcome -/

/-- What is left of a number after every trial factor is too large to be known
free of squares, and it is no square itself. -/
def IsTooRough (n : Int) : Prop :=
  (maxTrialDivisor + 1) ^ 3 ≤ roughPart n.natAbs ∧ ¬ IsSquare (roughPart n.natAbs)

theorem squareSplit?_eq_none_iff_isTooRough {n : Int} (hn : n ≠ 0) :
    squareSplit? n = none ↔ IsTooRough n := by
  have hrough := isRoughPart_roughPart (Int.natAbs_ne_zero.mpr hn)
  rw [squareSplit?_eq_none_iff]
  constructor
  · rintro ⟨-, m, hm, hle, hsq⟩
    obtain rfl := hm.unique hrough
    exact ⟨hle, hsq⟩
  · rintro ⟨hle, hsq⟩
    exact ⟨hn, _, hrough, hle, hsq⟩

/-- The outcome for any number: the split of zero is that of `0² · 1`; a number
is refused exactly if it is too rough; and any other number is split exactly,
with its sign inside and no square left there. -/
theorem squareSplit_cases (n : Int) :
    (n = 0 → squareSplit n = .ok ⟨0, 1⟩) ∧
      (n ≠ 0 → (squareSplit n = .error (.radicandTooLarge n) ↔ IsTooRough n)) ∧
      (n ≠ 0 → ¬ IsTooRough n → ∃ s, squareSplit n = .ok s ∧ 1 ≤ s.outside ∧
        n = (s.outside : Int) ^ 2 * s.inside ∧ s.inside.sign = n.sign ∧
        Canonical.SquareFree s.inside) := by
  refine ⟨?_, fun hn => ?_, fun hn hrough => ?_⟩
  · rintro rfl
    rfl
  · rw [← squareSplit?_eq_none_iff_isTooRough hn, squareSplit]
    cases squareSplit? n <;> simp
  · obtain ⟨s, hs⟩ := Option.ne_none_iff_exists'.mp
      (mt (squareSplit?_eq_none_iff_isTooRough hn).mp hrough)
    obtain ⟨hval, hfree⟩ := squareSplit?_spec hs
    have hout := outside_ne_zero hs hn
    refine ⟨s, by rw [squareSplit, hs], Nat.pos_of_ne_zero hout, hval.symm, ?_, hfree⟩
    have hsq : (0 : Int) < (s.outside : Int) ^ 2 := by positivity
    rw [← hval, Int.sign_mul, Int.sign_eq_one_of_pos hsq, Int.one_mul]

theorem roughPart_prime_pow {p : Nat} (hp : p.Prime) (hlt : maxTrialDivisor < p) (k : Nat) :
    roughPart (p ^ k) = p ^ k := by
  simp [roughPart, hp.primeFactorsList_pow, hlt]

/-- The cube of the least prime above the trial factors is refused, and its
square is split. -/
theorem squareSplit_cases_leastPrime :
    IsTooRough (2097169 ^ 3) ∧
      squareSplit (2097169 ^ 3) = .error (.radicandTooLarge (2097169 ^ 3)) ∧
      ¬ IsTooRough (2097169 ^ 2) ∧
      ∃ s, squareSplit (2097169 ^ 2) = .ok s ∧ 1 ≤ s.outside ∧
        2097169 ^ 2 = (s.outside : Int) ^ 2 * s.inside ∧ s.inside.sign = 1 ∧
        Canonical.SquareFree s.inside := by
  have hp : Nat.Prime 2097169 := by norm_num
  have hcube : IsTooRough (2097169 ^ 3) := by
    rw [IsTooRough, show (2097169 ^ 3 : Int).natAbs = 2097169 ^ 3 by decide,
      roughPart_prime_pow hp (by decide)]
    exact ⟨by decide, by norm_num⟩
  have hsquare : ¬ IsTooRough (2097169 ^ 2) := by
    rw [IsTooRough, show (2097169 ^ 2 : Int).natAbs = 2097169 ^ 2 by decide,
      roughPart_prime_pow hp (by decide)]
    exact fun h => h.2 ⟨2097169, Nat.pow_two _⟩
  obtain ⟨-, hrefused, -⟩ := squareSplit_cases (2097169 ^ 3)
  obtain ⟨-, -, hsplit⟩ := squareSplit_cases (2097169 ^ 2)
  exact ⟨hcube, (hrefused (by decide)).mpr hcube, hsquare, hsplit (by decide) hsquare⟩

end Integer

end Surd
