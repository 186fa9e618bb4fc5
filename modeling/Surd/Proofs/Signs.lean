import Mathlib.Algebra.Field.ZMod
import Mathlib.Tactic.Linarith
import Surd.Proofs.Fixed
import Surd.Proofs.Multiplicity

/-!
# Divisors and signs tell fixed monomials apart

How often each prime and each variable divides it determines a fixed monomial
up to signs. In front of the root of a term they divide a whole number of
times, and under it at most once before the next root, less than twice with all
the roots below. So the number of times in front is the integer part of the
whole, and twice the rest is what is under the root, where the same can be said
again.

What moves out of a root is positive, so a sign never leaves the root it is
under. Two negative integers under the same root make a positive one, as they
do anywhere. So there is one sign for each depth of nested roots (`signs`).
-/

namespace Surd

variable {a : Atom} {e e' : Expr} {s t : Term}

/-! ## Signs -/

/-- Puts everything one root deeper. -/
def deeper : (Nat → ZMod 2) →+ (Nat → ZMod 2) where
  toFun v
    | 0 => 0
    | d + 1 => v d
  map_zero' := by
    funext d
    cases d <;> rfl
  map_add' v v' := by
    funext d
    cases d with
    | zero => exact (add_zero 0).symm
    | succ d => rfl

/-- The sign in front and the signs below can be read off. -/
theorem eq_of_single_add_deeper {b b' : ZMod 2} {v v' : Nat → ZMod 2}
    (h : Pi.single 0 b + deeper v = Pi.single 0 b' + deeper v') : b = b' ∧ v = v' := by
  constructor
  · simpa [deeper] using congrFun h 0
  · funext d
    simpa [deeper] using congrFun h (d + 1)

def Integer.signBit (n : Int) : ZMod 2 :=
  if n < 0 then 1 else 0

theorem Integer.signBit_of_pos {n : Int} (hn : 0 < n) : signBit n = 0 :=
  if_neg hn.le.not_gt

theorem Integer.signBit_eq_iff {m n : Int} : signBit m = signBit n ↔ (m < 0 ↔ n < 0) := by
  by_cases hm : m < 0 <;> by_cases hn : n < 0 <;> simp [signBit, hm, hn]

theorem Integer.signBit_mul {m n : Int} (hm : m ≠ 0) (hn : n ≠ 0) :
    signBit (m * n) = signBit m + signBit n := by
  simp only [signBit]
  rcases hm.lt_or_gt with hm | hm <;> rcases hn.lt_or_gt with hn | hn
  · rw [if_neg (Int.mul_pos_of_neg_of_neg hm hn).le.not_gt, if_pos hm, if_pos hn]
    rfl
  · rw [if_pos (Int.mul_neg_of_neg_of_pos hm hn), if_pos hm, if_neg hn.le.not_gt, add_zero]
  · rw [if_pos (Int.mul_neg_of_pos_of_neg hm hn), if_pos hn, if_neg hm.le.not_gt, zero_add]
  · rw [if_neg (Int.mul_pos hm hn).le.not_gt, if_neg hm.le.not_gt, if_neg hn.le.not_gt, add_zero]

/-- For each depth of nested roots, whether the integers there have a negative
product. -/
def signs : Weight (· ≠ 0) (Nat → ZMod 2) where
  int n := Pi.single 0 (Integer.signBit n)
  var _ := 0
  half := deeper
  int_one := by rw [Integer.signBit_of_pos Int.one_pos, Pi.single_zero]
  int_mul hm hn := by rw [Integer.signBit_mul hm hn, Pi.single_add]
  half_int hn := by rw [Integer.signBit_of_pos hn, Pi.single_zero, nsmul_zero, map_zero]
  half_var _ := by rw [nsmul_zero, map_zero]

theorem signs_int {n : Int} (hn : 0 < n) : signs.int n = 0 :=
  (congrArg (Pi.single 0) (Integer.signBit_of_pos hn)).trans (Pi.single_zero 0)

namespace Term

/-- What is under the root of a term, `1` if it has none. -/
def radicand (t : Term) : Expr :=
  t.radical.getD (.num 1)

theorem weight_radicand {P : Int → Prop} {M : Type _} [AddCommMonoid M] (w : Weight P M) :
    w.expr t.radicand = w.radical t := by
  rw [Weight.radical, radicand]
  cases t.radical with
  | none => exact w.int_one
  | some r => rfl

theorem multiplicity_radicand : t.radicand.multiplicity a = t.radicalMultiplicity a := by
  rw [← a.expr_weight closed_pos, weight_radicand, Weight.radical, Atom.expr_weight]
  rfl

theorem signs_term : signs.term t =
    Pi.single 0 (Integer.signBit t.coeff) + deeper (signs.expr t.radicand) := by
  have hpowers : signs.powers t.vars = 0 :=
    List.sum_eq_zero fun v hv => by
      obtain ⟨q, -, rfl⟩ := List.mem_map.mp hv
      exact nsmul_zero q.2
  rw [Weight.term, Weight.front, hpowers, add_zero, weight_radicand]
  rfl

end Term

/-- Every atom divides both expressions equally often, and the signs are the
same at every depth. -/
structure Expr.SameWeights (e e' : Expr) : Prop where
  multiplicity : ∀ a : Atom, e.multiplicity a = e'.multiplicity a
  sign : signs.expr e = signs.expr e'

theorem Expr.SameWeights.symm (h : e.SameWeights e') : e'.SameWeights e :=
  ⟨fun a => (h.multiplicity a).symm, h.sign.symm⟩

/-- Terms that no weight tells apart. -/
theorem Term.sameWeights_of_term_eq (hs : s.coeff ≠ 0) (ht : t.coeff ≠ 0)
    (h : ∀ {M : Type} [AddCommMonoid M] (w : Weight (· ≠ 0) M), w.term s = w.term t) :
    s.toExpr.SameWeights t.toExpr where
  multiplicity a := by
    rw [← a.expr_weight closed_ne_zero, Weight.expr_toExpr hs, Weight.expr_toExpr ht, h]
  sign := by
    rw [Weight.expr_toExpr hs, Weight.expr_toExpr ht, h]

open Canonical

/-! ## How often an atom divides -/

/-- In front of the next root a square-free term has every atom at most once. -/
theorem Term.count_le_one (hsplit : Integer.squareSplit? t.coeff = some ⟨1, t.coeff⟩)
    (hvars : ∀ q ∈ t.vars.entries, q.2 = 1) : t.count a ≤ 1 := by
  cases a with
  | prime p =>
      have hfree := squareFree_iff.mp (squareFree_of_split hsplit)
      exact hfree.natFactorization_le_one p
  | name x =>
      have hle : t.vars.exponent x ≤ 1 := Powers.exponentIn_le fun q hq => (hvars q hq).le
      rw [Term.count, Atom.inInt, Powers.count, Nat.zero_add]
      exact hle

/-- Whole numbers with halves of less than two each are equal one by one. -/
theorem eq_of_add_half_eq {m n : Nat} {x y : ℚ} (hx : 0 ≤ x) (hx' : x < 2) (hy : 0 ≤ y)
    (hy' : y < 2) (h : m + x / 2 = n + y / 2) : m = n ∧ x = y := by
  have hmn : m = n := by
    rcases Nat.lt_trichotomy m n with hlt | heq | hgt
    · have hcast : (m : ℚ) + 1 ≤ n := by exact_mod_cast hlt
      linarith
    · exact heq
    · have hcast : (n : ℚ) + 1 ≤ m := by exact_mod_cast hgt
      linarith
  subst hmn
  exact ⟨rfl, by linarith⟩

theorem Term.radicalMultiplicity_lt_two
    (h : ∀ r, t.radical = some r → 0 ≤ r.multiplicity a ∧ r.multiplicity a < 2) :
    0 ≤ t.radicalMultiplicity a ∧ t.radicalMultiplicity a < 2 := by
  rw [Term.radicalMultiplicity]
  cases hr : t.radical with
  | none => exact ⟨le_rfl, two_pos⟩
  | some r => exact h r hr

/-- An atom divides a radicand less than twice. -/
theorem Canonical.FixedRadicand.multiplicity_lt_two (h : FixedRadicand e)
    (hmonomial : e.Monomial (· ≠ 0)) : 0 ≤ e.multiplicity a ∧ e.multiplicity a < 2 := by
  induction h with
  | sum _ hunlike => exact absurd hunlike.op?_sumOf hmonomial.op?_ne_add
  | @term t _ hsplit hvars _ ih =>
      have ht := Term.monomial_of_toExpr closed_ne_zero hmonomial
      have hcount := Term.count_le_one (a := a) hsplit hvars
      have hradical := Term.radicalMultiplicity_lt_two fun r hr => ih r hr (ht.radical r hr)
      have hcast : (t.count a : ℚ) ≤ 1 := by exact_mod_cast hcount
      have hnonneg : (0 : ℚ) ≤ t.count a := Nat.cast_nonneg _
      rw [Term.multiplicity_toExpr ht.coeff, Term.multiplicity]
      constructor <;> linarith [hradical.1, hradical.2]

theorem Canonical.FixedTerm.radicalMultiplicity_lt_two (h : FixedTerm t)
    (hmonomial : t.Monomial (· ≠ 0)) :
    0 ≤ t.radicalMultiplicity a ∧ t.radicalMultiplicity a < 2 :=
  Term.radicalMultiplicity_lt_two fun r hr =>
    (h r hr).multiplicity_lt_two (hmonomial.radical r hr)

/-! ## Uniqueness -/

namespace Term

/-- The atoms in front of a root and the sign tell the coefficient and the
powers. -/
theorem eq_of_count_eq (hsign : Integer.signBit s.coeff = Integer.signBit t.coeff)
    (hs : s.coeff ≠ 0) (ht : t.coeff ≠ 0) (h : ∀ a, s.count a = t.count a) :
    s.coeff = t.coeff ∧ s.vars = t.vars := by
  constructor
  · have habs : s.coeff.natAbs = t.coeff.natAbs :=
      Nat.eq_of_factorization_eq (by omega) (by omega) fun p => h (.prime p)
    have hneg := Integer.signBit_eq_iff.mp hsign
    omega
  · exact Powers.ext_exponent fun x => by simpa [count, Atom.inInt, Powers.count] using h (.name x)

/-- The whole part of a multiplicity stands in front of the root and the rest
is under it. -/
theorem eq_of_sameWeights (hs : s.Monomial (· ≠ 0)) (ht : t.Monomial (· ≠ 0))
    (hsfixed : FixedTerm s) (htfixed : FixedTerm t) (h : s.toExpr.SameWeights t.toExpr) :
    s.coeff = t.coeff ∧ s.vars = t.vars ∧ s.radicand.SameWeights t.radicand := by
  have hparts : ∀ a, s.count a = t.count a ∧
      s.radicalMultiplicity a = t.radicalMultiplicity a := fun a => by
    obtain ⟨hs0, hs2⟩ := hsfixed.radicalMultiplicity_lt_two (a := a) hs
    obtain ⟨ht0, ht2⟩ := htfixed.radicalMultiplicity_lt_two (a := a) ht
    refine eq_of_add_half_eq hs0 hs2 ht0 ht2 ?_
    have hmultiplicity := h.multiplicity a
    rwa [multiplicity_toExpr hs.coeff, multiplicity_toExpr ht.coeff] at hmultiplicity
  -- the signs under the root are one deeper than that of the coefficient
  have hsigns := h.sign
  rw [Weight.expr_toExpr hs.coeff, Weight.expr_toExpr ht.coeff, signs_term, signs_term] at hsigns
  obtain ⟨hsign, hbelow⟩ := eq_of_single_add_deeper hsigns
  obtain ⟨hcoeff, hvars⟩ := eq_of_count_eq hsign hs.coeff ht.coeff fun a => (hparts a).1
  refine ⟨hcoeff, hvars, fun a => ?_, hbelow⟩
  rw [multiplicity_radicand, multiplicity_radicand, (hparts a).2]

end Term

/-- A radicand has a divisor or a sign. -/
theorem Canonical.FixedRadicand.not_sameWeights_one (h : FixedRadicand e)
    (hmonomial : e.Monomial (· ≠ 0)) : ¬ e.SameWeights (.num 1) := by
  induction h with
  | sum _ hunlike => exact absurd hunlike.op?_sumOf hmonomial.op?_ne_add
  | @term t hradical _ _ hone ih =>
      intro hsame
      have ht := Term.monomial_of_toExpr closed_ne_zero hmonomial
      obtain ⟨hcoeff, hvars, hradicand⟩ := Term.eq_of_sameWeights (t := .one) ht
        (Term.weighs_one closed_ne_zero (w := signs)).monomial hradical (fixedTerm_of_radical rfl)
        hsame
      cases hr : t.radical with
      | none => exact hone (Term.ext hcoeff hvars hr)
      | some r =>
          rw [Term.radicand, hr] at hradicand
          exact ih r hr (ht.radical r hr) hradicand

namespace Canonical

/-- Terms of the same weights are the same if their radicands are. -/
theorem FixedTerm.ext_sameWeights (hsfixed : FixedTerm s) (htfixed : FixedTerm t)
    (hs : s.Monomial (· ≠ 0)) (ht : t.Monomial (· ≠ 0)) (h : s.toExpr.SameWeights t.toExpr)
    (hradical : ∀ r r', s.radical = some r → t.radical = some r' → r.SameWeights r' → r = r') :
    s = t := by
  obtain ⟨hcoeff, hvars, hradicand⟩ := Term.eq_of_sameWeights hs ht hsfixed htfixed h
  refine Term.ext hcoeff hvars ?_
  rw [Term.radicand, Term.radicand] at hradicand
  cases hr : s.radical with
  | none =>
      cases hr' : t.radical with
      | none => rfl
      | some r' =>
          rw [hr, hr'] at hradicand
          exact absurd hradicand.symm
            ((htfixed r' hr').not_sameWeights_one (ht.radical r' hr'))
  | some r =>
      cases hr' : t.radical with
      | none =>
          rw [hr, hr'] at hradicand
          exact absurd hradicand ((hsfixed r hr).not_sameWeights_one (hs.radical r hr))
      | some r' =>
          rw [hr, hr'] at hradicand
          exact congrArg some (hradical r r' hr hr' hradicand)

theorem FixedRadicand.eq_of_sameWeights (h : FixedRadicand e) (h' : FixedRadicand e')
    (hmonomial : e.Monomial (· ≠ 0)) (hmonomial' : e'.Monomial (· ≠ 0))
    (hsame : e.SameWeights e') : e = e' := by
  induction h generalizing e' with
  | sum _ hunlike => exact absurd hunlike.op?_sumOf hmonomial.op?_ne_add
  | @term s hsfixed _ _ _ ih =>
      cases h' with
      | sum _ hunlike => exact absurd hunlike.op?_sumOf hmonomial'.op?_ne_add
      | @term t htfixed _ _ _ =>
          have hs := Term.monomial_of_toExpr closed_ne_zero hmonomial
          have ht := Term.monomial_of_toExpr closed_ne_zero hmonomial'
          exact congrArg Term.toExpr <| FixedTerm.ext_sameWeights hsfixed htfixed hs ht hsame
            fun r r' hr hr' =>
              ih r hr (htfixed r' hr') (hs.radical r hr) (ht.radical r' hr')

/-- Fixed monomials with the same divisors and signs are the same. -/
theorem FixedTerm.eq_of_sameWeights (hsfixed : FixedTerm s) (htfixed : FixedTerm t)
    (hs : s.Monomial (· ≠ 0)) (ht : t.Monomial (· ≠ 0)) (h : s.toExpr.SameWeights t.toExpr) :
    s = t :=
  hsfixed.ext_sameWeights htfixed hs ht h fun r r' hr hr' =>
    (hsfixed r hr).eq_of_sameWeights (htfixed r' hr') (hs.radical r hr) (ht.radical r' hr')

end Canonical

end Surd
