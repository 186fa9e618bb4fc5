import Mathlib.Algebra.MvPolynomial.Funext
import Surd.Expr.Polynomial
import Surd.Proofs.Expanded
import Surd.Proofs.Preservation

/-!
# Simplification decides polynomial identity

Simplifying an expression that stands for a polynomial lists the monomials of
that polynomial, in some order. The result is a sum of written monomials no two
of which have the same exponents, and it has the value of the expression
wherever the variables are positive real numbers. A polynomial is determined
by its values there, so the written monomials are its own.
-/

namespace Surd

variable {bound : Nat} {options : Options} {e e' : Expr} {t : Term}
  {m : String →₀ ℕ} {c : ℤ} {L : List ((String →₀ ℕ) × ℤ)}

/-! ## Lists of monomials -/

theorem coeff_sum_of_not_mem (h : m ∉ L.map Prod.fst) :
    ((L.map fun q => MvPolynomial.monomial q.1 q.2).sum).coeff m = 0 := by
  induction L with
  | nil => exact MvPolynomial.coeff_zero m
  | cons q L ih =>
      rw [List.map_cons, List.mem_cons, not_or] at h
      rw [List.map_cons, List.sum_cons, MvPolynomial.coeff_add, ih h.2,
        MvPolynomial.coeff_monomial, if_neg (Ne.symm h.1), add_zero]

theorem coeff_sum_of_mem (hnodup : (L.map Prod.fst).Nodup) {q : (String →₀ ℕ) × ℤ} (hq : q ∈ L) :
    ((L.map fun q => MvPolynomial.monomial q.1 q.2).sum).coeff q.1 = q.2 := by
  induction L with
  | nil => cases hq
  | cons q' L ih =>
      rw [List.map_cons, List.nodup_cons] at hnodup
      rw [List.map_cons, List.sum_cons, MvPolynomial.coeff_add, MvPolynomial.coeff_monomial]
      rcases List.mem_cons.mp hq with rfl | hq
      · rw [if_pos rfl, coeff_sum_of_not_mem hnodup.1, add_zero]
      · have hne : q'.1 ≠ q.1 := fun heq => hnodup.1 (heq ▸ List.mem_map_of_mem hq)
        rw [if_neg hne, ih hnodup.2 hq, zero_add]

/-- A sum of monomials with different exponents shows them all. -/
theorem support_sum (hnodup : (L.map Prod.fst).Nodup) (hne : ∀ q ∈ L, q.2 ≠ 0) :
    ((L.map fun q => MvPolynomial.monomial q.1 q.2).sum).support.val = L.map Prod.fst := by
  have hsupport : ((L.map fun q => MvPolynomial.monomial q.1 q.2).sum).support =
      (L.map Prod.fst).toFinset := by
    ext m
    rw [MvPolynomial.mem_support_iff, List.mem_toFinset]
    constructor
    · intro hcoeff
      by_contra hmem
      exact hcoeff (coeff_sum_of_not_mem hmem)
    · intro hmem
      obtain ⟨q, hq, rfl⟩ := List.mem_map.mp hmem
      rw [coeff_sum_of_mem hnodup hq]
      exact hne q hq
  rw [hsupport, List.toFinset_val, hnodup.dedup]

/-! ## Expressions that stand for polynomials -/

namespace Expr

theorem isPolynomial_bin {op : Op} {l r : Expr} : (Expr.bin op l r).isPolynomial bound ↔
    op ≠ .div ∧ l.isPolynomial bound ∧ r.isPolynomial bound := by
  simp [isPolynomial, and_assoc]

theorem isPolynomial_pow {b p : Expr} : (Expr.pow b p).isPolynomial bound ↔
    ∃ k : Nat, p = .num k ∧ k ≤ bound ∧ b.isPolynomial bound := by
  rw [isPolynomial, Bool.and_eq_true, exponent?_any_le]
  constructor
  · rintro ⟨hb, k, rfl, hle⟩
    exact ⟨k, rfl, hle, hb⟩
  · rintro ⟨k, rfl, hle, hb⟩
    exact ⟨hb, k, rfl, hle⟩

end Expr

/-! ## Values -/

section Value

variable {F : Type _} [Field F] [LinearOrder F] {A : Arithmetic F} {env : String → F}
  (hA : A.Lawful)
include hA

theorem Expr.value_eq_aeval (h : e.isPolynomial bound) :
    e.value A env = MvPolynomial.aeval env e.polynomial := by
  induction e with
  | num n => rw [value, hA.int, polynomial, MvPolynomial.aeval_C, eq_intCast]
  | var x => rw [value, polynomial, MvPolynomial.aeval_X]
  | root e => cases h
  | pow b p ihb _ =>
      obtain ⟨k, rfl, -, hb⟩ := isPolynomial_pow.mp h
      rw [value_pow_num hA, ihb hb, polynomial, map_pow]
      rfl
  | bin op l r ihl ihr =>
      obtain ⟨hop, hl, hr⟩ := isPolynomial_bin.mp h
      cases op with
      | add => rw [value, hA.add, ihl hl, ihr hr, polynomial, map_add]
      | sub => rw [value, hA.sub, ihl hl, ihr hr, polynomial, map_sub]
      | mul => rw [value, hA.mul, ihl hl, ihr hr, polynomial, map_mul]
      | div => exact absurd rfl hop

theorem Expr.value_monomial (m : String →₀ ℕ) (c : ℤ) :
    (Expr.monomial m c).value A env = MvPolynomial.aeval env (MvPolynomial.monomial m c) := by
  have hcoeff : ((if c = 1 then [] else [Expr.num c]).map (value A env)).prod = (c : F) := by
    split
    · next hone => rw [hone, Int.cast_one]; rfl
    · rw [List.map_singleton, List.prod_singleton, value, hA.int]
  have hvars : (((m.support.sort (· ≤ ·)).map fun x => varPow x (m x)).map (value A env)).prod =
      m.prod fun x k => env x ^ k := by
    rw [List.map_map, ← List.prod_toFinset _ (Finset.sort_nodup _ _), Finset.sort_toFinset]
    exact Finset.prod_congr rfl fun x _ => value_varPow hA
  rw [Expr.monomial, value_product hA, List.map_append, List.prod_append, hcoeff, hvars,
    MvPolynomial.aeval_monomial, eq_intCast]

theorem Expr.sum_value_terms : (e.terms.map (value A env)).sum = e.value A env := by
  rw [terms]
  split
  · next hzero => rw [hzero, value, hA.int, Int.cast_zero]; rfl
  · exact sum_value_addends hA

end Value

/-- Polynomials are equal if they have the same values at positive numbers. -/
theorem polynomial_ext {p q : MvPolynomial String ℤ}
    (h : ∀ env : String → ℝ, (∀ x, 0 < env x) →
      MvPolynomial.aeval env p = MvPolynomial.aeval env q) : p = q := by
  refine MvPolynomial.map_injective (Int.castRingHom ℝ) Int.cast_injective ?_
  refine MvPolynomial.funext_set (fun _ => Set.Ioi 0) (fun _ => Set.Ioi_infinite 0)
    fun env henv => ?_
  rw [MvPolynomial.eval_map, MvPolynomial.eval_map]
  exact h env fun x => henv x (Set.mem_univ x)

/-! ## Written monomials -/

namespace Powers

theorem exponentIn_of_mem {ps : List (String × Nat)} (hps : ps.Pairwise fun p q => p.1 < q.1)
    {q : String × Nat} (hq : q ∈ ps) : exponentIn q.1 ps = q.2 := by
  induction ps with
  | nil => cases hq
  | cons p ps ih =>
      obtain ⟨hp, hps⟩ := List.pairwise_cons.mp hps
      rw [exponentIn]
      rcases List.mem_cons.mp hq with rfl | hq
      · rw [if_pos rfl]
      · rw [if_neg (ne_of_gt (hp q hq)), ih hps hq]

theorem exponent_ne_zero_iff {p : Powers} {x : String} :
    p.exponent x ≠ 0 ↔ x ∈ p.entries.map Prod.fst := by
  constructor
  · intro hne
    by_contra hmem
    exact hne (exponentIn_of_not_mem hmem)
  · intro hmem
    obtain ⟨q, hq, rfl⟩ := List.mem_map.mp hmem
    rw [exponent, exponentIn_of_mem p.sorted hq]
    exact (p.bounded q hq).1.ne'

/-- The exponents by name. -/
def exponents (p : Powers) : String →₀ ℕ where
  support := (p.entries.map Prod.fst).toFinset
  toFun := p.exponent
  mem_support_toFun _ := List.mem_toFinset.trans exponent_ne_zero_iff.symm

theorem exponents_injective {p q : Powers} (h : p.exponents = q.exponents) : p = q :=
  ext_exponent fun x => DFunLike.congr_fun h x

theorem sort_support_exponents (p : Powers) :
    p.exponents.support.sort (· ≤ ·) = p.entries.map Prod.fst := by
  have hsorted : (p.entries.map Prod.fst).Pairwise (· < ·) := List.pairwise_map.mpr p.sorted
  exact (List.toFinset_sort _ hsorted.nodup).mpr (hsorted.imp le_of_lt)

end Powers

/-- A term without a root is written as a monomial. -/
theorem Expr.monomial_exponents (hcoeff : t.coeff ≠ 0) (hradical : t.radical = none) :
    Expr.monomial t.vars.exponents t.coeff = t.toExpr := by
  have hvars : (t.vars.entries.map Prod.fst).map (fun x => varPow x (t.vars.exponents x)) =
      t.vars.entries.map fun q => varPow q.1 q.2 := by
    rw [List.map_map]
    refine List.map_congr_left fun q hq => ?_
    exact congrArg (varPow q.1) (Powers.exponentIn_of_mem t.vars.sorted hq)
  rw [Expr.monomial, Powers.sort_support_exponents, hvars, Term.toExpr, if_neg hcoeff,
    Term.toFactors, hradical, Option.map_none, Option.toList_none, List.append_nil]

theorem Expr.monomial_single {x : String} {k : ℕ} (hk : 2 ≤ k) :
    Expr.monomial (Finsupp.single x k) 1 = .pow (.var x) (.num k) := by
  rw [Expr.monomial, Finsupp.support_single _ (by omega), Finset.sort_singleton]
  simp [varPow, product, chain?, show k ≠ 1 by omega]

theorem Expr.isPolynomial_monomial (h : ∀ x, m x ≤ bound) :
    (Expr.monomial m c).isPolynomial bound := by
  have hmul (l r : Expr) : (Expr.bin .mul l r).isPolynomial bound ↔
      l.isPolynomial bound ∧ r.isPolynomial bound := by
    simp [isPolynomial_bin]
  refine property_product (P := fun e => e.isPolynomial bound) hmul rfl fun f hf => ?_
  rcases List.mem_append.mp hf with hf | hf
  · split at hf
    · cases hf
    · exact List.mem_singleton.mp hf ▸ rfl
  · obtain ⟨x, -, rfl⟩ := List.mem_map.mp hf
    rw [varPow]
    split
    · rfl
    · exact isPolynomial_pow.mpr ⟨m x, rfl, h x, rfl⟩

/-- A written monomial stands for that monomial. -/
theorem Expr.polynomial_monomial (m : String →₀ ℕ) (c : ℤ) :
    (Expr.monomial m c).polynomial = MvPolynomial.monomial m c := by
  have hbound (x : String) : m x ≤ m.support.sup m := by
    by_cases hx : x ∈ m.support
    · exact Finset.le_sup hx
    · rw [Finsupp.notMem_support_iff.mp hx]
      exact Nat.zero_le _
  refine polynomial_ext fun env _ => ?_
  rw [← value_eq_aeval Arithmetic.lawful_real (isPolynomial_monomial hbound),
    value_monomial Arithmetic.lawful_real]

/-- The terms of an expression are written monomials, with coefficients that
are not zero and no two of them with the same exponents. -/
structure Expr.Lists (e : Expr) (L : List ((String →₀ ℕ) × ℤ)) : Prop where
  nodup : (L.map Prod.fst).Nodup
  coeff_ne_zero : ∀ q ∈ L, q.2 ≠ 0
  terms : e.terms = L.map fun q => monomial q.1 q.2

theorem Expr.terms_of_ne (h : e ≠ .num 0) : e.terms = e.addends :=
  if_neg h

theorem Expr.terms_of_op? (h : e ≠ .num 0) (hop : e.op? ≠ some .add) : e.terms = [e] := by
  rw [terms_of_ne h, addends, operands_eq_singleton hop]

theorem Term.toExpr_ne_zero (hcoeff : t.coeff ≠ 0) : t.toExpr ≠ .num 0 := by
  intro hzero
  by_cases hone : t = .one
  · rw [hone, toExpr_one] at hzero
    cases hzero
  · have hfactors := factors_toExpr hcoeff hone
    rw [hzero] at hfactors
    have hmem : .num 0 ∈ t.toFactors := hfactors ▸ List.mem_singleton_self _
    rcases mem_toFactors.mp hmem with ⟨-, hnum⟩ | ⟨q, -, hpow⟩ | ⟨r, -, hroot⟩
    · exact hcoeff (Expr.num.inj hnum).symm
    · rw [Expr.varPow] at hpow
      split at hpow <;> cases hpow
    · cases hroot

theorem Term.radical_eq_none (h : t.Expanded false) : t.radical = none := by
  cases hr : t.radical with
  | none => rfl
  | some r => cases (h r hr).1

open Canonical in
theorem exists_lists (h : Simplest false e) : ∃ L, e.Lists L := by
  cases h with
  | @term t _ ht =>
      by_cases hcoeff : t.coeff = 0
      · refine ⟨[], List.nodup_nil, List.forall_mem_nil _, ?_⟩
        rw [Term.toExpr_zero hcoeff]
        rfl
      · refine ⟨[(t.vars.exponents, t.coeff)], List.nodup_singleton _, ?_, ?_⟩
        · exact List.forall_mem_singleton.mpr hcoeff
        · rw [Expr.terms_of_op? (Term.toExpr_ne_zero hcoeff) Term.op?_toExpr_ne_add,
            List.map_singleton, Expr.monomial_exponents hcoeff (Term.radical_eq_none ht)]
  | @sum ts hts hunlike =>
      refine ⟨ts.map fun t => (t.vars.exponents, t.coeff), ?_, ?_, ?_⟩
      · -- terms without roots are alike if they have the same powers
        rw [List.map_map]
        refine List.Nodup.map_on (fun s hs t ht heq => ?_) hunlike.nodup.of_map
        have halike : s.Alike t := ⟨Powers.exponents_injective heq, by
          rw [Term.radical_eq_none (hts s hs), Term.radical_eq_none (hts t ht)]⟩
        exact List.inj_on_of_nodup_map hunlike.nodup hs ht halike.key_eq
      · intro q hq
        obtain ⟨t, ht, rfl⟩ := List.mem_map.mp hq
        exact hunlike.coeff_ne_zero t ht
      · have hne : sumOf ts ≠ .num 0 := fun hzero => by
          have hop := hunlike.op?_sumOf
          rw [hzero] at hop
          cases hop
        rw [Expr.terms_of_ne hne, hunlike.addends_sumOf, List.map_map]
        refine List.map_congr_left fun t ht => ?_
        exact (Expr.monomial_exponents (hunlike.coeff_ne_zero t ht)
          (Term.radical_eq_none (hts t ht))).symm
  | @varPow x k hk =>
      refine ⟨[(Finsupp.single x k, 1)], List.nodup_singleton _, ?_, ?_⟩
      · exact List.forall_mem_singleton.mpr one_ne_zero
      · rw [List.map_singleton, Expr.monomial_single hk]
        rfl

theorem Expr.Lists.polynomial_eq (h : e.Lists L) {p : MvPolynomial String ℤ}
    (hvalue : ∀ env : String → ℝ, (∀ x, 0 < env x) →
      e.value Arithmetic.real env = MvPolynomial.aeval env p) :
    p = (L.map fun q => MvPolynomial.monomial q.1 q.2).sum := by
  refine polynomial_ext fun env henv => ?_
  rw [← hvalue env henv, ← Expr.sum_value_terms Arithmetic.lawful_real, h.terms, map_list_sum,
    List.map_map, List.map_map]
  exact congrArg List.sum <| List.map_congr_left fun q _ =>
    Expr.value_monomial Arithmetic.lawful_real q.1 q.2

/-! ## Simplification -/

theorem Expr.multiplies_of_isPolynomial (h : e.isPolynomial bound) :
    e.Multiplies false bound := by
  induction e with
  | num n => exact .num
  | var x => exact .var
  | root e => cases h
  | pow b p ihb _ =>
      obtain ⟨k, rfl, hle, hb⟩ := isPolynomial_pow.mp h
      exact .pow hle (ihb hb)
  | bin op l r ihl ihr =>
      obtain ⟨hop, hl, hr⟩ := isPolynomial_bin.mp h
      exact .bin hop (ihl hl) (ihr hr)

theorem Expr.radicandValues_of_isPolynomial {α : Type _} {A : Arithmetic α} {env : String → α}
    (h : e.isPolynomial bound) : e.radicandValues A env = [] := by
  induction e with
  | num n => rfl
  | var x => rfl
  | root e => cases h
  | pow b p ihb _ =>
      obtain ⟨k, rfl, -, hb⟩ := isPolynomial_pow.mp h
      rw [radicandValues, ihb hb, radicandValues, List.append_nil]
  | bin op l r ihl ihr =>
      obtain ⟨-, hl, hr⟩ := isPolynomial_bin.mp h
      rw [radicandValues, ihl hl, ihr hr, List.append_nil]

/-- The result has the values of the polynomial. -/
theorem value_simplify_polynomial (he : e.isPolynomial options.maxExpansion)
    (hletters : e.allVars Expr.isLetter) (h : simplify options e = .ok e') {env : String → ℝ}
    (henv : ∀ x, 0 < env x) :
    e'.value Arithmetic.real env = MvPolynomial.aeval env e.polynomial := by
  have hdefined : e.Defined Arithmetic.real env := by
    refine ⟨hletters, ?_⟩
    rw [Expr.radicandValues_of_isPolynomial he]
    exact List.forall_mem_nil _
  have hmeans := (preserves_level Arithmetic.lawful_real henv options _).simplify h hdefined
  rw [hmeans.value, Expr.value_eq_aeval Arithmetic.lawful_real he]

theorem sum_polynomial_terms (he : e.isPolynomial options.maxExpansion)
    (hletters : e.allVars Expr.isLetter) (h : simplify options e = .ok e') :
    (e'.terms.map Expr.polynomial).sum = e.polynomial := by
  obtain ⟨L, hL⟩ := exists_lists (simplest_simplify (Expr.multiplies_of_isPolynomial he) h)
  rw [hL.polynomial_eq fun env henv => value_simplify_polynomial he hletters h henv, hL.terms,
    List.map_map]
  exact congrArg List.sum (List.map_congr_left fun q _ => Expr.polynomial_monomial q.1 q.2)

theorem terms_simplify (he : e.isPolynomial options.maxExpansion)
    (hletters : e.allVars Expr.isLetter) (h : simplify options e = .ok e') :
    (e'.terms : Multiset Expr) =
      e.polynomial.support.val.map fun m => Expr.monomial m (e.polynomial.coeff m) := by
  obtain ⟨L, hL⟩ := exists_lists (simplest_simplify (Expr.multiplies_of_isPolynomial he) h)
  rw [hL.polynomial_eq fun env henv => value_simplify_polynomial he hletters h henv,
    support_sum hL.nodup hL.coeff_ne_zero, hL.terms, Multiset.map_coe, List.map_map]
  refine congrArg _ (List.map_congr_left fun q hq => ?_)
  exact congrArg (Expr.monomial q.1) (coeff_sum_of_mem hL.nodup hq).symm

/-- Simplifying an expression that stands for a polynomial fails on nothing but
the limits of exponents and of the depth, and otherwise lists the monomials of
the polynomial, each of them once. Two such expressions therefore come out with
the same terms if and only if they stand for the same polynomial. -/
theorem simplify_polynomial (he : e.isPolynomial options.maxExpansion)
    (hletters : e.allVars Expr.isLetter) :
    (∀ op x, simplify options e ≠ .error (.unsupported op x)) ∧
      (∀ n, simplify options e ≠ .error (.radicandTooLarge n)) ∧
      (∀ e', simplify options e = .ok e' → (e'.terms : Multiset Expr) =
        e.polynomial.support.val.map fun m => Expr.monomial m (e.polynomial.coeff m)) ∧
      ∀ options₂ e₂ e' e₂', e₂.isPolynomial options₂.maxExpansion → e₂.allVars Expr.isLetter →
        simplify options e = .ok e' → simplify options₂ e₂ = .ok e₂' →
        ((e'.terms : Multiset Expr) = e₂'.terms ↔ e.polynomial = e₂.polynomial) := by
  have hyields := expanded_simplify (Expr.multiplies_of_isPolynomial he)
  refine ⟨fun op x hx => ?_, fun n hn => ?_, fun e' h => terms_simplify he hletters h, ?_⟩
  · rw [hx] at hyields
    exact hyields
  · rw [hn] at hyields
    cases hyields
  · intro options₂ e₂ e' e₂' he₂ hletters₂ h h₂
    constructor
    · intro hterms
      have hperm := (Multiset.coe_eq_coe.mp hterms).map Expr.polynomial
      rw [← sum_polynomial_terms he hletters h, hperm.sum_eq,
        sum_polynomial_terms he₂ hletters₂ h₂]
    · intro hpolynomial
      rw [terms_simplify he hletters h, terms_simplify he₂ hletters₂ h₂, hpolynomial]

/-- `(x + y)^3 - (x^3 + y^3)`. -/
def mixedTerms : Expr :=
  .bin .sub (.pow (.bin .add (.var "x") (.var "y")) (.num 3))
    (.bin .add (.pow (.var "x") (.num 3)) (.pow (.var "y") (.num 3)))

/-- `(y + x)(x(3y))`. -/
def factoredTerms : Expr :=
  .bin .mul (.bin .add (.var "y") (.var "x"))
    (.bin .mul (.var "x") (.bin .mul (.num 3) (.var "y")))

/-- One comes out as `3x^2y + 3xy^2` and the other as `3xy^2 + 3x^2y`, so they
stand for the same polynomial. -/
theorem simplify_polynomial_mixedTerms :
    mixedTerms.isPolynomial ({} : Options).maxExpansion ∧ mixedTerms.allVars Expr.isLetter ∧
      factoredTerms.isPolynomial ({} : Options).maxExpansion ∧ factoredTerms.allVars Expr.isLetter ∧
      simplify {} mixedTerms = .ok (.sum
        [.product [.num 3, .pow (.var "x") (.num 2), .var "y"],
          .product [.num 3, .var "x", .pow (.var "y") (.num 2)]]) ∧
      simplify {} factoredTerms = .ok (.sum
        [.product [.num 3, .var "x", .pow (.var "y") (.num 2)],
          .product [.num 3, .pow (.var "x") (.num 2), .var "y"]]) ∧
      mixedTerms.polynomial = factoredTerms.polynomial := by
  have h : mixedTerms.isPolynomial ({} : Options).maxExpansion := by rfl
  have hletters : mixedTerms.allVars Expr.isLetter := by decide
  have h₂ : factoredTerms.isPolynomial ({} : Options).maxExpansion := by rfl
  have hletters₂ : factoredTerms.allVars Expr.isLetter := by decide
  have hok : simplify {} mixedTerms = .ok (.sum
      [.product [.num 3, .pow (.var "x") (.num 2), .var "y"],
        .product [.num 3, .var "x", .pow (.var "y") (.num 2)]]) := by rfl
  have hok₂ : simplify {} factoredTerms = .ok (.sum
      [.product [.num 3, .var "x", .pow (.var "y") (.num 2)],
        .product [.num 3, .pow (.var "x") (.num 2), .var "y"]]) := by rfl
  have hdecides := (simplify_polynomial h hletters).2.2.2
  refine ⟨h, hletters, h₂, hletters₂, hok, hok₂, ?_⟩
  exact (hdecides {} _ _ _ h₂ hletters₂ hok hok₂).mp (Multiset.coe_eq_coe.mpr (.swap _ _ _))

end Surd
