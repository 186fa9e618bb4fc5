import Mathlib.Tactic.NormNum
import Surd.Expr.RootMonomial
import Surd.Proofs.Expanded
import Surd.Proofs.Signs

/-!
# Monomials under roots have one simplified form

Without negative integers there are no signs, so how often each prime and each
variable divides it determines a simplified monomial. Raising an expression to
the power `2 ^ n` multiplies all these numbers by `2 ^ n`, and for a monomial
without roots they are its prime factors and its exponents.
-/

namespace Surd

variable {a : Atom} {bound n : Nat} {options : Options} {e e' l r : Expr} {s t : Term}

/-! ## Raised monomials -/

/-- How often an atom divides a monomial. -/
def Atom.inMonomial : Atom → Nat × Multiplicative (String → Nat) → Nat
  | .prime p, m => m.1.factorization p
  | .name x, m => m.2.toAdd x

namespace Atom

variable {m m' : Nat × Multiplicative (String → Nat)}

theorem inMonomial_int (c : Nat) : a.inMonomial (c, 1) = a.inInt c := by
  cases a <;> rfl

theorem inMonomial_single (x : String) (k : Nat) :
    a.inMonomial (1, .ofAdd (Pi.single x k)) = k * a.inVar x := by
  cases a with
  | prime p => exact inInt_one (a := .prime p)
  | name y =>
      show Pi.single (M := fun _ => Nat) x k y = _
      rw [Pi.single_apply, inVar]
      split
      · exact (Nat.mul_one k).symm
      · rfl

theorem inMonomial_mul (hm : m.1 ≠ 0) (hm' : m'.1 ≠ 0) :
    a.inMonomial (m * m') = a.inMonomial m + a.inMonomial m' := by
  cases a with
  | prime p => exact inInt_mul (a := .prime p) hm hm'
  | name x => rfl

theorem inMonomial_pow (m : Nat × Multiplicative (String → Nat)) (k : Nat) :
    a.inMonomial (m ^ k) = k * a.inMonomial m := by
  cases a with
  | prime p => exact inInt_pow (a := .prime p) m.1 k
  | name x => rfl

theorem eq_of_inMonomial (hm : m.1 ≠ 0) (hm' : m'.1 ≠ 0)
    (h : ∀ a : Atom, a.inMonomial m = a.inMonomial m') : m = m' := by
  refine Prod.ext ?_ (funext fun x => h (.name x))
  exact Nat.eq_of_factorization_eq hm hm' fun p => h (.prime p)

end Atom

namespace Expr

theorem RootMonomial.raised_ne_zero (h : e.RootMonomial) (n : Nat) : (e.raised n).1 ≠ 0 := by
  induction h generalizing n with
  | num hc => exact pow_ne_zero _ (by omega)
  | var => exact one_ne_zero
  | mul _ _ ihl ihr => exact mul_ne_zero (ihl n) (ihr n)
  | pow _ ih => exact pow_ne_zero _ (ih n)
  | root _ ih =>
      cases n with
      | zero => exact one_ne_zero
      | succ n => exact ih n

theorem RootMonomial.inMonomial_raised (h : e.RootMonomial) (hn : e.rootDepth ≤ n) :
    (a.inMonomial (e.raised n) : ℚ) = 2 ^ n * e.multiplicity a := by
  induction h generalizing n with
  | @num c hc =>
      have habs : c.toNat = c.natAbs := by omega
      rw [raised, Atom.inMonomial_int, Atom.inInt_pow, multiplicity, habs]
      push_cast
      rfl
  | @var x =>
      rw [raised, Atom.inMonomial_single, multiplicity]
      push_cast
      rfl
  | mul hl hr ihl ihr =>
      rw [rootDepth, Nat.max_le] at hn
      rw [raised, Atom.inMonomial_mul (hl.raised_ne_zero n) (hr.raised_ne_zero n), Nat.cast_add,
        ihl hn.1, ihr hn.2, multiplicity, mul_add]
  | @pow b k hb ih =>
      rw [rootDepth, Nat.max_le] at hn
      rw [raised, Atom.inMonomial_pow, Nat.cast_mul, ih hn.1, multiplicity]
      exact mul_left_comm _ _ _
  | root he ih =>
      cases n with
      | zero => exact absurd hn (Nat.not_succ_le_zero _)
      | succ n =>
          rw [raised, ih (Nat.le_of_succ_le_succ hn), multiplicity, pow_succ]
          ring

/-- Raised monomials are the same if every atom divides the expressions the
same number of times. -/
theorem RootMonomial.raised_eq_iff (h : e.RootMonomial) (h' : e'.RootMonomial)
    (hn : e.rootDepth ≤ n) (hn' : e'.rootDepth ≤ n) :
    e.raised n = e'.raised n ↔ ∀ a : Atom, e.multiplicity a = e'.multiplicity a := by
  have hpow : (2 : ℚ) ^ n ≠ 0 := pow_ne_zero n two_ne_zero
  constructor
  · intro heq a
    have hcast := h.inMonomial_raised (a := a) hn
    rw [heq, h'.inMonomial_raised hn'] at hcast
    exact (mul_left_cancel₀ hpow hcast).symm
  · intro hall
    refine Atom.eq_of_inMonomial (h.raised_ne_zero n) (h'.raised_ne_zero n) fun a => ?_
    rw [← Nat.cast_inj (R := ℚ), h.inMonomial_raised hn, h'.inMonomial_raised hn', hall a]

theorem isRootMonomial_bin {op : Op} : (Expr.bin op l r).isRootMonomial bound ↔
    op = .mul ∧ l.isRootMonomial bound ∧ r.isRootMonomial bound := by
  simp [isRootMonomial, and_assoc]

theorem isRootMonomial_pow {b p : Expr} : (Expr.pow b p).isRootMonomial bound ↔
    ∃ k : Nat, p = .num k ∧ k ≤ bound ∧ b.isRootMonomial bound := by
  rw [isRootMonomial, Bool.and_eq_true, exponent?_any_le]
  constructor
  · rintro ⟨hb, k, rfl, hle⟩
    exact ⟨k, rfl, hle, hb⟩
  · rintro ⟨k, rfl, hle, hb⟩
    exact ⟨hb, k, rfl, hle⟩

theorem rootMonomial_of_isRootMonomial (h : e.isRootMonomial bound) : e.RootMonomial := by
  induction e with
  | num n => exact .num (decide_eq_true_iff.mp h)
  | var x => exact .var
  | root e ih => exact .root (ih h)
  | pow b p ihb _ =>
      obtain ⟨k, rfl, -, hb⟩ := isRootMonomial_pow.mp h
      exact .pow (ihb hb)
  | bin op l r ihl ihr =>
      obtain ⟨rfl, hl, hr⟩ := isRootMonomial_bin.mp h
      exact .mul (ihl hl) (ihr hr)

theorem multiplies_of_isRootMonomial (h : e.isRootMonomial bound) :
    e.Multiplies true bound := by
  induction e with
  | num n => exact .num
  | var x => exact .var
  | root e ih => exact .root rfl (ih h)
  | pow b p ihb _ =>
      obtain ⟨k, rfl, hle, hb⟩ := isRootMonomial_pow.mp h
      exact .pow hle (ihb hb)
  | bin op l r ihl ihr =>
      obtain ⟨rfl, hl, hr⟩ := isRootMonomial_bin.mp h
      exact .bin (by decide) (ihl hl) (ihr hr)

end Expr

/-! ## Simplified monomials -/

open Canonical

theorem Expr.RootMonomial.signs_eq_zero (h : e.RootMonomial) : signs.expr e = 0 := by
  induction h with
  | num hn => exact signs_int hn
  | var => rfl
  | mul _ _ ihl ihr => rw [Weight.expr, ihl, ihr, add_zero]
  | pow _ ih => rw [Weight.expr, ih, nsmul_zero]
  | root _ ih => rw [Weight.expr, ih, map_zero]

theorem Term.RootMonomial.monomial (h : t.RootMonomial) : t.Monomial (· ≠ 0) :=
  ⟨h.coeff_pos.ne', fun r hr => (Expr.rootMonomial_iff.mp (h.radical r hr)).mono fun _ hn => hn.ne'⟩

theorem Term.rootMonomial_of_toExpr (h : t.toExpr.RootMonomial) : t.RootMonomial :=
  rootMonomial_iff.mpr (monomial_of_toExpr closed_pos (Expr.rootMonomial_iff.mp h))

/-- A simplified monomial is a term, unless it is a power that is too large to
be in one. -/
theorem Simplest.term_or_varPow (h : Simplest true e) (hmonomial : e.RootMonomial) :
    (∃ t, FixedTerm t ∧ t.RootMonomial ∧ e = t.toExpr) ∨
      ∃ x k, maxExponent < k ∧ e = .pow (.var x) (.num (k : Nat)) := by
  cases h with
  | @term t ht _ => exact .inl ⟨t, ht, Term.rootMonomial_of_toExpr hmonomial, rfl⟩
  | sum _ hunlike => exact absurd hunlike.op?_sumOf hmonomial.op?_ne_add
  | @varPow x k hk =>
      by_cases hle : k ≤ maxExponent
      · refine .inl ⟨⟨1, .ofVarPow x k (by omega) hle, none⟩, fixedTerm_of_radical rfl,
          ⟨Int.one_pos, nofun⟩, ?_⟩
        rw [Term.toExpr_ofVarPow, Expr.varPow, if_neg (by omega)]
      · exact .inr ⟨x, k, by omega, rfl⟩

/-- A variable does not divide a term more often than its exponents allow. -/
theorem Term.multiplicity_name_lt (ht : t.RootMonomial) (hfixed : FixedTerm t) (x : String) :
    t.toExpr.multiplicity (.name x) < maxExponent + 1 := by
  have hradical := hfixed.radicalMultiplicity_lt_two (a := .name x) ht.monomial
  have hcount : t.count (.name x) ≤ maxExponent := by
    rw [count, Atom.inInt, Nat.zero_add]
    exact t.vars.exponent_le x
  have hcast : (t.count (.name x) : ℚ) ≤ maxExponent := Nat.cast_le.mpr hcount
  rw [multiplicity_toExpr ht.coeff_pos.ne', Term.multiplicity]
  linarith [hradical.2]

theorem Expr.multiplicity_name_pow {x y : String} {k : Nat} :
    (Expr.pow (.var y) (.num k)).multiplicity (.name x) = if x = y then k else 0 := by
  rw [multiplicity_pow_num, multiplicity, Atom.inVar]
  split <;> simp

theorem Simplest.eq_of_multiplicity_eq (h : Simplest true e) (h' : Simplest true e')
    (hmonomial : e.RootMonomial) (hmonomial' : e'.RootMonomial)
    (hall : ∀ a, e.multiplicity a = e'.multiplicity a) : e = e' := by
  have hlarge {t : Term} {x : String} {k : Nat} (ht : t.RootMonomial) (hfixed : FixedTerm t)
      (hk : maxExponent < k) : t.toExpr.multiplicity (.name x) ≠
        (Expr.pow (.var x) (.num k)).multiplicity (.name x) := by
    have hlt := Term.multiplicity_name_lt ht hfixed x
    have hcast : (maxExponent : ℚ) + 1 ≤ k := by exact_mod_cast hk
    rw [Expr.multiplicity_name_pow, if_pos rfl]
    exact (lt_of_lt_of_le hlt hcast).ne
  rcases h.term_or_varPow hmonomial with ⟨s, hsfixed, hs, rfl⟩ | ⟨x, k, hk, rfl⟩
  · rcases h'.term_or_varPow hmonomial' with ⟨t, htfixed, ht, rfl⟩ | ⟨x, k, hk, rfl⟩
    · refine congrArg Term.toExpr ?_
      refine hsfixed.eq_of_sameWeights htfixed hs.monomial ht.monomial ⟨hall, ?_⟩
      rw [hmonomial.signs_eq_zero, hmonomial'.signs_eq_zero]
    · exact absurd (hall (.name x)) (hlarge hs hsfixed hk)
  · rcases h'.term_or_varPow hmonomial' with ⟨t, htfixed, ht, rfl⟩ | ⟨y, j, hj, rfl⟩
    · exact absurd (hall (.name x)).symm (hlarge ht htfixed hk)
    · have hname := hall (.name x)
      rw [Expr.multiplicity_name_pow, Expr.multiplicity_name_pow, if_pos rfl] at hname
      by_cases hxy : x = y
      · rw [if_pos hxy] at hname
        rw [hxy, Nat.cast_injective hname]
      · rw [if_neg hxy] at hname
        exact absurd (Nat.cast_eq_zero.mp hname) (by omega)

/-- Two monomials under roots simplify to the same expression if and only if
some power of two turns them into the same monomial. -/
theorem simplify_eq_iff_raised_eq {e₁ e₂ e₁' e₂' : Expr}
    (he₁ : e₁.isRootMonomial options.maxExpansion) (he₂ : e₂.isRootMonomial options.maxExpansion)
    (hn₁ : e₁.rootDepth ≤ n) (hn₂ : e₂.rootDepth ≤ n) (h₁ : simplify options e₁ = .ok e₁')
    (h₂ : simplify options e₂ = .ok e₂') : e₁' = e₂' ↔ e₁.raised n = e₂.raised n := by
  have hm₁ := Expr.rootMonomial_of_isRootMonomial he₁
  have hm₂ := Expr.rootMonomial_of_isRootMonomial he₂
  have hmeasures₁ (a : Atom) := measures_simplify (a := a) hm₁ h₁
  have hmeasures₂ (a : Atom) := measures_simplify (a := a) hm₂ h₂
  rw [hm₁.raised_eq_iff hm₂ hn₁ hn₂]
  constructor
  · rintro rfl a
    rw [← (hmeasures₁ a).multiplicity, (hmeasures₂ a).multiplicity]
  · intro hall
    refine (simplest_simplify (Expr.multiplies_of_isRootMonomial he₁) h₁).eq_of_multiplicity_eq
      (simplest_simplify (Expr.multiplies_of_isRootMonomial he₂) h₂)
      (hmeasures₁ (.prime 2)).rootMonomial (hmeasures₂ (.prime 2)).rootMonomial fun a => ?_
    rw [(hmeasures₁ a).multiplicity, (hmeasures₂ a).multiplicity, hall a]

/-- `√(a√(4a^2))`. -/
def rootOfProduct : Expr :=
  .root (.bin .mul (.var "a") (.root (.bin .mul (.num 4) (.pow (.var "a") (.num 2)))))

/-- `√√(4a^4)`. -/
def rootOfRoot : Expr :=
  .root (.root (.bin .mul (.num 4) (.pow (.var "a") (.num 4))))

/-- Both come out as `a√2`, and the fourth power of both is `4a^4`. -/
theorem simplify_eq_rootOfProduct_rootOfRoot :
    rootOfProduct.isRootMonomial ({} : Options).maxExpansion ∧
      rootOfRoot.isRootMonomial ({} : Options).maxExpansion ∧
      rootOfProduct.rootDepth ≤ 2 ∧ rootOfRoot.rootDepth ≤ 2 ∧
      simplify {} rootOfProduct = .ok (.bin .mul (.var "a") (.root (.num 2))) ∧
      simplify {} rootOfRoot = .ok (.bin .mul (.var "a") (.root (.num 2))) ∧
      rootOfProduct.raised 2 = rootOfRoot.raised 2 := by
  have h₁ : rootOfProduct.isRootMonomial ({} : Options).maxExpansion := by rfl
  have h₂ : rootOfRoot.isRootMonomial ({} : Options).maxExpansion := by rfl
  have hn₁ : rootOfProduct.rootDepth ≤ 2 := by decide
  have hn₂ : rootOfRoot.rootDepth ≤ 2 := by decide
  have hok₁ : simplify {} rootOfProduct = .ok (.bin .mul (.var "a") (.root (.num 2))) := by rfl
  have hok₂ : simplify {} rootOfRoot = .ok (.bin .mul (.var "a") (.root (.num 2))) := by rfl
  exact ⟨h₁, h₂, hn₁, hn₂, hok₁, hok₂,
    (simplify_eq_iff_raised_eq h₁ h₂ hn₁ hn₂ hok₁ hok₂).mp rfl⟩

end Surd
