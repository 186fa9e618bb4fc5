import Surd.Proofs.Combine
import Surd.Proofs.Leftovers
import Surd.Proofs.SquareSplit

/-!
# What simplification leads to

The canonical form says what a simplified expression looks like. `Fixed` says
two things more, both about what the simplifier can find out again. The
coefficient under a root is not just square-free, its split is found and
leaves it alone; a large product of two primes is square-free, but asking for
its split is an error. And a power that was kept although its exponent is
small enough was kept because its base does not multiply.

The first half of this file is that every result is `Fixed`. The invariant the
operations carry is about roots alone: a factor of a product may be anything,
but when it is a root, what is under it is fixed (`RootsFixed`).
-/

namespace Surd.Canonical

/-- A canonical radicand whose split is found. -/
inductive FixedRadicand : Expr → Prop where
  | term {t : Term} : (∀ e, t.radical = some e → FixedRadicand e) →
      Integer.squareSplit? t.coeff = some ⟨1, t.coeff⟩ →
      (∀ p ∈ t.vars.entries, p.2 = 1) → t ≠ .one → FixedRadicand t.toExpr
  | sum {ts : List Term} : (∀ t ∈ ts, ∀ e, t.radical = some e → FixedRadicand e) → Unlike ts →
      FixedRadicand (sumOf ts)

/-- A term with such a radicand, if it has any. -/
def FixedTerm (t : Term) : Prop :=
  ∀ e, t.radical = some e → FixedRadicand e

/-- A power of a compound base that the options allow to multiply out was
tried at some level, and the base did not multiply. -/
def Kept (options : Options) (b p : Expr) : Prop :=
  ∃ n, ∀ k : Nat, p = .num k → b.isProper → k ≤ options.maxExpansion →
    Unmultiplied (level options n) b k

/-- A canonical expression that simplification finds again. -/
inductive Fixed (options : Options) : Expr → Prop where
  | term {t : Term} : FixedTerm t → Fixed options t.toExpr
  | sum {ts : List Term} : (∀ t ∈ ts, FixedTerm t) → Unlike ts → Fixed options (sumOf ts)
  | quotient {l r : Expr} : Fixed options l → Fixed options r → Fixed options (.bin .div l r)
  | power {b p : Expr} : Fixed options b → Fixed options p → IsPower b p → Kept options b p →
      Fixed options (.pow b p)

variable {options : Options} {lv : Level} {e e' l r : Expr} {es fs : List Expr} {t t' : Term}

theorem squareFree_of_split {n : Int} (h : Integer.squareSplit? n = some ⟨1, n⟩) :
    SquareFree n :=
  (Integer.squareSplit?_spec h).2

theorem FixedRadicand.isRadicand (h : FixedRadicand e) : IsRadicand e := by
  induction h with
  | term _ hsplit hvars hone ih => exact .term ih (squareFree_of_split hsplit) hvars hone
  | sum _ hunlike ih => exact .sum ih hunlike

theorem FixedTerm.isTerm (h : FixedTerm t) : IsTerm t :=
  fun e he => (h e he).isRadicand

theorem Fixed.isCanonical (h : Fixed options e) : IsCanonical e := by
  induction h with
  | term ht => exact .term ht.isTerm
  | sum hts hunlike => exact .sum (fun t ht => (hts t ht).isTerm) hunlike
  | quotient _ _ ihl ihr => exact .quotient ihl ihr
  | power _ _ hpower _ ihb ihp => exact .power ihb ihp hpower

theorem FixedRadicand.fixed (h : FixedRadicand e) : Fixed options e := by
  cases h with
  | term hradical _ _ _ => exact .term hradical
  | sum hradical hunlike => exact .sum hradical hunlike

theorem fixedTerm_of_radical (h : t.radical = none) : FixedTerm t := by
  intro e he
  rw [h] at he
  cases he

theorem fixed_num (n : Int) : Fixed options (.num n) := by
  have h : (Term.mk n .one none).toExpr = .num n := by
    by_cases h0 : n = 0 <;> by_cases h1 : n = 1 <;>
      simp [Term.toExpr, Term.toFactors, Powers.one, Expr.product, Expr.chain?, h0, h1]
  exact h ▸ .term (fixedTerm_of_radical rfl)

/-! ## Roots among factors -/

/-- Every root among the factors of an expression has a fixed radicand. -/
def RootsFixed (options : Options) (e : Expr) : Prop :=
  ∀ r, .root r ∈ e.factors → Fixed options r

/-- The same for each addend of an expression. -/
def AddendsFixed (options : Options) (e : Expr) : Prop :=
  ∀ a ∈ e.addends, RootsFixed options a

theorem rootsFixed_mul : RootsFixed options (.bin .mul l r) ↔
    RootsFixed options l ∧ RootsFixed options r := by
  simp [RootsFixed, or_imp, forall_and]

theorem rootsFixed_root : RootsFixed options (.root e) ↔ Fixed options e := by
  simp [RootsFixed, Expr.operands]

theorem rootsFixed_factor {f : Expr} (h : RootsFixed options e) (hf : f ∈ e.factors) :
    RootsFixed options f := by
  intro r hr
  rw [Expr.factors, Expr.operands_of_mem_operands hf] at hr
  exact h r (List.mem_singleton.mp hr ▸ hf)

theorem FixedTerm.rootsFixed (h : FixedTerm t) : RootsFixed options t.toExpr := by
  intro r hr
  rcases Term.mem_factors_toExpr hr with hr | ⟨n, hn⟩
  · rcases Term.mem_toFactors.mp hr with ⟨-, hr⟩ | ⟨q, -, hr⟩ | ⟨e, he, hr⟩
    · cases hr
    · rw [Expr.varPow] at hr
      split at hr <;> cases hr
    · exact Expr.root.inj hr ▸ (h e he).fixed
  · cases hn

theorem AddendsFixed.rootsFixed (h : AddendsFixed options e) : RootsFixed options e := by
  by_cases hop : e.op? = some .add
  · have hsum : e.isSum := Expr.isSum_of_op? hop
    intro r hr
    rw [Expr.factors_of_isSum hsum] at hr
    obtain rfl := List.mem_singleton.mp hr
    cases hop
  · have haddends : e.addends = [e] := Expr.operands_eq_singleton hop
    exact h e (haddends ▸ List.mem_singleton_self e)

theorem addendsFixed_of_op? (hop : e.op? ≠ some .add) (h : RootsFixed options e) :
    AddendsFixed options e := by
  intro a ha
  rw [Expr.addends, Expr.operands_eq_singleton hop] at ha
  exact List.mem_singleton.mp ha ▸ h

theorem addendsFixed_of_factors (haddends : e.addends = [e]) (hfactors : e.factors = [e])
    (hroot : ∀ r, e ≠ .root r) : AddendsFixed options e := by
  intro a ha r hr
  rw [haddends] at ha
  obtain rfl := List.mem_singleton.mp ha
  rw [hfactors] at hr
  exact absurd (List.mem_singleton.mp hr).symm (hroot r)

theorem Fixed.addendsFixed (h : Fixed options e) : AddendsFixed options e := by
  cases h with
  | term ht => exact addendsFixed_of_op? Term.op?_toExpr_ne_add ht.rootsFixed
  | sum hts hunlike =>
      intro a ha
      rw [hunlike.addends_sumOf] at ha
      obtain ⟨t, ht, rfl⟩ := List.mem_map.mp ha
      exact (hts t ht).rootsFixed
  | quotient _ _ => exact addendsFixed_of_factors rfl rfl (by simp)
  | power _ _ _ _ => exact addendsFixed_of_factors rfl rfl (by simp)

/-- A sum among the factors of a fixed expression is the whole expression. -/
theorem Fixed.fixedRadicand_of_isSum (h : Fixed options e) {s : Expr} (hs : s ∈ e.factors)
    (hsum : s.isSum) : FixedRadicand s := by
  cases h with
  | @term t ht =>
      rw [Term.isSum_of_mem_factors_toExpr hs] at hsum
      cases hsum
  | sum hts hunlike =>
      rw [Expr.factors_of_isSum hunlike.isSum_sumOf] at hs
      exact List.mem_singleton.mp hs ▸ .sum hts hunlike
  | quotient _ _ | power _ _ _ _ =>
      obtain rfl := List.mem_singleton.mp hs
      cases hsum

end Surd.Canonical
