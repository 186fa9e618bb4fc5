import Surd.Proofs.Operands
import Surd.Proofs.Scaling
import Surd.Proofs.Signs

/-!
# The order of factors

Without sums and quotients a simplified factor is a fixed monomial, if it fits
into a term at all. A product weighs as much as its factors, in whatever order
they are merged, and weights tell fixed monomials apart. So the product of the
factors does not depend on their order (`normalize_anyOrder`), although the
roots on the way may have nothing in common.

A factor `0` has no weight. It is left out, which changes nothing but the
coefficient.
-/

namespace Surd

variable {options : Options} {lv : Level} {e l r : Expr} {fs gs : List Expr} {t u : Term} {n : Nat}

/-! ## Expressions without sums -/

namespace Expr

/-- Whether an expression is put together without sums, differences and
quotients. -/
def isSumFree : Expr → Bool
  | .num _ => true
  | .var _ => true
  | .bin op l r => op == .mul && l.isSumFree && r.isSumFree
  | .pow b p => b.isSumFree && p.isSumFree
  | .root e => e.isSumFree

theorem isSumFree_mul : (bin .mul l r).isSumFree ↔ l.isSumFree ∧ r.isSumFree := by
  simp [isSumFree]

theorem op?_ne_add_of_isSumFree (h : e.isSumFree) : e.op? ≠ some .add := by
  intro hop
  cases e with
  | bin op l r =>
      obtain rfl := Option.some.inj hop
      simp [isSumFree] at h
  | num | var | pow | root => cases hop

end Expr

theorem Term.isSumFree_radical (hfree : t.toExpr.isSumFree) (hcoeff : t.coeff ≠ 0)
    (hr : t.radical = some r) : r.isSumFree := by
  have hroot : (Expr.root r).isSumFree :=
    (Expr.forall_operands_iff (P := fun e => e.isSumFree) fun _ _ => Expr.isSumFree_mul).mpr hfree
      _ (root_mem_factors_toExpr hcoeff hr)
  exact hroot

namespace Canonical

theorem FixedRadicand.monomial (h : FixedRadicand e) (hfree : e.isSumFree) :
    e.Monomial (· ≠ 0) := by
  induction h with
  | sum _ hunlike => exact absurd hunlike.op?_sumOf (Expr.op?_ne_add_of_isSumFree hfree)
  | @term t _ hsplit _ _ ih =>
      have hcoeff : t.coeff ≠ 0 := (squareFree_of_split hsplit).ne_zero
      have ht : t.Monomial (· ≠ 0) :=
        ⟨hcoeff, fun r hr => ih r hr (Term.isSumFree_radical hfree hcoeff hr)⟩
      exact ht.toExpr closed_ne_zero

theorem FixedTerm.monomial (h : FixedTerm t) (hcoeff : t.coeff ≠ 0)
    (hfree : t.toExpr.isSumFree) : t.toExpr.Monomial (· ≠ 0) := by
  have ht : t.Monomial (· ≠ 0) :=
    ⟨hcoeff, fun r hr => (h r hr).monomial (Term.isSumFree_radical hfree hcoeff hr)⟩
  exact ht.toExpr closed_ne_zero

end Canonical

/-! ## Factors that are zero -/

/-- The coefficient takes no part in a multiplication. -/
theorem Term.absorb_setCoeff (h : t.absorb lv e = .ok u) (c : Int) :
    ∃ d, Term.absorb lv { t with coeff := c } e = .ok { u with coeff := d } := by
  obtain ⟨m, hm, hscales⟩ := (ignoresFront_absorb e t u).mp h
  refine ⟨c * m.coeff, (ignoresFront_absorb e _ _).mpr ⟨m, hm, rfl, ?_, hscales.radical⟩⟩
  exact hscales.exponent

/-- Leaving out zeros changes the coefficient only. -/
theorem Term.absorbAll_filter (h : fs.foldlM (absorb lv) t = .ok u) (c : Int) :
    ∃ d, (fs.filter (· ≠ .num 0)).foldlM (absorb lv) { t with coeff := c } =
      .ok { u with coeff := d } := by
  induction fs generalizing t c with
  | nil =>
      obtain rfl := Except.ok.inj h
      exact ⟨c, rfl⟩
  | cons f fs ih =>
      obtain ⟨t₁, ht₁, h⟩ := bind_eq_ok.mp h
      by_cases hf : f = .num 0
      · subst hf
        obtain rfl := Except.ok.inj ht₁
        rw [List.filter_cons_of_neg (by simp)]
        exact ih h c
      · obtain ⟨c₁, hc₁⟩ := absorb_setCoeff ht₁ c
        obtain ⟨d, hd⟩ := ih h c₁
        rw [List.filter_cons_of_pos (by simpa using hf)]
        exact ⟨d, bind_eq_ok.mpr ⟨_, hc₁, hd⟩⟩

theorem normalize_filter (h : normalize lv fs = .ok t) :
    ∃ c, normalize lv (fs.filter (· ≠ .num 0)) = .ok { t with coeff := c } :=
  Term.absorbAll_filter h 1

theorem coeff_of_zero_mem (h : normalize lv fs = .ok t) (hzero : .num 0 ∈ fs) : t.coeff = 0 := by
  obtain ⟨front, back, rfl⟩ := List.append_of_mem hzero
  obtain ⟨s, -, hs⟩ := bind_eq_ok.mp ((List.foldlM_append ..).symm.trans h)
  obtain ⟨m, -, hscales⟩ := (Term.ignoresFront_absorbAll back _ _).mp hs
  rw [hscales.coeff, Term.mulInt, Int.mul_zero, Int.zero_mul]

/-! ## Orders -/

namespace Canonical

/-- Every weight is the same for both products, so they are the same. -/
theorem normalize_monomials_perm (hfs : ∀ f ∈ fs, f.Monomial (· ≠ 0))
    (hfixed : ∀ f ∈ fs, RootsFixed options f) (hperm : fs.Perm gs)
    (hf : normalize (level options n) fs = .ok t) (hg : normalize (level options n) gs = .ok u) :
    t = u := by
  have hgs : ∀ g ∈ gs, g.Monomial (· ≠ 0) := fun g hg => hfs g (hperm.mem_iff.mpr hg)
  have hweighs {M : Type} [AddCommMonoid M] (w : Weight (· ≠ 0) M) :
      t.Weighs w (fs.map w.expr).sum ∧ u.Weighs w (fs.map w.expr).sum := by
    have hlevel : (level options n).Weighs w := weighs_level closed_ne_zero w options n
    refine ⟨weighs_normalize closed_ne_zero hlevel hfs hf, ?_⟩
    rw [(hperm.map w.expr).sum_eq]
    exact weighs_normalize closed_ne_zero hlevel hgs hg
  have hreaches := reachesFixed_level options n
  have htfixed : FixedTerm t := fixedTerm_normalize hreaches hfixed hf
  have hufixed : FixedTerm u :=
    fixedTerm_normalize hreaches (fun g hg => hfixed g (hperm.mem_iff.mpr hg)) hg
  obtain ⟨ht, hu⟩ := hweighs signs
  refine htfixed.eq_of_sameWeights hufixed ht.monomial hu.monomial ?_
  refine Term.sameWeights_of_term_eq ht.monomial.coeff hu.monomial.coeff fun w => ?_
  rw [(hweighs w).1.weight, (hweighs w).2.weight]

/-- Simplified factors without sums have the same product in every order in
which they have one. -/
theorem normalize_anyOrder
    (hfs : ∀ f ∈ fs, (∃ options e, simplify options e = .ok f) ∧ f.isSumFree)
    (hperm : fs.Perm gs) (hf : normalize (level options n) fs = .ok t)
    (hg : normalize (level options n) gs = .ok u) : t = u := by
  -- a sum, or a factor that fits into no term, would have kept the product from being found
  have hterm : ∀ f ∈ fs, ∃ s, FixedTerm s ∧ f = s.toExpr := fun f hmem => by
    obtain ⟨⟨_, _, hsimplify⟩, -⟩ := hfs f hmem
    exact (fixed_simplify hsimplify).operand.exists_term hf hmem
  obtain ⟨c, hc⟩ := normalize_filter hf
  obtain ⟨d, hd⟩ := normalize_filter hg
  have hsame := normalize_monomials_perm
    (fun f hmem => by
      obtain ⟨hmem, hne⟩ := List.mem_filter.mp hmem
      obtain ⟨s, hs, rfl⟩ := hterm f hmem
      refine hs.monomial (fun hcoeff => ?_) (hfs _ hmem).2
      exact of_decide_eq_true hne (Term.toExpr_zero hcoeff))
    (fun f hmem => by
      obtain ⟨s, hs, rfl⟩ := hterm f (List.mem_filter.mp hmem).1
      exact hs.rootsFixed)
    (hperm.filter _) hc hd
  obtain ⟨-, hvars, hradical⟩ := Term.mk.inj hsame
  refine Term.ext ?_ hvars hradical
  by_cases hzero : .num 0 ∈ fs
  · rw [coeff_of_zero_mem hf hzero, coeff_of_zero_mem hg (hperm.mem_iff.mp hzero)]
  · have hall {es : List Expr} (hes : .num 0 ∉ es) : es.filter (· ≠ .num 0) = es :=
      List.filter_eq_self.mpr fun e he => by
        simpa using fun heq : e = .num 0 => hes (heq ▸ he)
    rw [hall hzero, hf] at hc
    rw [hall fun hmem => hzero (hperm.mem_iff.mpr hmem), hg] at hd
    rw [Except.ok.inj hc, Except.ok.inj hd, hsame]

/-- `√-6`. -/
def negativeRoot : Expr :=
  .root (.num (-6))

/-- `√(c√-3)`. -/
def nestedRoot (c : Int) : Expr :=
  .root (.bin .mul (.num c) (.root (.num (-3))))

/-- From the left, the roots are merged to `2√(-3√-3)` and then to `6√3`. From
the right they are merged to `3√-2` first. -/
theorem normalize_anyOrder_nestedRoot :
    (∀ f ∈ [negativeRoot, nestedRoot 2, nestedRoot (-3)],
      (∃ options e, simplify options e = .ok f) ∧ f.isSumFree) ∧
    [negativeRoot, nestedRoot 2, nestedRoot (-3)].Perm
      [nestedRoot (-3), nestedRoot 2, negativeRoot] ∧
    normalize (level {} 5) [negativeRoot, nestedRoot 2] =
      .ok ⟨2, .one, some (.bin .mul (.num (-3)) (.root (.num (-3))))⟩ ∧
    normalize (level {} 5) [nestedRoot (-3), nestedRoot 2] = .ok ⟨3, .one, some (.num (-2))⟩ ∧
    ∃ t u, normalize (level {} 5) [negativeRoot, nestedRoot 2, nestedRoot (-3)] = .ok t ∧
      normalize (level {} 5) [nestedRoot (-3), nestedRoot 2, negativeRoot] = .ok u ∧
      t = u ∧ t = ⟨6, .one, some (.num 3)⟩ := by
  have hfs : ∀ f ∈ [negativeRoot, nestedRoot 2, nestedRoot (-3)],
      (∃ options e, simplify options e = .ok f) ∧ f.isSumFree := by
    simp only [List.forall_mem_cons, List.not_mem_nil, false_implies, implies_true, and_true]
    exact ⟨⟨⟨{}, negativeRoot, by rfl⟩, by rfl⟩, ⟨⟨{}, nestedRoot 2, by rfl⟩, by rfl⟩,
      ⟨{}, nestedRoot (-3), by rfl⟩, by rfl⟩
  have hperm : [negativeRoot, nestedRoot 2, nestedRoot (-3)].Perm
      [nestedRoot (-3), nestedRoot 2, negativeRoot] := by decide
  have hf : normalize (level {} 5) [negativeRoot, nestedRoot 2, nestedRoot (-3)] =
      .ok ⟨6, .one, some (.num 3)⟩ := by rfl
  have hg : normalize (level {} 5) [nestedRoot (-3), nestedRoot 2, negativeRoot] =
      .ok ⟨6, .one, some (.num 3)⟩ := by rfl
  exact ⟨hfs, hperm, by rfl, by rfl, _, _, hf, hg, normalize_anyOrder hfs hperm hf hg, rfl⟩

end Canonical

end Surd
