import Surd.Proofs.AddendOrder
import Surd.Proofs.Shallow

/-!
# A long sum is one level deep

The operands of a sum are simplified one level below it, and then they are
multiplied out once more: to negate what is subtracted, and to find the terms
that are alike. This second pass goes down a level with each nested root. It
never runs out of levels, because the operands did not when they were simplified.
What is found with `n` levels has roots nested less than `n` deep, and a fixed
term is found again with as many levels as its roots are deep
(`FixedTerm.normalize_toFactors`).

So a sum runs out of levels only if one of its operands does, with one level
less (`settled_isSum`). How many operands there are and how the sum groups them
plays no part.
-/

namespace Surd

variable {options : Options} {n : Nat} {a e : Expr} {as : List Expr.Addend} {es : List Expr}
  {t : Term}

/-! ## Found again with as many levels -/

theorem Term.shallow_of_toExpr (hcoeff : t.coeff ≠ 0) (h : t.toExpr.rootDepth ≤ n) :
    t.Shallow n :=
  fun _ hr => Expr.rootDepth_operands_le.mpr h _ (Term.root_mem_factors_toExpr hcoeff hr)

namespace Canonical

/-- A radicand is put back under an empty root if there is a level for that root
and one for each root nested in it. -/
theorem FixedRadicand.mulRoot_eq (h : FixedRadicand e) (hdepth : e.rootDepth < n)
    (ht : t.radical = none) :
    t.mulRoot (level options n) e = .ok { t with radical := some e } := by
  obtain ⟨m, rfl⟩ : ∃ m, n = m + 1 := ⟨n - 1, by omega⟩
  induction h generalizing m t with
  | @term s _ hsplit hvars hone ih =>
      have hcoeff : s.coeff ≠ 0 := (squareFree_of_split hsplit).ne_zero
      have hshallow : s.Shallow m := Term.shallow_of_toExpr hcoeff (Nat.le_of_lt_succ hdepth)
      -- the factors under the root are asked for one level lower, where the root among
      -- them is nested one less
      refine mulRoot_toExpr (Term.normalize_toFactors fun r hr => ?_) hsplit hvars hone ht
      obtain ⟨k, rfl⟩ : ∃ k, m = k + 1 := ⟨m - 1, by have := hshallow r hr; omega⟩
      exact ih r hr rfl k (hshallow r hr)
  | sum _ hunlike _ => exact mulRoot_of_isSum rfl hunlike.isSum_sumOf ht

theorem FixedTerm.normalize_toFactors (ht : FixedTerm t) (hshallow : t.Shallow n) :
    normalize (level options n) t.toFactors = .ok t :=
  Term.normalize_toFactors fun r hr => (ht r hr).mulRoot_eq (hshallow r hr) rfl

theorem FixedTerm.exists_normalize (ht : FixedTerm t) (hdepth : t.toExpr.rootDepth ≤ n) :
    ∃ u, normalize (level options n) [t.toExpr] = .ok u := by
  by_cases hcoeff : t.coeff = 0
  · rw [Term.toExpr_zero hcoeff]
    exact ⟨_, rfl⟩
  · refine ⟨t, ?_⟩
    rw [normalize_singleton, Term.absorb_toExpr _ _ hcoeff]
    exact ht.normalize_toFactors (Term.shallow_of_toExpr hcoeff hdepth)

/-! ## Never for want of levels -/

/-- An addend is a term, or something that does not multiply at any level. -/
theorem Fixed.addend_cases (h : Fixed options e) (ha : a ∈ e.addends) :
    (∃ t, FixedTerm t ∧ a = t.toExpr) ∨
      ∀ lv t, Fails (fun o => ¬ Obstacle.IsDepth o) (Term.absorb lv t a) := by
  cases h with
  | @term t ht =>
      rw [Term.addends_toExpr] at ha
      exact .inl ⟨t, ht, List.mem_singleton.mp ha⟩
  | sum hts hunlike =>
      rw [hunlike.addends_sumOf] at ha
      obtain ⟨t, ht, rfl⟩ := List.mem_map.mp ha
      exact .inl ⟨t, hts t ht, rfl⟩
  | quotient _ _ =>
      obtain rfl := List.mem_singleton.mp ha
      exact .inr fun lv t => .error id
  | power _ _ _ _ =>
      obtain rfl := List.mem_singleton.mp ha
      exact .inr fun lv t => (t.not_isDepth_mulPower _ _).fails.mapError fun _ h => h

section Depth

variable (h : Fixed options e) (hdepth : e.rootDepth ≤ n)
include h hdepth

/-- A multiple of an addend is found with as many levels as its roots are deep, or
there is another reason why not. -/
theorem not_isDepth_absorb_addend (ha : a ∈ e.addends) (c : Int) :
    Fails (fun o => ¬ Obstacle.IsDepth o)
      (Term.absorb (level options n) (Term.one.mulInt c) a) := by
  rcases h.addend_cases ha with ⟨t, ht, rfl⟩ | hfails
  · obtain ⟨u, hu⟩ := ht.exists_normalize (Expr.rootDepth_operands_le.mpr hdepth _ ha)
    have hscaled : normalize (level options n) [.num c, t.toExpr] = .ok (u.mulInt c) :=
      normalize_num.mpr ⟨u, hu, rfl⟩
    rw [normalize_pair] at hscaled
    intro o ho
    cases hscaled.symm.trans ho
  · exact hfails _ _

theorem not_isDepth_normalize_addend (ha : a ∈ e.addends) :
    Fails (fun o => ¬ Obstacle.IsDepth o) (normalize (level options n) [a]) := by
  rw [normalize_singleton]
  exact not_isDepth_absorb_addend h hdepth ha 1

theorem not_isDepth_normalize_num (ha : a ∈ e.addends) (c : Int) :
    Fails (fun o => ¬ Obstacle.IsDepth o) (normalize (level options n) [.num c, a]) := by
  rw [normalize_pair]
  exact not_isDepth_absorb_addend h hdepth ha c

end Depth

/-! ## Sums -/

theorem not_isDepth_collect (hes : ∀ e ∈ es, Fixed options e ∧ e.rootDepth ≤ n) :
    Fails (fun err => ¬ SimplifyError.IsDepth err) (collect (level options n) es) := by
  refine (Fails.mapM fun a ha => ?_).bind fun _ _ => .ok _
  obtain ⟨e, he, hae⟩ := List.mem_flatMap.mp ha
  obtain ⟨hfixed, hdepth⟩ := hes e he
  exact (not_isDepth_normalize_addend hfixed hdepth hae).mapError
    fun _ ho => Obstacle.not_isDepth_toError ho

section Negation

variable (h : Fixed options e) (hdepth : e.rootDepth ≤ n)
include h hdepth

theorem not_isDepth_distribute_num (c : Int) :
    Fails (fun err => ¬ SimplifyError.IsDepth err) (distribute (level options n) (.num c) e) := by
  have hpairs : ∀ p ∈ addendPairs (.num c) e, p.1 = .num c ∧ p.2 ∈ e.addends := fun p hp =>
    (mem_addendPairs.mp hp).imp_left List.mem_singleton.mp
  refine (Fails.mapM fun p hp => ?_).bind fun products hproducts => ?_
  · obtain ⟨hnum, hmem⟩ := hpairs p hp
    refine Fails.mapError ?_ fun _ ho => Obstacle.not_isDepth_toError ho
    rw [hnum]
    exact not_isDepth_normalize_num h hdepth hmem c
  · refine not_isDepth_collect fun f hf => ?_
    obtain ⟨t, ht, rfl⟩ := List.mem_map.mp hf
    obtain ⟨p, hp, hok⟩ := exists_of_forall₂ (mapM_eq_ok.mp hproducts) ht
    obtain ⟨hnum, hmem⟩ := hpairs p hp
    have hnormalize : normalize (level options n) [.num c, p.2] = .ok t :=
      hnum ▸ mapError_eq_ok.mp hok
    have hroots : RootsFixed options p.2 := h.addendsFixed _ hmem
    have hfixed : FixedTerm t := fixedTerm_normalize (reachesFixed_level options n)
      (by simp [hroots, (fixed_num c).rootsFixed]) hnormalize
    have hshallow : t.Shallow n := shallow_normalize (bounds_level options n)
      (by simp [Expr.rootDepth, Expr.rootDepth_operands_le.mpr hdepth _ hmem]) hnormalize
    exact ⟨.term hfixed, hshallow.toExpr⟩

/-- Negating what was found does not take more levels than finding it. -/
theorem not_isDepth_multiply_num (c : Int) :
    Fails (fun err => ¬ SimplifyError.IsDepth err) (multiply (level options n) (.num c) e) := by
  rw [multiply]
  split
  · exact .ok _
  · exact not_isDepth_distribute_num h hdepth c
  · next err herr =>
      by_cases hop : e.op? = some .add
      · rw [normalize_pair] at herr
        have hsum : (Term.one.mulInt c).absorb (level options n) e = .error .sum :=
          Term.absorb_of_isSum _ _ (Expr.isSum_of_op? hop)
        cases hsum.symm.trans herr
      · have hmem : e ∈ e.addends := by
          rw [Expr.addends, Expr.operands_eq_singleton hop]
          exact List.mem_singleton_self e
        exact .error (not_isDepth_normalize_num h hdepth hmem c _ herr)

end Negation

theorem not_isDepth_simplifyAddend {a : Expr.Addend}
    (h : Fails (fun err => ¬ SimplifyError.IsDepth err) ((level options n).simplify a.value)) :
    Fails (fun err => ¬ SimplifyError.IsDepth err) (simplifyAddend (level options n) a) := by
  refine h.bind fun e he => ?_
  split
  · exact not_isDepth_multiply_num ((reachesFixed_level options n).simplify he)
      (Nat.le_of_lt ((bounds_level options n).simplify he)) (-1)
  · exact .ok e

/-- A sum takes one level more than its operands, however many they are. -/
theorem settled_isSum {maxExpansion : Nat} (he : e.isSum)
    (h : ∀ a ∈ e.signedAddends, Settled maxExpansion a.value n) :
    Settled maxExpansion e (n + 1) := by
  show Fails _ (simplifyStep _ (level _ n) e)
  rw [simplifyStep_of_isSum he, List.mapM_map]
  refine (Fails.mapM fun a ha => not_isDepth_simplifyAddend (h a ha)).bind fun es hes => ?_
  refine not_isDepth_collect fun f hf => ?_
  obtain ⟨a, -, haf⟩ := exists_of_forall₂ (mapM_eq_ok.mp hes) hf
  exact ⟨fixed_simplifyAddend (reachesFixed_level _ n) haf,
    rootDepth_simplifyAddend (bounds_level _ n) haf⟩

end Canonical

/-! ## Chains -/

/-- The left-leaning chain of sums and differences that begins with an operand
and goes on with these, each with its sign. -/
def Expr.signedChain (e : Expr) (as : List Addend) : Expr :=
  as.foldl (fun l a => .bin (if a.negated then .sub else .add) l a.value) e

theorem Expr.isSum_signedChain (h : as ≠ []) : (e.signedChain as).isSum := by
  induction as generalizing e with
  | nil => exact absurd rfl h
  | cons a as ih =>
      cases as with
      | nil => cases hneg : a.negated <;> simp [signedChain, hneg, isSum, isBin, op?]
      | cons b as => exact ih (List.cons_ne_nil b as)

theorem Expr.signedAddends_of_not_isSum (h : e.isSum = false) : e.signedAddends = [⟨false, e⟩] := by
  simp only [isSum, isBin, Bool.or_eq_false_iff, decide_eq_false_iff_not] at h
  exact signedAddends_of_op? h.1 h.2

theorem Expr.signedAddends_signedChain (h : ∀ a ∈ as, a.value.isSum = false) :
    (e.signedChain as).signedAddends = e.signedAddends ++ as := by
  induction as generalizing e with
  | nil => exact (List.append_nil _).symm
  | cons a as ih =>
      obtain ⟨hvalue, has⟩ := List.forall_mem_cons.mp h
      have hhead : (Expr.bin (if a.negated then .sub else .add) e a.value).signedAddends =
          e.signedAddends ++ [a] := by
        obtain ⟨negated, value⟩ := a
        cases negated with
        | true => rfl
        | false => exact congrArg (e.signedAddends ++ ·) (signedAddends_of_not_isSum hvalue)
      rw [signedChain, List.foldl_cons, ← signedChain, ih has, hhead, List.append_assoc,
        List.singleton_append]

open Canonical in
/-- If a chain of sums and differences runs out of levels, so does one of its
operands on its own, with one level less. -/
theorem exists_operand_depthExceeded {maxDepth maxExpansion limit : Nat} (hne : as ≠ [])
    (he : e.isSum = false) (has : ∀ a ∈ as, a.value.isSum = false)
    (h : simplify ⟨maxDepth + 1, maxExpansion⟩ (e.signedChain as) =
      .error (.depthExceeded limit)) :
    ∃ x ∈ e :: as.map Expr.Addend.value,
      simplify ⟨maxDepth, maxExpansion⟩ x = .error (.depthExceeded maxDepth) := by
  by_contra hnone
  have hoperands : ∀ x ∈ e :: as.map Expr.Addend.value, Settled maxExpansion x maxDepth := by
    intro x hx
    by_contra hx'
    exact hnone ⟨x, hx, simplify_of_not_settled hx'⟩
  have hsettled : Settled maxExpansion (e.signedChain as) (maxDepth + 1) := by
    refine settled_isSum (Expr.isSum_signedChain hne) fun a ha => ?_
    rw [Expr.signedAddends_signedChain has, Expr.signedAddends_of_not_isSum he,
      List.singleton_append] at ha
    rcases List.mem_cons.mp ha with rfl | ha
    · exact hoperands e List.mem_cons_self
    · exact hoperands _ (List.mem_cons_of_mem e (List.mem_map_of_mem ha))
  have hlevel : (level ⟨0, maxExpansion⟩ (maxDepth + 1)).simplify (e.signedChain as) =
      .error (.depthExceeded limit) := (hsettled.simplify_eq le_rfl).symm.trans h
  exact hsettled _ hlevel trivial

/-- `x - √√2 + 3` runs out of three levels, because `√√2` runs out of two. -/
theorem exists_operand_depthExceeded_nestedRoot :
    simplify ⟨3, 16⟩ ((Expr.var "x").signedChain
        [⟨true, .root (.root (.num 2))⟩, ⟨false, .num 3⟩]) = .error (.depthExceeded 3) ∧
      ∃ e ∈ [Expr.var "x", .root (.root (.num 2)), .num 3],
        simplify ⟨2, 16⟩ e = .error (.depthExceeded 2) := by
  have h : simplify ⟨3, 16⟩ ((Expr.var "x").signedChain
      [⟨true, .root (.root (.num 2))⟩, ⟨false, .num 3⟩]) = .error (.depthExceeded 3) := rfl
  exact ⟨h, exists_operand_depthExceeded (by decide) rfl (by decide) h⟩

end Surd
