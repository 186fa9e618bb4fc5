import Surd.Expr.RootMonomial
import Surd.Proofs.Settling
import Surd.Proofs.Unsupported

/-!
# Simplification ends without a limit

Not every level is used up by a step down the tree. A power is multiplied out
by simplifying a product of copies of its base, and roots are merged by
simplifying a product of what was under them, so what comes next need not be a
part of the expression. It ends all the same: from some number of levels on the
outcome does not change, and it is no error of depth.

The measure is how deep roots are nested. When factors are multiplied into a
term, lower levels are asked about what is under their roots and nothing else,
and what comes back is nested no deeper. So the induction is on this depth, for
all lists of factors at once (`Normalizes`). Copies of a base do not get in the
way, since the base has been simplified before: it is fixed, and fixed factors
are found again as they are. What is left is an induction on the expression.

Simplification is stable in the levels, so the limit on the depth is a cut-off
and nothing else (`exists_threshold`).
-/

namespace Surd

/-! ## How deep roots are nested -/

namespace Expr

variable {d : Nat} {op : Op} {e l r : Expr} {es : List Expr}

theorem rootDepth_bin_le : (Expr.bin op l r).rootDepth ≤ d ↔ l.rootDepth ≤ d ∧ r.rootDepth ≤ d :=
  Nat.max_le

theorem rootDepth_operands_le : (∀ f ∈ e.operands op, f.rootDepth ≤ d) ↔ e.rootDepth ≤ d :=
  forall_operands_iff fun _ _ => rootDepth_bin_le

theorem rootDepth_operands_lt (h : e.rootDepth < d) : ∀ f ∈ e.operands op, f.rootDepth < d :=
  (forall_operands_iff (P := fun e => e.rootDepth < d) fun _ _ => Nat.max_lt).mpr h

theorem rootDepth_sum_le (h : ∀ f ∈ es, f.rootDepth ≤ d) : (sum es).rootDepth ≤ d :=
  property_sum (P := fun e => e.rootDepth ≤ d) (fun _ _ => rootDepth_bin_le) (Nat.zero_le d) h

theorem rootDepth_product_le (h : ∀ f ∈ es, f.rootDepth ≤ d) : (product es).rootDepth ≤ d :=
  property_product (P := fun e => e.rootDepth ≤ d) (fun _ _ => rootDepth_bin_le) (Nat.zero_le d) h

theorem rootDepth_varPow {x : String} {k : Nat} : (varPow x k).rootDepth = 0 := by
  rw [varPow]
  split <;> rfl

end Expr

/-- A term is no more than `d` roots deep, its own included. -/
def Term.Shallow (d : Nat) (t : Term) : Prop :=
  ∀ e, t.radical = some e → e.rootDepth < d

namespace Term

variable {d : Nat} {t : Term}

theorem Shallow.toFactors (h : t.Shallow d) : ∀ f ∈ t.toFactors, f.rootDepth ≤ d := by
  intro f hf
  rcases mem_toFactors.mp hf with ⟨-, rfl⟩ | ⟨q, -, rfl⟩ | ⟨e, he, rfl⟩
  · exact Nat.zero_le d
  · exact Expr.rootDepth_varPow.trans_le (Nat.zero_le d)
  · exact h e he

theorem Shallow.toExpr (h : t.Shallow d) : t.toExpr.rootDepth ≤ d := by
  rw [Term.toExpr]
  split
  · exact Nat.zero_le d
  · exact Expr.rootDepth_product_le h.toFactors

theorem rootDepth_combine {ts : List Term} (h : ∀ t ∈ ts, t.Shallow d) :
    (Expr.sum ((combine ts).map toExpr)).rootDepth ≤ d := by
  refine Expr.rootDepth_sum_le fun f hf => ?_
  obtain ⟨t, ht, rfl⟩ := List.mem_map.mp hf
  obtain ⟨s, hs, halike⟩ := exists_alike_of_mem_combine ht
  have hshallow : t.Shallow d := fun r hr => h s hs r (halike.radical ▸ hr)
  exact hshallow.toExpr

end Term

/-! ## Steps that do not ask for more levels -/

theorem Obstacle.not_isDepth_toError {a : Expr} {o : Obstacle} (h : ¬ o.IsDepth) :
    ¬ (o.toError a).IsDepth := by
  cases o with
  | sum => exact id
  | failed e => exact h

theorem not_isDepth_of_isTooLarge {α : Type _} {P : α → Prop} {x : Except SimplifyError α}
    (h : Yields SimplifyError.IsTooLarge P x) :
    Yields (fun err => ¬ SimplifyError.IsDepth err) P x := by
  refine h.mono (fun err hlarge hdepth => ?_) fun _ ha => ha
  cases err with
  | exponentTooLarge | radicandTooLarge => exact hdepth
  | unsupported | depthExceeded => exact hlarge

theorem settles_of_isTooLarge {α : Type _} {P : α → Prop} {x : Except SimplifyError α}
    (h : Yields SimplifyError.IsTooLarge P x) : Settles SimplifyError.IsDepth P fun _ => x :=
  .const (not_isDepth_of_isTooLarge h)

theorem Term.not_isDepth_mulPower (t : Term) (b p : Expr) :
    Yields (fun err => ¬ SimplifyError.IsDepth err) (fun t' => t'.radical = t.radical)
      (t.mulPower b p) := by
  simp only [mulPower]
  split
  · exact not_isDepth_of_isTooLarge ((isTooLarge_power _ _).bind fun _ _ => rfl)
  · split
    · exact not_isDepth_of_isTooLarge (t.isTooLarge_mulVar _ _)
    · exact id
  · exact id
  · exact id

theorem Term.settles_mulPower (t : Term) (b p : Expr) :
    Settles SimplifyError.IsDepth (fun t' => t'.radical = t.radical) fun _ => t.mulPower b p :=
  .const (t.not_isDepth_mulPower b p)

namespace Canonical

variable {options : Options} {d : Nat} {b e l r : Expr} {es fs : List Expr} {t : Term}

/-- Only the root of a term matters. -/
theorem FixedTerm.of_radical (h : FixedTerm t) (hd : t.Shallow d) (t' : Term)
    (heq : t'.radical = t.radical) : FixedTerm t' ∧ t'.Shallow d :=
  ⟨fun e he => h e (heq ▸ he), fun e he => hd e (heq ▸ he)⟩

/-- A fixed expression is found again at every level from some level on. -/
theorem settles_simplify_of_fixed (h : Fixed options e) :
    Settles SimplifyError.IsDepth (· = e) fun n => (level options n).simplify e := by
  obtain ⟨n, hn⟩ := exists_simplify_eq h
  refine ⟨.ok e, ?_, rfl⟩
  exact Filter.eventually_atTop.mpr ⟨n, fun m hm => simplify_level_mono hm hn⟩

/-! ## Products of shallow factors -/

/-- What comes of multiplying factors into a term is settled, if no roots among
them are nested more than `d` deep. -/
def Normalizes (options : Options) (d : Nat) : Prop :=
  ∀ fs, (∀ f ∈ fs, RootsFixed options f ∧ f.rootDepth ≤ d) →
    Settles Obstacle.IsDepth (fun t => FixedTerm t ∧ t.Shallow d) fun n =>
      normalize (level options n) fs

section Shallow

variable (hnormalize : Normalizes options d)
include hnormalize

theorem settles_normalize_term (hfs : ∀ f ∈ fs, RootsFixed options f ∧ f.rootDepth ≤ d)
    (e : Expr) : Settles SimplifyError.IsDepth (fun t => FixedTerm t ∧ t.Shallow d) fun n =>
      (normalize (level options n) fs).mapError (Obstacle.toError e) :=
  (hnormalize fs hfs).mapError fun _ ho => Obstacle.not_isDepth_toError ho

theorem settles_collect (hes : ∀ f ∈ es, AddendsFixed options f ∧ f.rootDepth ≤ d) :
    Settles SimplifyError.IsDepth (fun e => Fixed options e ∧ e.rootDepth ≤ d) fun n =>
      collect (level options n) es := by
  refine Settles.bind (.mapM fun a ha => settles_normalize_term hnormalize ?_ a) fun ts hts => ?_
  · obtain ⟨f, hf, haf⟩ := List.mem_flatMap.mp ha
    intro g hg
    obtain rfl := List.mem_singleton.mp hg
    exact ⟨(hes f hf).1 _ haf, Expr.rootDepth_operands_le.mpr (hes f hf).2 _ haf⟩
  · exact .const ⟨fixed_sum_combine fun t ht => (hts t ht).1,
      Term.rootDepth_combine fun t ht => (hts t ht).2⟩

theorem settles_distribute (hl : AddendsFixed options l ∧ l.rootDepth ≤ d)
    (hr : AddendsFixed options r ∧ r.rootDepth ≤ d) :
    Settles SimplifyError.IsDepth (fun e => Fixed options e ∧ e.rootDepth ≤ d) fun n =>
      distribute (level options n) l r := by
  refine Settles.bind (.mapM fun q hq => settles_normalize_term hnormalize ?_ _) fun ts hts => ?_
  · obtain ⟨ha, hb⟩ := mem_addendPairs.mp hq
    simp [hl.1 _ ha, hr.1 _ hb, Expr.rootDepth_operands_le.mpr hl.2 _ ha,
      Expr.rootDepth_operands_le.mpr hr.2 _ hb]
  · refine settles_collect hnormalize fun f hf => ?_
    obtain ⟨t, ht, rfl⟩ := List.mem_map.mp hf
    exact ⟨addendsFixed_of_op? Term.op?_toExpr_ne_add (hts t ht).1.rootsFixed,
      (hts t ht).2.toExpr⟩

theorem settles_multiply (hl : AddendsFixed options l ∧ l.rootDepth ≤ d)
    (hr : AddendsFixed options r ∧ r.rootDepth ≤ d) :
    Settles SimplifyError.IsDepth (fun e => Fixed options e ∧ e.rootDepth ≤ d) fun n =>
      multiply (level options n) l r := by
  obtain ⟨x, hx, hyields⟩ := hnormalize [l, r]
    (by simp [hl.1.rootsFixed, hl.2, hr.1.rootsFixed, hr.2])
  match x, hyields with
  | .ok t, ⟨ht, hshallow⟩ =>
      exact ⟨.ok t.toExpr, hx.mono fun n hn => by simp only [multiply, hn], .term ht,
        hshallow.toExpr⟩
  | .error .sum, _ =>
      exact (settles_distribute hnormalize hl hr).congr
        (hx.mono fun n hn => by simp only [multiply, hn])
  | .error (.failed err), herr =>
      exact ⟨.error err, hx.mono fun n hn => by simp only [multiply, hn], herr⟩

theorem settles_multiplyAll (hes : ∀ f ∈ es, Fixed options f ∧ f.rootDepth ≤ d) :
    Settles SimplifyError.IsDepth (fun e => Fixed options e ∧ e.rootDepth ≤ d) fun n =>
      multiplyAll (level options n) es := by
  obtain ⟨x, hx, hyields⟩ := hnormalize es fun f hf => ⟨(hes f hf).1.rootsFixed, (hes f hf).2⟩
  match x, hyields with
  | .ok t, ⟨ht, hshallow⟩ =>
      exact ⟨.ok t.toExpr, hx.mono fun n hn => by simp only [multiplyAll, hn], .term ht,
        hshallow.toExpr⟩
  | .error .sum, _ =>
      cases es with
      | nil =>
          exact ⟨.ok (.num 1), hx.mono fun n hn => by simp only [multiplyAll, hn], fixed_num 1,
            Nat.zero_le d⟩
      | cons f fs =>
          have hfold : Settles SimplifyError.IsDepth
              (fun e => Fixed options e ∧ e.rootDepth ≤ d) fun n =>
                fs.foldlM (multiply (level options n)) f := by
            refine Settles.foldlM (hes f List.mem_cons_self) fun g hg s hs => ?_
            have hg := hes g (List.mem_cons_of_mem f hg)
            exact settles_multiply hnormalize ⟨hs.1.addendsFixed, hs.2⟩
              ⟨hg.1.addendsFixed, hg.2⟩
          exact hfold.congr (hx.mono fun n hn => by simp only [multiplyAll, hn])
  | .error (.failed err), herr =>
      exact ⟨.error err, hx.mono fun n hn => by simp only [multiplyAll, hn], herr⟩

/-- A product of fixed expressions. -/
theorem settles_simplify_of_factors (h : ∀ f ∈ e.factors, Fixed options f)
    (hdepth : e.rootDepth ≤ d) :
    Settles SimplifyError.IsDepth (fun e => Fixed options e ∧ e.rootDepth ≤ d) fun n =>
      (level options n).simplify e := by
  by_cases hop : e.op? = some .mul
  · cases e with
    | bin op l r =>
        obtain rfl : op = .mul := Option.some.inj hop
        refine .of_succ (.bind (.mapM fun f hf => ?_) fun es hes =>
          settles_multiplyAll hnormalize hes)
        refine (settles_simplify_of_fixed (h f hf)).mono ?_
        rintro _ rfl
        exact ⟨h _ hf, Expr.rootDepth_operands_le.mpr hdepth _ hf⟩
    | num | var | pow | root => cases hop
  · have hfixed : Fixed options e := by
      refine h e ?_
      rw [Expr.factors, Expr.operands_eq_singleton hop]
      exact List.mem_singleton_self e
    refine (settles_simplify_of_fixed hfixed).mono ?_
    rintro _ rfl
    exact ⟨hfixed, hdepth⟩

theorem settles_simplify_product (hfs : ∀ f ∈ fs, Fixed options f ∧ f.rootDepth ≤ d) :
    Settles SimplifyError.IsDepth (fun e => Fixed options e ∧ e.rootDepth ≤ d) fun n =>
      (level options n).simplify (.product fs) := by
  refine settles_simplify_of_factors hnormalize (fun f hf => ?_)
    (Expr.rootDepth_product_le fun f hf => (hfs f hf).2)
  rw [Expr.product] at hf
  cases hchain : Expr.chain? .mul fs with
  | none =>
      rw [hchain] at hf
      exact List.mem_singleton.mp hf ▸ fixed_num 1
  | some e =>
      rw [hchain] at hf
      rw [Option.getD_some, Expr.factors, Expr.operands_of_chain? hchain] at hf
      obtain ⟨g, hg, hfg⟩ := List.mem_flatMap.mp hf
      exact (hfs g hg).1.fixed_of_mem_factors f hfg

/-! ### Roots in a term -/

theorem settles_extract {radicand : Expr} (t : Term)
    (hfs : ∀ f ∈ fs, RootsFixed options f ∧ f.rootDepth ≤ d) :
    Settles SimplifyError.IsDepth (fun q => ∀ f ∈ q.2, Fixed options f ∧ f.rootDepth ≤ d) fun n =>
      Term.extract (level options n) radicand t fs := by
  have hlower : Settles Obstacle.IsDepth (fun t => FixedTerm t ∧ t.Shallow d) fun n =>
      (level options n).normalize fs := .of_succ (hnormalize fs hfs)
  refine (hlower.mapError fun o ho => Obstacle.not_isDepth_toError ho).bind
    fun inner ⟨hfixed, hshallow⟩ => ?_
  refine .bind (settles_of_isTooLarge (isTooLarge_squareSplit inner.coeff)) fun split _ => ?_
  refine .bind (settles_of_isTooLarge (Term.isTooLarge_mulHalves _ inner.vars)) fun t' _ => ?_
  have hleft : FixedTerm (inner.leftover split.inside) := hfixed
  have hdepth : (inner.leftover split.inside).Shallow d := hshallow
  refine .const fun f hf => ?_
  rw [Term.leftovers_eq] at hf
  exact ⟨hleft.fixed_of_mem_toFactors f hf, hdepth.toFactors f hf⟩

omit hnormalize in
theorem shallow_chain? (hfs : ∀ f ∈ fs, Fixed options f ∧ f.rootDepth ≤ d) (t : Term) :
    Term.Shallow (d + 1) { t with radical := Expr.chain? .mul fs } := by
  intro r hr
  refine Nat.lt_succ_of_le ?_
  exact Expr.property_chain? (P := fun e => e.rootDepth ≤ d) (fun _ _ => Expr.rootDepth_bin_le)
    (fun f hf => (hfs f hf).2) hr

/-- The root of a product with sums in it. -/
theorem settles_multiplyOut (hfs : ∀ f ∈ fs, Fixed options f ∧ f.rootDepth ≤ d) (t : Term) :
    Settles SimplifyError.IsDepth (Term.Shallow (d + 1)) fun n => (do
      let canonical ← (level options n).simplify (.product fs)
      if canonical.isSum then
        return { t with radical := some canonical }
      else
        let (t, left) ← Term.extract (level options n) canonical t canonical.factors
        return { t with radical := Expr.chain? .mul left }) := by
  refine (settles_simplify_product hnormalize hfs).bind fun canonical ⟨hfixed, hdepth⟩ => ?_
  by_cases hsum : canonical.isSum
  · simp only [hsum, if_true]
    refine .const fun r hr => ?_
    exact Option.some.inj hr ▸ Nat.lt_succ_of_le hdepth
  · simp only [hsum]
    refine (settles_extract hnormalize t fun f hf => ?_).bind fun q hq => .const ?_
    · exact ⟨rootsFixed_factor hfixed.rootsFixed hf, Expr.rootDepth_operands_le.mpr hdepth f hf⟩
    · exact shallow_chain? hq q.1

theorem settles_mulRoot (ht : FixedTerm t) (htd : t.Shallow (d + 1)) (he : Fixed options e)
    (hed : e.rootDepth ≤ d) :
    Settles SimplifyError.IsDepth (Term.Shallow (d + 1)) fun n =>
      t.mulRoot (level options n) e := by
  have hmerged : ∀ f ∈ t.merged e, Fixed options f ∧ f.rootDepth ≤ d := by
    intro f hf
    rcases Term.mem_merged.mp hf with ⟨r, hr, hf⟩ | hf
    · exact ⟨(ht r hr).fixed.fixed_of_mem_factors f hf,
        Expr.rootDepth_operands_le.mpr (Nat.le_of_lt_succ (htd r hr)) f hf⟩
    · exact ⟨he.fixed_of_mem_factors f hf, Expr.rootDepth_operands_le.mpr hed f hf⟩
  have hsums : ∀ f ∈ Term.sortByText ((t.merged e).filter Expr.isSum),
      Fixed options f ∧ f.rootDepth ≤ d := fun f hf =>
    hmerged f (List.mem_filter.mp ((Term.sortByText_perm _).mem_iff.mp hf)).1
  simp only [Term.mulRoot, List.partition_eq_filter_filter]
  refine (settles_extract hnormalize _ fun f hf => ?_).bind ?_
  · obtain ⟨hfixed, hdepth⟩ := hmerged f (List.mem_filter.mp hf).1
    exact ⟨hfixed.rootsFixed, hdepth⟩
  · rintro ⟨t₁, left⟩ hleft
    dsimp only
    -- what is left to do depends on whether there are sums, and on whether one stands alone
    have hfs : ∀ f ∈ left ++ Term.sortByText ((t.merged e).filter Expr.isSum),
        Fixed options f ∧ f.rootDepth ≤ d := fun f hf =>
      (List.mem_append.mp hf).elim (hleft f) (hsums f)
    revert hsums hfs
    rw [Term.merged]
    generalize Term.sortByText _ = sums
    intro hsums hfs
    cases sums with
    | nil =>
        have hshallow := shallow_chain? hleft t₁
        cases left <;> exact .const hshallow
    | cons s sums =>
        cases sums with
        | cons s' sums => cases left <;> exact settles_multiplyOut hnormalize hfs t₁
        | nil =>
            cases left with
            | cons f left => exact settles_multiplyOut hnormalize hfs t₁
            | nil =>
                have hs : s.rootDepth ≤ d := (hsums s (List.mem_singleton_self s)).2
                exact .const fun r hr => Option.some.inj hr ▸ Nat.lt_succ_of_le hs

end Shallow

/-! ## All products

Without roots among the factors no lower level is asked for anything. With
them, everything that is asked for is about what is under them. -/

section Absorb

variable (hmulRoot : ∀ t e, FixedTerm t → t.Shallow d → Fixed options e → e.rootDepth < d →
  Settles SimplifyError.IsDepth (Term.Shallow d) fun n => t.mulRoot (level options n) e)
include hmulRoot

theorem settles_absorb (ht : FixedTerm t) (htd : t.Shallow d) (he : RootsFixed options e)
    (hed : e.rootDepth ≤ d) :
    Settles Obstacle.IsDepth (fun t => FixedTerm t ∧ t.Shallow d) fun n =>
      t.absorb (level options n) e := by
  induction e generalizing t with
  | num n => exact .const (ht.of_radical htd _ rfl)
  | var x =>
      refine Settles.mapError ?_ fun _ h => h
      exact (settles_of_isTooLarge (t.isTooLarge_mulVar x 1)).mono (ht.of_radical htd)
  | pow b p =>
      refine Settles.mapError ?_ fun _ h => h
      exact (t.settles_mulPower b p).mono (ht.of_radical htd)
  | root r =>
      have hr : Fixed options r := rootsFixed_root.mp he
      refine Settles.mapError ?_ fun _ h => h
      exact (hmulRoot t r ht htd hr hed).and_of_ok fun n t' hok =>
        fixedTerm_mulRoot (reachesFixed_level options n) ht hr hok
  | bin op l r ihl ihr =>
      cases op with
      | mul =>
          obtain ⟨hl, hr⟩ := rootsFixed_mul.mp he
          obtain ⟨hld, hrd⟩ := Expr.rootDepth_bin_le.mp hed
          exact (ihl ht htd hl hld).bind fun t₁ ⟨ht₁, hd₁⟩ => ihr ht₁ hd₁ hr hrd
      | add | sub | div => exact .const id

theorem normalizes_of_mulRoot : Normalizes options d := by
  intro fs hfs
  refine Settles.foldlM ⟨fixedTerm_of_radical rfl, nofun⟩ fun f hf t ⟨ht, htd⟩ => ?_
  exact settles_absorb hmulRoot ht htd (hfs f hf).1 (hfs f hf).2

end Absorb

theorem normalizes (options : Options) (d : Nat) : Normalizes options d := by
  induction d with
  | zero => exact normalizes_of_mulRoot fun _ _ _ _ _ hlt => absurd hlt (Nat.not_lt_zero _)
  | succ d ih =>
      exact normalizes_of_mulRoot fun t e ht htd he hed =>
        settles_mulRoot ih ht htd he (Nat.le_of_lt_succ hed)

/-! ## All expressions -/

theorem exists_rootDepth_le (es : List Expr) : ∃ d, ∀ f ∈ es, f.rootDepth ≤ d :=
  exists_forall_of_mono (P := fun d (f : Expr) => f.rootDepth ≤ d) (fun hle h => h.trans hle)
    fun f _ => ⟨f.rootDepth, le_rfl⟩

theorem ends_multiply (hl : AddendsFixed options l) (hr : AddendsFixed options r) :
    Settles SimplifyError.IsDepth (Fixed options) fun n => multiply (level options n) l r := by
  have h := settles_multiply (normalizes options (max l.rootDepth r.rootDepth))
    ⟨hl, Nat.le_max_left _ _⟩ ⟨hr, Nat.le_max_right _ _⟩
  exact h.mono fun _ h => h.1

theorem ends_expand (hb : Fixed options b) (k : Nat) :
    Settles SimplifyError.IsDepth (fun _ => True) fun n => expand (level options n) b k := by
  have hreplicate : ∀ f ∈ List.replicate k b, Fixed options f ∧ f.rootDepth ≤ b.rootDepth := by
    intro f hf
    obtain rfl := List.eq_of_mem_replicate hf
    exact ⟨hb, le_rfl⟩
  obtain ⟨x, hx, hyields⟩ := settles_simplify_product (normalizes options b.rootDepth) hreplicate
  match x, hyields with
  | .ok e, _ => exact ⟨.ok e, hx.mono fun n hn => by simp only [expand, hn], trivial⟩
  | .error (.unsupported op y), _ =>
      exact ⟨.ok (.pow b (.num k)), hx.mono fun n hn => by simp only [expand, hn], trivial⟩
  | .error (.depthExceeded limit), hdepth => exact absurd trivial hdepth
  | .error (.exponentTooLarge k'), herr =>
      exact ⟨.error (.exponentTooLarge k'), hx.mono fun n hn => by simp only [expand, hn], herr⟩
  | .error (.radicandTooLarge m), herr =>
      exact ⟨.error (.radicandTooLarge m), hx.mono fun n hn => by simp only [expand, hn], herr⟩

theorem ends_power (hb : Fixed options b) (p : Expr) :
    Settles SimplifyError.IsDepth (fun _ => True) fun n =>
      power options (level options n) b p := by
  cases hp : p.exponent? with
  | none =>
      simp only [power, hp]
      exact .const trivial
  | some k =>
      have hcompound : Settles SimplifyError.IsDepth (fun _ => True) fun n =>
          if k ≤ options.maxExpansion then expand (level options n) b k else .ok (.pow b p) := by
        by_cases hle : k ≤ options.maxExpansion
        · simp only [if_pos hle]
          exact ends_expand hb k
        · simp only [if_neg hle]
          exact .const trivial
      simp only [power, hp]
      cases b with
      | num n => exact settles_of_isTooLarge ((isTooLarge_power n k).bind fun _ _ => trivial)
      | var x => obtain _ | _ | k := k <;> exact .const trivial
      | bin | pow | root =>
          obtain _ | _ | k := k
          · exact .const trivial
          · exact .const trivial
          · exact hcompound

theorem ends_squareRoot (hr : Fixed options r) :
    Settles SimplifyError.IsDepth (fun _ => True) fun n => squareRoot (level options n) r := by
  have hmultiply : Settles SimplifyError.IsDepth (fun _ => True) fun n =>
      multiply (level options n) (.num 1) (.root r) :=
    (ends_multiply (fixed_num 1).addendsFixed
      (addendsFixed_of_op? (by simp [Expr.op?]) (rootsFixed_root.mpr hr))).mono fun _ _ => trivial
  cases r with
  | num n => exact settles_of_isTooLarge (isTooLarge_rootOfInt n)
  | var x => exact .const trivial
  | bin | root => exact hmultiply
  | pow b p =>
      simp only [squareRoot]
      cases hp : p.exponent? with
      | none => cases b <;> exact hmultiply
      | some k =>
          cases b with
          | num n =>
              exact settles_of_isTooLarge
                ((isTooLarge_power n k).bind fun m _ => isTooLarge_rootOfInt m)
          | var x => exact settles_of_isTooLarge (isTooLarge_rootOfVarPow x k)
          | bin | pow | root => exact hmultiply

theorem ends_collect (hes : ∀ f ∈ es, Fixed options f) :
    Settles SimplifyError.IsDepth (Fixed options) fun n => collect (level options n) es := by
  obtain ⟨d, hd⟩ := exists_rootDepth_le es
  have h := settles_collect (normalizes options d) fun f hf => ⟨(hes f hf).addendsFixed, hd f hf⟩
  exact h.mono fun _ h => h.1

theorem ends_multiplyAll (hes : ∀ f ∈ es, Fixed options f) :
    Settles SimplifyError.IsDepth (Fixed options) fun n => multiplyAll (level options n) es := by
  obtain ⟨d, hd⟩ := exists_rootDepth_le es
  have h := settles_multiplyAll (normalizes options d) fun f hf => ⟨hes f hf, hd f hf⟩
  exact h.mono fun _ h => h.1

/-- From some level on the outcome stays the same, and it is not for want of
levels. -/
def Ends (options : Options) (e : Expr) : Prop :=
  Settles SimplifyError.IsDepth (Fixed options) fun n => (level options n).simplify e

theorem ends_simplifyAddend {a : Expr.Addend} (h : Ends options a.value) :
    Settles SimplifyError.IsDepth (Fixed options) fun n => simplifyAddend (level options n) a := by
  refine Settles.bind h fun e he => ?_
  by_cases hneg : a.negated
  · simp only [hneg, if_true]
    exact ends_multiply (fixed_num _).addendsFixed he.addendsFixed
  · simp only [hneg]
    exact .const he

/-- It ends for an expression, and for each operand of the chain it may be: a
chain is one step, and its operands are simplified without the links. -/
structure EndsThroughout (options : Options) (e : Expr) : Prop where
  whole : Ends options e
  factors : ∀ f ∈ e.factors, Ends options f
  addends : ∀ a ∈ e.signedAddends, Ends options a.value

theorem EndsThroughout.of_single (h : Ends options e) (hfactors : e.factors = [e])
    (haddends : e.signedAddends = [⟨false, e⟩]) : EndsThroughout options e := by
  refine ⟨h, fun f hf => ?_, fun a ha => ?_⟩
  · rw [hfactors] at hf
    exact List.mem_singleton.mp hf ▸ h
  · rw [haddends] at ha
    exact List.mem_singleton.mp ha ▸ h

theorem endsThroughout (options : Options) (e : Expr) : EndsThroughout options e := by
  induction e with
  | num n => exact .of_single (.of_succ (.const (fixed_num n))) rfl rfl
  | var x => exact .of_single (.of_succ (.const (fixed_var x))) rfl rfl
  | pow b p ihb ihp =>
      refine .of_single (.of_succ (Settles.bind ihb.whole fun b' hb => ?_)) rfl rfl
      refine Settles.bind ihp.whole fun p' hp => ?_
      exact (ends_power hb p').of_ok fun n e hok =>
        fixed_power (reachesFixed_level options n) hb hp hok
  | root r ihr =>
      refine .of_single (.of_succ (Settles.bind ihr.whole fun r' hr => ?_)) rfl rfl
      exact (ends_squareRoot hr).of_ok fun n e hok =>
        fixed_squareRoot (reachesFixed_level options n) hr hok
  | bin op l r ihl ihr =>
      cases op with
      | div =>
          refine .of_single (.of_succ (Settles.bind ihl.whole fun l' hl => ?_)) rfl rfl
          exact Settles.bind ihr.whole fun r' hr => .const (.quotient hl hr)
      | mul =>
          have hfactors : ∀ f ∈ (Expr.bin .mul l r).factors, Ends options f := by
            rw [Expr.factors_mul]
            exact List.forall_mem_append.mpr ⟨ihl.factors, ihr.factors⟩
          have hwhole : Ends options (.bin .mul l r) :=
            .of_succ (.bind (.mapM hfactors) fun es hes => ends_multiplyAll hes)
          exact ⟨hwhole, hfactors, List.forall_mem_singleton.mpr hwhole⟩
      | add =>
          have haddends : ∀ a ∈ (Expr.bin .add l r).signedAddends, Ends options a.value :=
            List.forall_mem_append.mpr ⟨ihl.addends, ihr.addends⟩
          have hwhole : Ends options (.bin .add l r) :=
            .of_succ (.bind (.mapM fun a ha => ends_simplifyAddend (haddends a ha))
              fun es hes => ends_collect hes)
          exact ⟨hwhole, List.forall_mem_singleton.mpr hwhole, haddends⟩
      | sub =>
          -- what is subtracted is one operand, even when it is a sum itself
          have haddends : ∀ a ∈ (Expr.bin .sub l r).signedAddends, Ends options a.value :=
            List.forall_mem_append.mpr ⟨ihl.addends, List.forall_mem_singleton.mpr ihr.whole⟩
          have hwhole : Ends options (.bin .sub l r) :=
            .of_succ (.bind (.mapM fun a ha => ends_simplifyAddend (haddends a ha))
              fun es hes => ends_collect hes)
          exact ⟨hwhole, List.forall_mem_singleton.mpr hwhole, haddends⟩

/-! ## The threshold -/

/-- With `n` levels the outcome is no error of depth. What the limit is said to
be plays no part in this, so it is said to be `0`. -/
def Settled (maxExpansion : Nat) (e : Expr) (n : Nat) : Prop :=
  Fails (fun err => ¬ SimplifyError.IsDepth err) ((level ⟨0, maxExpansion⟩ n).simplify e)

theorem exists_settled (maxExpansion : Nat) (e : Expr) : ∃ n, Settled maxExpansion e n := by
  obtain ⟨x, hx, hyields⟩ := (endsThroughout ⟨0, maxExpansion⟩ e).whole
  obtain ⟨n, rfl⟩ := hx.exists
  exact ⟨n, hyields.fails⟩

theorem not_settled_zero {maxExpansion : Nat} : ¬ Settled maxExpansion e 0 :=
  fun h => h (.depthExceeded 0) rfl trivial

theorem Settled.simplify_eq {maxExpansion n maxDepth : Nat} (h : Settled maxExpansion e n)
    (hle : n ≤ maxDepth) :
    simplify ⟨maxDepth, maxExpansion⟩ e = (level ⟨0, maxExpansion⟩ n).simplify e := by
  have hagrees : (level ⟨0, maxExpansion⟩ n).Agrees (level ⟨maxDepth, maxExpansion⟩ maxDepth) :=
    agrees_level_of_eq (by rfl) hle
  exact (hagrees.simplify e).eq rfl h

theorem simplify_of_not_settled {maxExpansion maxDepth : Nat}
    (h : ¬ Settled maxExpansion e maxDepth) :
    simplify ⟨maxDepth, maxExpansion⟩ e = .error (.depthExceeded maxDepth) := by
  obtain ⟨err, herr, hdepth⟩ : ∃ err, (level ⟨0, maxExpansion⟩ maxDepth).simplify e = .error err ∧
      err.IsDepth := by
    simpa [Settled, Fails] using h
  have hagrees : (level ⟨maxDepth, maxExpansion⟩ maxDepth).Agrees
      (level ⟨0, maxExpansion⟩ maxDepth) := agrees_level_of_eq (by rfl) le_rfl
  obtain ⟨err', hdepth', herr'⟩ : ∃ err', err'.IsDepth ∧
      simplify ⟨maxDepth, maxExpansion⟩ e = .error err' := by
    rcases hagrees.simplify e with heq | hfail
    · exact ⟨err, hdepth, heq.trans herr⟩
    · exact hfail
  cases err' with
  | depthExceeded limit =>
      obtain rfl : limit = maxDepth := fails_simplify ⟨maxDepth, maxExpansion⟩ e _ herr'
      exact herr'
  | unsupported | exponentTooLarge | radicandTooLarge => exact hdepth'.elim

open Classical in
/-- A limit on the depth is either too small, and then simplification says so,
or it makes no difference. -/
theorem exists_threshold (e : Expr) (maxExpansion : Nat) :
    ∃ threshold, 1 ≤ threshold ∧
      (∀ maxDepth < threshold,
        simplify ⟨maxDepth, maxExpansion⟩ e = .error (.depthExceeded maxDepth)) ∧
      ∃ result, (∀ limit, result ≠ .error (.depthExceeded limit)) ∧
        ∀ maxDepth, threshold ≤ maxDepth → simplify ⟨maxDepth, maxExpansion⟩ e = result := by
  have hexists := exists_settled maxExpansion e
  have hsettled := Nat.find_spec hexists
  refine ⟨Nat.find hexists, ?_, fun maxDepth hlt => ?_, _, fun limit hlimit => ?_,
    fun maxDepth hle => hsettled.simplify_eq hle⟩
  · refine Nat.one_le_iff_ne_zero.mpr fun hzero => ?_
    exact not_settled_zero (hzero ▸ hsettled)
  · exact simplify_of_not_settled (Nat.find_min hexists hlt)
  · exact hsettled _ hlimit trivial

end Canonical

end Surd
