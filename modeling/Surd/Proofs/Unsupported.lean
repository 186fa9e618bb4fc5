import Surd.Proofs.Idempotent

/-!
# What is reported as unsupported

An error names an operation and the expression that stands in the way. Both are
right: the expression is a quotient, a power without a literal exponent or a
power of a compound base, as the operation says, and there is nothing left to
simplify in it. A sum never stands in the way.

Everything that is multiplied has been simplified before, so its factors are
fixed, or they are roots of what is fixed (`Factor`). Sums are met in two
places. Where a product is distributed they are expected, and everywhere else
the factors come from an addend or from a product under a root, which have no
sums among them. As results are known to be fixed already, the walk through the
operations is about errors alone.
-/

namespace Surd

/-- The operation says what the expression is. It does not say so of sums. -/
def Unsupported.Describes : Unsupported → Expr → Prop
  | .division, e => ∃ l r, e = .bin .div l r
  | .symbolicExponent, e => ∃ b p, e = .pow b p ∧ ∀ k, p = .num k → k < 0
  | .compoundPower, e => ∃ b k, e = .pow b (.num k) ∧ 2 ≤ k ∧ b.isLeaf = false
  | .nestedSum, _ => False

/-! ## Integers and variables

Where only integers and powers of variables are concerned, an error says that
one of them is too large. -/

/-- An exponent is too large, or an integer under a root. -/
def SimplifyError.IsTooLarge : SimplifyError → Prop
  | .exponentTooLarge _ => True
  | .radicandTooLarge _ => True
  | _ => False

theorem isTooLarge_power (n : Int) (k : Nat) :
    Yields SimplifyError.IsTooLarge (fun _ => True) (Integer.power n k) := by
  rw [Integer.power]
  split <;> trivial

theorem isTooLarge_squareSplit (n : Int) :
    Yields SimplifyError.IsTooLarge (fun _ => True) (Integer.squareSplit n) := by
  rw [Integer.squareSplit]
  split <;> trivial

theorem isTooLarge_rootOfInt (n : Int) :
    Yields SimplifyError.IsTooLarge (fun _ => True) (rootOfInt n) := by
  refine (isTooLarge_squareSplit n).bind fun s _ => ?_
  split
  · trivial
  · split
    · trivial
    · split <;> trivial

theorem isTooLarge_rootOfVarPow (x : String) (k : Nat) :
    Yields SimplifyError.IsTooLarge (fun _ => True) (rootOfVarPow x k) := by
  rw [rootOfVarPow]
  split <;> trivial

theorem Term.isTooLarge_mulVar (t : Term) (x : String) (k : Nat) :
    Yields SimplifyError.IsTooLarge (fun t' => t'.radical = t.radical) (t.mulVar x k) := by
  rw [mulVar]
  split
  · rfl
  · trivial

theorem Term.isTooLarge_mulHalves (t : Term) (vars : Powers) :
    Yields SimplifyError.IsTooLarge (fun _ => True) (t.mulHalves vars) :=
  Yields.foldlM trivial fun q _ s _ =>
    (s.isTooLarge_mulVar q.1 (q.2 / 2)).mono (fun _ he => he) fun _ _ => trivial

namespace Canonical

variable {options : Options} {lv : Level} {sums : Bool} {b e e' l p r : Expr} {es fs : List Expr}
  {t t' : Term}

/-- An error that is right about what it reports. -/
def IsAccurate (options : Options) : SimplifyError → Prop
  | .unsupported operation e => operation.Describes e ∧ Fixed options e
  | .depthExceeded limit => limit = options.maxDepth
  | _ => True

theorem fails_of_isTooLarge {α : Type _} {P : α → Prop} {x : Except SimplifyError α}
    (h : Yields SimplifyError.IsTooLarge P x) : Fails (IsAccurate options) x := by
  intro err herr
  have hlarge := h.fails err herr
  cases err with
  | exponentTooLarge | radicandTooLarge => trivial
  | unsupported | depthExceeded => exact hlarge.elim

/-- The same for a product, which may also have a sum among its factors. -/
def IsAccurateObstacle (options : Options) (sums : Bool) : Obstacle → Prop
  | .sum => sums
  | .failed e => IsAccurate options e

theorem IsAccurateObstacle.toError {o : Obstacle} (h : IsAccurateObstacle options false o)
    (e : Expr) : IsAccurate options (o.toError e) := by
  cases o with
  | sum => cases h
  | failed e => exact h

/-! ## Factors -/

/-- What a factor of something simplified can be. -/
inductive Factor (options : Options) (sums : Bool) : Expr → Prop where
  | fixed {e : Expr} : Fixed options e → e.isSum = false → Factor options sums e
  | root {r : Expr} : Fixed options r → Factor options sums (.root r)
  | sum {e : Expr} : sums → e.isSum → Factor options sums e

/-- The factors of an expression are such factors. -/
def Factored (options : Options) (sums : Bool) (e : Expr) : Prop :=
  ∀ f ∈ e.factors, Factor options sums f

theorem Factor.rootsFixed (h : Factor options sums e) : RootsFixed options e := by
  cases h with
  | fixed h _ => exact h.rootsFixed
  | root h => exact rootsFixed_root.mpr h
  | sum _ hsum =>
      intro r hr
      rw [Expr.factors_of_isSum hsum] at hr
      obtain rfl := List.mem_singleton.mp hr
      cases hsum

theorem Factored.rootsFixed (h : Factored options sums e) : RootsFixed options e := by
  intro r hr
  refine (h _ hr).rootsFixed r ?_
  exact List.mem_singleton_self _

theorem Factor.of_isSum (h : Factor options sums e) (hsum : e.isSum = false) :
    Factor options false e := by
  cases h with
  | fixed hfixed hsum => exact .fixed hfixed hsum
  | root hr => exact .root hr
  | sum _ hs =>
      rw [hsum] at hs
      cases hs

theorem Factored.mono (h : Factored options sums e) : Factored options true e := by
  intro f hf
  cases h f hf with
  | fixed hfixed hsum => exact .fixed hfixed hsum
  | root hr => exact .root hr
  | sum _ hsum => exact .sum rfl hsum

theorem factored_of_factors (hfactors : e.factors = [e]) (h : Factor options sums e) :
    Factored options sums e := by
  intro f hf
  rw [hfactors] at hf
  exact List.mem_singleton.mp hf ▸ h

theorem Factored.of_mem_factors (h : Factored options sums e) {f : Expr} (hf : f ∈ e.factors) :
    Factored options sums f :=
  factored_of_factors (Expr.operands_of_mem_operands hf) (h f hf)

theorem factored_root (h : Fixed options r) : Factored options sums (.root r) :=
  factored_of_factors rfl (.root h)

theorem fixed_varPow {x : String} {k : Nat} (hk : 0 < k) : Fixed options (Expr.varPow x k) := by
  rw [Expr.varPow]
  split
  · exact fixed_var x
  · refine .power (fixed_var x) (fixed_num k) ?_ ⟨0, fun k _ hproper => ?_⟩
    · show 2 ≤ k
      omega
    · cases hproper

theorem FixedTerm.fixed_of_mem_toFactors (h : FixedTerm t) : ∀ f ∈ t.toFactors,
    Fixed options f := by
  intro f hf
  rcases Term.mem_toFactors.mp hf with ⟨-, rfl⟩ | ⟨q, hq, rfl⟩ | ⟨r, hr, rfl⟩
  · exact fixed_num _
  · exact fixed_varPow (t.vars.bounded q hq).1
  · show Fixed options (Term.mk 1 .one (some r)).toExpr
    exact .term fun e he => Option.some.inj he ▸ h r hr

theorem Fixed.fixed_of_mem_factors (h : Fixed options e) : ∀ f ∈ e.factors, Fixed options f := by
  intro f hf
  cases h with
  | term ht =>
      rcases Term.mem_factors_toExpr hf with hf | ⟨n, rfl⟩
      · exact ht.fixed_of_mem_toFactors f hf
      · exact fixed_num n
  | sum hts hunlike =>
      rw [Expr.factors_of_isSum hunlike.isSum_sumOf] at hf
      exact List.mem_singleton.mp hf ▸ .sum hts hunlike
  | quotient hl hr => exact List.mem_singleton.mp hf ▸ .quotient hl hr
  | power hb hp hpower hkept => exact List.mem_singleton.mp hf ▸ .power hb hp hpower hkept

theorem FixedTerm.factored (h : FixedTerm t) : Factored options sums t.toExpr := by
  intro f hf
  exact .fixed ((Fixed.term h).fixed_of_mem_factors f hf) (Term.isSum_of_mem_factors_toExpr hf)

/-- A fixed expression has a sum among its factors only if it is one. -/
theorem Fixed.factored (h : Fixed options e) : Factored options e.isSum e := by
  cases h with
  | term ht => exact ht.factored
  | sum _ hunlike =>
      have hsum := hunlike.isSum_sumOf
      exact factored_of_factors (Expr.factors_of_isSum hsum) (.sum hsum hsum)
  | quotient hl hr => exact factored_of_factors rfl (.fixed (.quotient hl hr) rfl)
  | power hb hp hpower hkept =>
      exact factored_of_factors rfl (.fixed (.power hb hp hpower hkept) rfl)

theorem Fixed.factored_of_mem_addends (h : Fixed options e) {a : Expr} (ha : a ∈ e.addends) :
    Factored options false a := by
  cases h with
  | @term t ht =>
      rw [Term.addends_toExpr] at ha
      exact List.mem_singleton.mp ha ▸ ht.factored
  | sum hts hunlike =>
      rw [hunlike.addends_sumOf] at ha
      obtain ⟨t, ht, rfl⟩ := List.mem_map.mp ha
      exact (hts t ht).factored
  | quotient hl hr => exact List.mem_singleton.mp ha ▸ (Fixed.quotient hl hr).factored
  | power hb hp hpower hkept =>
      exact List.mem_singleton.mp ha ▸ (Fixed.power hb hp hpower hkept).factored

/-! ## Powers -/

theorem neg_of_exponent? (h : p.exponent? = none) {n : Int} (hp : p = .num n) : n < 0 := by
  subst hp
  cases n with
  | ofNat k => cases h
  | negSucc k => exact Int.negSucc_lt_zero k

theorem Fixed.isPower (h : Fixed options (.pow b p)) : IsPower b p := by
  generalize heq : Expr.pow b p = e at h
  cases h with
  | @term t _ =>
      have hmem : .pow b p ∈ t.toExpr.factors := heq ▸ List.mem_singleton_self _
      rcases Term.mem_factors_toExpr hmem with hmem | ⟨n, hn⟩
      · rcases Term.mem_toFactors.mp hmem with ⟨-, hn⟩ | ⟨q, hq, hpow⟩ | ⟨r, -, hr⟩
        · cases hn
        · rw [Expr.varPow] at hpow
          split at hpow
          · cases hpow
          · next hone =>
              obtain ⟨rfl, rfl⟩ := Expr.pow.inj hpow
              have hpos := (t.vars.bounded q hq).1
              show 2 ≤ q.2
              omega
        · cases hr
      · cases hn
  | sum _ hunlike =>
      have hop := hunlike.op?_sumOf
      rw [← heq] at hop
      cases hop
  | quotient _ _ => cases heq
  | power _ _ hpower _ =>
      obtain ⟨rfl, rfl⟩ := Expr.pow.inj heq
      exact hpower

/-- A power that does not fit into a term has no literal exponent, or it is a
proper power of something compound. -/
theorem fails_mulPower (t : Term) (h : Fixed options (.pow b p)) :
    Fails (IsAccurate options) (t.mulPower b p) := by
  cases hp : p.exponent? with
  | none =>
      simp only [Term.mulPower, hp]
      refine .error ⟨⟨b, p, rfl, fun n hn => ?_⟩, h⟩
      exact neg_of_exponent? hp hn
  | some k =>
      obtain rfl := eq_num_of_exponent? hp
      have hpower : IsPower b (.num k) := h.isPower
      cases b with
      | num n => exact (fails_of_isTooLarge (isTooLarge_power n k)).bind fun _ _ => .ok _
      | var x =>
          show Fails _ (if k ≤ maxExponent then t.mulVar x k else .error (.exponentTooLarge k))
          split
          · exact fails_of_isTooLarge (t.isTooLarge_mulVar x k)
          · exact .error trivial
      | pow | root | bin =>
          refine .error ⟨⟨_, k, rfl, ?_, rfl⟩, h⟩
          exact Int.ofNat_le.mpr hpower

/-! ## One step -/

/-- What is asked for at a level fails with accurate errors. -/
structure FailsAccurately (options : Options) (lv : Level) : Prop extends
    ReachesFixed options lv where
  fails_simplify : ∀ e, Fails (IsAccurate options) (lv.simplify e)
  fails_normalize : ∀ {sums fs}, (∀ f ∈ fs, Factored options sums f) →
    Fails (IsAccurateObstacle options sums) (lv.normalize fs)

section Step

variable (hlevel : FailsAccurately options lv)
include hlevel

theorem fails_extract {radicand : Expr} (t : Term)
    (hfs : ∀ f ∈ fs, Factored options false f) :
    Fails (IsAccurate options) (Term.extract lv radicand t fs) := by
  refine ((hlevel.fails_normalize hfs).mapError fun o ho => ho.toError radicand).bind
    fun inner _ => ?_
  refine (fails_of_isTooLarge (isTooLarge_squareSplit inner.coeff)).bind fun s _ => ?_
  exact (fails_of_isTooLarge (Term.isTooLarge_mulHalves _ inner.vars)).bind fun _ _ => .ok _

theorem fails_mulRoot (ht : FixedTerm t) (he : Fixed options e) :
    Fails (IsAccurate options) (t.mulRoot lv e) := by
  -- the sums are put aside first, so none is met when the rest is normalized
  have hrest : ∀ f ∈ (t.merged e).filter fun f => !f.isSum, Factored options false f := by
    intro f hf
    obtain ⟨hmem, hsum⟩ := List.mem_filter.mp hf
    obtain ⟨r, hr, hfr⟩ := exists_fixed_of_mem_merged ht he hmem
    exact factored_of_factors (Expr.operands_of_mem_operands hfr)
      ((hr.factored f hfr).of_isSum (by simpa using hsum))
  rw [Term.mulRoot, List.partition_eq_filter_filter]
  refine (fails_extract hlevel _ hrest).bind ?_
  rintro ⟨t₁, left⟩ -
  dsimp only
  split
  · exact .ok _
  · exact .ok _
  · refine (hlevel.fails_simplify _).bind fun canonical hcanonical => ?_
    have hfixed := hlevel.simplify hcanonical
    split
    · exact .ok _
    · next hsum =>
        have hfactored := hfixed.factored
        rw [Bool.not_eq_true _ |>.mp hsum] at hfactored
        exact (fails_extract hlevel t₁ fun f hf => hfactored.of_mem_factors hf).bind
          fun _ _ => .ok _

theorem fails_absorb (ht : FixedTerm t) (he : Factor options sums e) (hop : e.op? ≠ some .mul) :
    Fails (IsAccurateObstacle options sums) (t.absorb lv e) := by
  cases he with
  | root hr => exact (fails_mulRoot hlevel ht hr).mapError fun _ h => h
  | sum hsums hsum =>
      cases e with
      | bin op l r =>
          cases op with
          | add | sub => exact .error hsums
          | mul | div => cases hsum
      | num | var | pow | root => cases hsum
  | fixed hfixed hsum =>
      cases e with
      | num n => exact .ok _
      | var x => exact (fails_of_isTooLarge (t.isTooLarge_mulVar x 1)).mapError fun _ h => h
      | pow b p => exact (fails_mulPower t hfixed).mapError fun _ h => h
      | root r =>
          have hr := rootsFixed_root.mp hfixed.rootsFixed
          exact (fails_mulRoot hlevel ht hr).mapError fun _ h => h
      | bin op l r =>
          cases op with
          | mul => exact absurd rfl hop
          | add | sub => cases hsum
          | div => exact .error ⟨⟨l, r, rfl⟩, hfixed⟩

theorem fails_normalize (hfs : ∀ f ∈ fs, Factored options sums f) :
    Fails (IsAccurateObstacle options sums) (normalize lv fs) := by
  have hfactor : ∀ f ∈ fs.flatMap Expr.factors, Factor options sums f ∧ f.op? ≠ some .mul := by
    intro f hf
    obtain ⟨e, he, hfe⟩ := List.mem_flatMap.mp hf
    exact ⟨hfs e he f hfe, Expr.op?_ne_of_mem_operands hfe⟩
  rw [normalize_eq_flatMap]
  refine Fails.foldlM (P := FixedTerm) (fixedTerm_of_radical rfl) ?_ ?_
  · intro f hf t t' ht hok
    exact fixedTerm_absorb hlevel.toReachesFixed ht (hfactor f hf).1.rootsFixed hok
  · intro f hf t ht
    exact fails_absorb hlevel ht (hfactor f hf).1 (hfactor f hf).2

theorem fails_normalize_term (hfs : ∀ f ∈ fs, Factored options false f) (e : Expr) :
    Fails (IsAccurate options) ((normalize lv fs).mapError (Obstacle.toError e)) :=
  (fails_normalize hlevel hfs).mapError fun _ ho => ho.toError e

theorem fails_collect (hes : ∀ f ∈ es, Fixed options f) :
    Fails (IsAccurate options) (collect lv es) := by
  refine Fails.bind (.mapM fun a ha => ?_) fun _ _ => .ok _
  obtain ⟨f, hf, haf⟩ := List.mem_flatMap.mp ha
  refine fails_normalize_term hlevel (fun g hg => ?_) a
  exact List.mem_singleton.mp hg ▸ (hes f hf).factored_of_mem_addends haf

theorem fails_distribute (hl : Fixed options l) (hr : Fixed options r) :
    Fails (IsAccurate options) (distribute lv l r) := by
  have hpairs : ∀ p ∈ addendPairs l r, ∀ a ∈ [p.1, p.2], Factored options false a := by
    intro p hp
    obtain ⟨ha, hb⟩ := mem_addendPairs.mp hp
    simp [hl.factored_of_mem_addends ha, hr.factored_of_mem_addends hb]
  refine Fails.bind (.mapM fun p hp => fails_normalize_term hlevel (hpairs p hp) _) ?_
  intro products hproducts
  refine fails_collect hlevel fun f hf => ?_
  obtain ⟨t, ht, rfl⟩ := List.mem_map.mp hf
  obtain ⟨p, hp, hnorm⟩ := exists_of_forall₂ (mapM_eq_ok.mp hproducts) ht
  refine .term (fixedTerm_normalize hlevel.toReachesFixed ?_ (mapError_eq_ok.mp hnorm))
  exact fun a ha => (hpairs p hp a ha).rootsFixed

theorem fails_multiply (hl : Fixed options l) (hr : Fixed options r) :
    Fails (IsAccurate options) (multiply lv l r) := by
  have hfs : ∀ f ∈ [l, r], Factored options true f := by
    simp [hl.factored.mono, hr.factored.mono]
  have hnorm := fails_normalize hlevel hfs
  rw [multiply]
  split
  · exact .ok _
  · exact fails_distribute hlevel hl hr
  · next err herr => exact .error (hnorm (.failed err) herr)

theorem fails_multiplyAll (hes : ∀ f ∈ es, Fixed options f) :
    Fails (IsAccurate options) (multiplyAll lv es) := by
  have hnorm := fails_normalize hlevel fun f hf => (hes f hf).factored.mono
  simp only [multiplyAll]
  split
  · exact .ok _
  · split
    · exact .ok _
    · next f fs _ =>
        refine Fails.foldlM (hes f List.mem_cons_self) ?_ ?_
        · intro g hg s s' hs hok
          have hg := hes g (List.mem_cons_of_mem f hg)
          exact fixed_multiply hlevel.toReachesFixed hs.addendsFixed hg.addendsFixed hok
        · intro g hg s hs
          exact fails_multiply hlevel hs (hes g (List.mem_cons_of_mem f hg))
  · next err herr => exact .error (hnorm (.failed err) herr)

/-! ### Roots and powers -/

/-- A root is merged into a term, so no sum is met beside it. -/
theorem fails_multiply_root (hr : Fixed options r) :
    Fails (IsAccurate options) (multiply lv (.num 1) (.root r)) := by
  have hone : Factored options false (.num 1) := (fixed_num 1).factored
  have hfs : ∀ f ∈ [.num 1, .root r], Factored options false f := by
    simp [hone, factored_root hr]
  have hnorm := fails_normalize hlevel hfs
  rw [multiply]
  split
  · exact .ok _
  · next hsum => cases hnorm .sum hsum
  · next err herr => exact .error (hnorm (.failed err) herr)

theorem fails_squareRoot (hr : Fixed options r) : Fails (IsAccurate options) (squareRoot lv r) := by
  have hmultiply := fails_multiply_root hlevel hr
  simp only [squareRoot]
  split
  · exact fails_of_isTooLarge (isTooLarge_rootOfInt _)
  · exact .ok _
  · split
    · exact fails_of_isTooLarge ((isTooLarge_power _ _).bind fun m _ => isTooLarge_rootOfInt m)
    · exact fails_of_isTooLarge (isTooLarge_rootOfVarPow _ _)
    · exact hmultiply
  · exact hmultiply

theorem fails_expand (b : Expr) (k : Nat) : Fails (IsAccurate options) (expand lv b k) := by
  rw [expand]
  split
  · exact .ok _
  · exact hlevel.fails_simplify _

theorem fails_power (b p : Expr) : Fails (IsAccurate options) (power options lv b p) := by
  simp only [power]
  split
  · exact .ok _
  · exact (fails_of_isTooLarge (isTooLarge_power _ _)).bind fun _ _ => .ok _
  · exact .ok _
  · exact .ok _
  · exact .ok _
  · split
    · exact fails_expand hlevel _ _
    · exact .ok _

theorem fails_simplifyAddend (a : Expr.Addend) :
    Fails (IsAccurate options) (simplifyAddend lv a) := by
  refine (hlevel.fails_simplify a.value).bind fun e he => ?_
  split
  · exact fails_multiply hlevel (fixed_num _) (hlevel.simplify he)
  · exact .ok _

theorem fails_simplifyStep (e : Expr) : Fails (IsAccurate options) (simplifyStep options lv e) := by
  cases e with
  | num | var => exact .ok _
  | pow b p =>
      refine (hlevel.fails_simplify b).bind fun b' _ => ?_
      exact (hlevel.fails_simplify p).bind fun p' _ => fails_power hlevel b' p'
  | root r =>
      exact (hlevel.fails_simplify r).bind fun r' hr' =>
        fails_squareRoot hlevel (hlevel.simplify hr')
  | bin op l r =>
      cases op with
      | add | sub =>
          refine Fails.bind (.mapM fun a _ => fails_simplifyAddend hlevel a) fun es hes => ?_
          refine fails_collect hlevel fun f hf => ?_
          obtain ⟨a, -, haf⟩ := exists_of_forall₂ (mapM_eq_ok.mp hes) hf
          exact fixed_simplifyAddend hlevel.toReachesFixed haf
      | mul =>
          refine Fails.bind (.mapM fun f _ => hlevel.fails_simplify f) fun es hes => ?_
          refine fails_multiplyAll hlevel fun f hf => ?_
          obtain ⟨a, -, haf⟩ := exists_of_forall₂ (mapM_eq_ok.mp hes) hf
          exact hlevel.simplify haf
      | div =>
          refine (hlevel.fails_simplify l).bind fun _ _ => ?_
          exact (hlevel.fails_simplify r).bind fun _ _ => .ok _

end Step

/-! ## Every level -/

theorem failsAccurately_level (options : Options) (n : Nat) :
    FailsAccurately options (level options n) := by
  induction n with
  | zero => exact ⟨reachesFixed_level options 0, fun _ => .error rfl, fun _ => .error rfl⟩
  | succ n ih =>
      exact ⟨reachesFixed_level options (n + 1), fails_simplifyStep ih, fails_normalize ih⟩

theorem fails_simplify (options : Options) (e : Expr) :
    Fails (IsAccurate options) (simplify options e) :=
  (failsAccurately_level options options.maxDepth).fails_simplify e

theorem Fixed.simplify_eq (h : Fixed options e) :
    simplify options e = .ok e ∨ ∃ limit, simplify options e = .error (.depthExceeded limit) := by
  obtain ⟨n, hn⟩ := exists_simplify_eq h
  have hmax := simplify_level_mono (Nat.le_max_left n options.maxDepth) hn
  rcases (agrees_level options (Nat.le_max_right n options.maxDepth)).simplify e with
    heq | ⟨err, herr, hfail⟩
  · exact .inl (heq.trans hmax)
  · cases err with
    | depthExceeded limit => exact .inr ⟨limit, hfail⟩
    | unsupported | exponentTooLarge | radicandTooLarge => exact herr.elim

/-- What is reported as unsupported is what the error says it is, and there is
nothing left to simplify in it. -/
theorem simplify_unsupported {operation : Unsupported}
    (h : simplify options e = .error (.unsupported operation e')) :
    operation ≠ .nestedSum ∧ operation.Describes e' ∧ (simplify options e' = .ok e' ∨
      ∃ limit, simplify options e' = .error (.depthExceeded limit)) := by
  obtain ⟨hdescribes, hfixed⟩ : operation.Describes e' ∧ Fixed options e' :=
    fails_simplify options e _ h
  refine ⟨?_, hdescribes, hfixed.simplify_eq⟩
  rintro rfl
  exact hdescribes

/-- `(2√2 + x)^20`. -/
def largePower : Expr :=
  .pow (.bin .add (.product [.num 2, .root (.num 2)]) (.var "x")) (.num 20)

/-- `1 - (√8 + x)^20` is not multiplied out, and the power that is reported has
`2√2` in it. -/
theorem simplify_unsupported_largePower :
    simplify {} (.bin .sub (.num 1) (.pow (.bin .add (.root (.num 8)) (.var "x")) (.num 20))) =
        .error (.unsupported .compoundPower largePower) ∧
      Unsupported.compoundPower.Describes largePower ∧
      simplify {} largePower = .ok largePower := by
  have h : simplify {} (.bin .sub (.num 1)
      (.pow (.bin .add (.root (.num 8)) (.var "x")) (.num 20))) =
        .error (.unsupported .compoundPower largePower) := by
    rfl
  obtain ⟨-, hdescribes, hagain⟩ := simplify_unsupported h
  refine ⟨h, hdescribes, ?_⟩
  rcases hagain with heq | ⟨limit, hlimit⟩
  · exact heq
  · cases hlimit

end Canonical

end Surd
