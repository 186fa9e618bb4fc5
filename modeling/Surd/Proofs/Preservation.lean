import Mathlib.Analysis.SpecialFunctions.Pow.Real
import Surd.Proofs.SquareSplit
import Surd.Proofs.TermMeaning

/-!
# Simplification keeps the value

Each operation of the simplifier is shown to mean what it is named for, on
operands that are defined: normalizing is multiplication, collecting is
addition, and so on. What is asked for one level deeper is assumed to keep the
value (`Level.Preserves`), and the levels follow by induction.

All the care is needed where roots are merged. A product of radicands is not
negative, but the factors that are pulled apart there may be, and what is left
of them is only known to make sense if something was left of their squares: if
the extracted factor is zero then so is the whole term. Dividing by its square
otherwise shows that what stays under the root is not negative
(`Term.Extracts`).
-/

namespace Surd

variable {F : Type _} [Field F] [LinearOrder F] {A : Arithmetic F} {env : String → F}
  {options : Options} {level : Level} {e e' l r : Expr} {es fs left : List Expr} {t t' : Term}
  {u v w : F}

/-- An expression that is defined and means `v`. -/
structure Expr.Means (A : Arithmetic F) (env : String → F) (e : Expr) (v : F) : Prop where
  defined : e.Defined A env
  value : e.value A env = v

/-- What is asked for at this level comes back with its value. -/
structure Level.Preserves (A : Arithmetic F) (env : String → F) (level : Level) : Prop where
  names : level.KeepsNames Expr.isLetter
  simplify : ∀ {e e'}, level.simplify e = .ok e' → e.Defined A env →
    e'.Means A env (e.value A env)
  normalize : ∀ {fs t}, level.normalize fs = .ok t → (∀ f ∈ fs, f.Defined A env) →
    t.Means A env (fs.map (Expr.value A env)).prod

namespace Term

omit [LinearOrder F] in
theorem scale_mulVar {x : String} {k : Nat} (h : t.mulVar x k = .ok t') :
    t'.scale env = t.scale env * env x ^ k := by
  obtain ⟨vars, hvars, rfl⟩ := mulVar_eq_ok.mp h
  rw [scale, scale, Powers.value_mulVar? hvars, mul_assoc]

omit [LinearOrder F] in
theorem scale_mulHalves {vars : Powers} (h : t.mulHalves vars = .ok t') :
    t'.scale env = t.scale env * vars.halves env := by
  rw [mulHalves] at h
  rw [Powers.halves]
  revert h
  generalize vars.entries = qs
  intro h
  induction qs generalizing t with
  | nil =>
      obtain rfl := pure_eq_ok.mp h
      exact (mul_one _).symm
  | cons q qs ih =>
      obtain ⟨t₁, ht₁, h⟩ := bind_eq_ok.mp h
      rw [ih h, scale_mulVar ht₁, List.map_cons, List.prod_cons, mul_assoc]

/-! ## Factors -/

theorem Means.mulInt (ht : t.Means A env v) (n : Int) : (t.mulInt n).Means A env (v * n) := by
  refine ⟨⟨ht.defined.names.mulInt n, fun hcoeff => ht.defined.root fun h0 => hcoeff ?_⟩, ?_⟩
  · rw [Term.mulInt, h0, zero_mul]
  · rw [← ht.value]
    show ((t.coeff * n : Int) * t.vars.value env) * t.rootValue A env = _
    rw [Int.cast_mul, Term.value, scale]
    ring

theorem Means.toExpr (hA : A.Lawful) (h : t.Means A env v) : t.toExpr.Means A env v :=
  ⟨h.defined.toExpr, (value_toExpr hA).trans h.value⟩

theorem Means.mulVar {x : String} {k : Nat} (ht : t.Means A env v) (hx : Expr.isLetter x)
    (h : t.mulVar x k = .ok t') : t'.Means A env (v * env x ^ k) := by
  have hscale : t'.scale env = t.scale env * env x ^ k := scale_mulVar h
  have hnames := ht.defined.names.mulVar hx h
  obtain ⟨vars, -, rfl⟩ := mulVar_eq_ok.mp h
  refine ⟨⟨hnames, ht.defined.root⟩, ?_⟩
  rw [← ht.value, Term.value, hscale, Term.value]
  show t.scale env * env x ^ k * t.rootValue A env = _
  ring

theorem Means.mulPower (hA : A.Lawful) {b k : Expr} (ht : t.Means A env v)
    (hb : (Expr.pow b k).Defined A env) (h : t.mulPower b k = .ok t') :
    t'.Means A env (v * (Expr.pow b k).value A env) := by
  obtain ⟨j, hj, hcases⟩ := mulPower_eq_ok h
  obtain rfl := eq_num_of_exponent? hj
  rw [Expr.value_pow_num hA]
  rcases hcases with ⟨m, n, rfl, hn, rfl⟩ | ⟨x, rfl, -, hx⟩
  · rw [Expr.value, hA.int, ← Int.cast_pow, ← Integer.power?_eq_some hn]
    exact ht.mulInt n
  · exact ht.mulVar (Expr.defined_pow.mp hb).1.letters hx

/-! ## Merging roots -/

theorem means_of_coeff_eq_zero (hnames : t.Names Expr.isLetter) (h : t.coeff = 0) :
    t.Means A env 0 :=
  ⟨⟨hnames, fun hne => absurd h hne⟩, value_of_coeff_eq_zero h⟩

/-- `u` has been taken out of the root of the product of `fs`, and `left` is
still under it. -/
structure Extracts (A : Arithmetic F) (env : String → F) (t t' : Term) (fs left : List Expr)
    (u : F) : Prop where
  nonneg : 0 ≤ u
  prod : (fs.map (Expr.value A env)).prod = u ^ 2 * (left.map (Expr.value A env)).prod
  scale : t'.scale env = t.scale env * u
  coeff : u = 0 → t'.coeff = 0
  defined : u ≠ 0 → ∀ f ∈ left, f.Defined A env

theorem coeff_extract {radicand : Expr} (h : Term.extract level radicand t fs = .ok (t', left))
    (ht : t.coeff = 0) : t'.coeff = 0 := by
  obtain ⟨inner, split, -, -, hhalves, -⟩ := extract_eq_ok h
  rw [(mulHalves_eq_ok hhalves).1, Term.mulInt, ht, zero_mul]

variable [IsStrictOrderedRing F] (hA : A.Lawful) (henv : ∀ x, 0 < env x)
  (hlevel : level.Preserves A env)
include hA henv hlevel

theorem exists_extracts {radicand : Expr} (hfs : ∀ f ∈ fs, f.Defined A env)
    (h : Term.extract level radicand t fs = .ok (t', left)) :
    ∃ u, t.Extracts A env t' fs left u := by
  obtain ⟨inner, split, hinner, hsplit, hhalves, rfl⟩ := extract_eq_ok h
  have hmeans := hlevel.normalize hinner hfs
  obtain ⟨hcoeff, hfree⟩ := Integer.squareSplit?_spec hsplit
  have hpos := inner.vars.halves_pos henv
  have hcast : ((split.outside : F)) ^ 2 * (split.inside : F) = inner.coeff := by
    rw [← hcoeff]
    push_cast
    rfl
  refine ⟨split.outside * inner.vars.halves env, ⟨?_, ?_, ?_, ?_, ?_⟩⟩
  · exact mul_nonneg (Nat.cast_nonneg _) hpos.le
  · rw [← hmeans.value, leftovers_eq, prod_value_toFactors hA, Term.value, Term.value, scale,
      scale, inner.vars.value_eq_halves, ← hcast]
    show _ = _ * (split.inside * inner.vars.odd.value env * inner.rootValue A env)
    ring
  · rw [scale_mulHalves hhalves, scale, scale, Term.mulInt, Int.cast_mul, Int.cast_natCast]
    ring
  · intro hu
    have hout : (split.outside : F) = 0 := (mul_eq_zero.mp hu).resolve_right hpos.ne'
    rw [(mulHalves_eq_ok hhalves).1, Term.mulInt, Nat.cast_eq_zero.mp hout]
    exact mul_zero _
  · intro hu
    have hne : inner.coeff ≠ 0 := by
      rw [← hcoeff]
      refine mul_ne_zero (pow_ne_zero 2 fun h0 => hu ?_) hfree.ne_zero
      rw [Nat.cast_eq_zero.mp h0, Nat.cast_zero, zero_mul]
    have hleft : (inner.leftover split.inside).Defined A env :=
      ⟨hmeans.defined.names.leftover _, fun _ => hmeans.defined.root hne⟩
    rw [leftovers_eq]
    exact hleft.toFactors hfree.ne_zero

def radicandValue (A : Arithmetic F) (env : String → F) (t : Term) : F :=
  (t.radical.map (Expr.value A env)).getD 1

omit henv hlevel in
theorem rootValue_eq_sqrt : t.rootValue A env = A.sqrt (t.radicandValue A env) := by
  unfold rootValue radicandValue
  cases t.radical with
  | none => exact hA.sqrt_one.symm
  | some r => rfl

omit henv hlevel in
/-- Putting a radicand under the root of a term that `u` has been multiplied
to. -/
theorem means_of_scale {radical : Option Expr} (hu : 0 ≤ u) (hscale : t.scale env = v * u)
    (hcoeff : u = 0 → t.coeff = 0) (hw : 0 ≤ w)
    (hnames : Term.Names Expr.isLetter { t with radical })
    (hradicand : u ≠ 0 → w = u ^ 2 * (Term.radicandValue A env { t with radical }) ∧
      ∀ r, radical = some r → r.Defined A env)
    (hzero : u = 0 → w = 0) :
    Term.Means A env { t with radical } (v * A.sqrt w) := by
  by_cases h0 : u = 0
  · rw [hzero h0, hA.sqrt_zero, mul_zero]
    exact means_of_coeff_eq_zero hnames (hcoeff h0)
  · obtain ⟨hprod, hdefined⟩ := hradicand h0
    have hnonneg : 0 ≤ Term.radicandValue A env { t with radical } := by
      have hpos : 0 < u ^ 2 := pow_pos (lt_of_le_of_ne hu (Ne.symm h0)) 2
      exact (mul_nonneg_iff_of_pos_left hpos).mp (hprod ▸ hw)
    refine ⟨⟨hnames, fun _ r hr => ?_⟩, ?_⟩
    · refine Expr.defined_root.mpr ⟨hdefined r hr, ?_⟩
      obtain rfl : radical = some r := hr
      exact hnonneg
    · rw [Term.value, rootValue_eq_sqrt hA, hprod, hA.sqrt_sq_mul hu hnonneg, ← mul_assoc,
        ← hscale]
      rfl

omit henv hlevel in
theorem Extracts.means {t₁ : Term} (h : t.Extracts A env t₁ fs left u)
    {radical : Option Expr} (hw : 0 ≤ w)
    (hnames : Term.Names Expr.isLetter { t₁ with radical })
    (hradicand : u ≠ 0 → w = u ^ 2 * (Term.radicandValue A env { t₁ with radical }) ∧
      ∀ r, radical = some r → r.Defined A env)
    (hzero : u = 0 → w = 0) :
    Term.Means A env { t₁ with radical } (t.scale env * A.sqrt w) :=
  means_of_scale hA h.nonneg h.scale h.coeff hw hnames hradicand hzero

omit [IsStrictOrderedRing F] henv hlevel in
theorem radicandValue_chain? (t : Term) (fs : List Expr) :
    Term.radicandValue A env { t with radical := Expr.chain? .mul fs } =
      (fs.map (Expr.value A env)).prod := by
  cases fs with
  | nil => rfl
  | cons f fs => exact Expr.value_foldl_mul hA

omit [IsStrictOrderedRing F] henv hlevel in
theorem prod_merged : ((t.merged e).map (Expr.value A env)).prod =
    t.radicandValue A env * e.value A env := by
  rw [merged, List.map_append, List.prod_append, Expr.prod_value_factors hA, radicalFactors,
    radicandValue]
  cases t.radical with
  | none => rfl
  | some r => exact congrArg (· * _) (Expr.prod_value_factors hA)

omit [IsStrictOrderedRing F] hA henv hlevel in
theorem defined_merged (ht : ∀ r, t.radical = some r → r.Defined A env)
    (he : e.Defined A env) : ∀ f ∈ t.merged e, f.Defined A env := by
  intro f hf
  rcases mem_merged.mp hf with ⟨r, hr, hf⟩ | hf
  · exact Expr.defined_operands.mpr (ht r hr) f hf
  · exact Expr.defined_operands.mpr he f hf

omit [IsStrictOrderedRing F] hA henv hlevel in
theorem coeff_mulRoot (h : t.mulRoot level e = .ok t') (ht : t.coeff = 0) : t'.coeff = 0 := by
  obtain ⟨t₁, left, hex, hcases⟩ := mulRoot_eq_ok h
  have ht₁ := coeff_extract hex ht
  rcases hcases with ⟨-, rfl⟩ | ⟨s, -, -, rfl⟩ | ⟨canonical, -, ⟨-, rfl⟩ | ⟨t₂, left₂, hex₂, rfl⟩⟩
  · exact ht₁
  · exact ht₁
  · exact ht₁
  · have ht₂ := coeff_extract hex₂ ht₁
    exact ht₂

/-- A root that is merged into a sum multiplied out, or into what it cancels
down to. -/
theorem Extracts.means_canonical {t₁ : Term} {canonical : Expr} (h : t.Extracts A env t₁ fs left u)
    (hw : 0 ≤ w) (hnames : t'.Names Expr.isLetter) (hzero : u = 0 → w = 0)
    (hcanonical : u ≠ 0 → canonical.Defined A env ∧ w = u ^ 2 * canonical.value A env)
    (hcases : (canonical.isSum ∧ t' = { t₁ with radical := some canonical }) ∨
      ∃ t₂ left₂, Term.extract level canonical t₁ canonical.factors = .ok (t₂, left₂) ∧
        t' = { t₂ with radical := Expr.chain? .mul left₂ }) :
    t'.Means A env (t.scale env * A.sqrt w) := by
  rcases hcases with ⟨-, rfl⟩ | ⟨t₂, left₂, hex₂, rfl⟩
  · refine h.means hA hw hnames (fun hne => ?_) hzero
    obtain ⟨hdefined, hvalue⟩ := hcanonical hne
    exact ⟨hvalue, fun r hr => Option.some.inj hr ▸ hdefined⟩
  · by_cases hne : u = 0
    · rw [hzero hne, hA.sqrt_zero, mul_zero]
      have hcoeff := coeff_extract hex₂ (h.coeff hne)
      exact means_of_coeff_eq_zero hnames hcoeff
    · obtain ⟨hdefined, hvalue⟩ := hcanonical hne
      obtain ⟨u₂, hu₂⟩ := exists_extracts hA henv hlevel (Expr.defined_operands.mpr hdefined) hex₂
      have hprod : canonical.value A env = u₂ ^ 2 * (left₂.map (Expr.value A env)).prod := by
        rw [← Expr.prod_value_factors hA, hu₂.prod]
      have hpos : 0 < u ^ 2 := pow_pos (lt_of_le_of_ne h.nonneg (Ne.symm hne)) 2
      have hnonneg : 0 ≤ canonical.value A env :=
        (mul_nonneg_iff_of_pos_left hpos).mp (hvalue ▸ hw)
      rw [hvalue, hA.sqrt_sq_mul h.nonneg hnonneg, ← mul_assoc, ← h.scale]
      refine hu₂.means hA hnonneg hnames (fun hne₂ => ⟨?_, fun r hr => ?_⟩) fun h0 => ?_
      · rw [radicandValue_chain? hA, hprod]
      · exact Expr.property_chain? (fun _ _ => Expr.defined_bin) (hu₂.defined hne₂) hr
      · rw [hprod, h0, zero_pow two_ne_zero, zero_mul]

omit hA henv hlevel in
theorem radicandValue_nonneg (h : ∀ r, t.radical = some r → (Expr.root r).Defined A env) :
    0 ≤ t.radicandValue A env := by
  rw [radicandValue]
  cases hr : t.radical with
  | none => exact zero_le_one
  | some r => exact (Expr.defined_root.mp (h r hr)).2

omit henv hlevel in
theorem Means.value_mul_root (ht : t.Means A env v) (hr : 0 ≤ t.radicandValue A env)
    (he : 0 ≤ e.value A env) : v * (Expr.root e).value A env =
      t.scale env * A.sqrt (t.radicandValue A env * e.value A env) := by
  rw [← ht.value, Term.value, rootValue_eq_sqrt hA, hA.sqrt_mul hr he, mul_assoc]
  rfl

omit [IsStrictOrderedRing F] henv hlevel in
/-- Both radicands together, when the sums among their factors were set
aside and `u` was taken out of the rest. -/
theorem Extracts.prod_merged {t₁ : Term}
    (h : t.Extracts A env t₁ ((t.merged e).filter fun f => !f.isSum) left u) :
    t.radicandValue A env * e.value A env =
      u ^ 2 * ((left.map (Expr.value A env)).prod *
        (((t.merged e).filter Expr.isSum).map (Expr.value A env)).prod) := by
  have hfilter := List.prod_map_filter_mul_prod_map_filter_not (fun f => f.isSum = true)
    (Expr.value A env) (t.merged e)
  simp only [Bool.decide_eq_true, Bool.not_eq_true, Bool.decide_eq_false] at hfilter
  rw [← Term.prod_merged hA, ← hfilter, h.prod]
  ring

theorem Means.mulRoot (ht : t.Means A env v) (he : (Expr.root e).Defined A env)
    (hok : t.mulRoot level e = .ok t') :
    t'.Means A env (v * (Expr.root e).value A env) := by
  have hnames := names_mulRoot (e := e) hlevel.names ht.defined.names he.letters hok
  -- what is under the root of a vanishing term need not make sense
  by_cases hcoeff : t.coeff = 0
  · rw [← ht.value, value_of_coeff_eq_zero hcoeff, zero_mul]
    exact means_of_coeff_eq_zero hnames (coeff_mulRoot hok hcoeff)
  obtain ⟨hdefined, hnonneg⟩ := Expr.defined_root.mp he
  have hroot := ht.defined.root hcoeff
  have hradicand := radicandValue_nonneg hroot
  have hw := mul_nonneg hradicand hnonneg
  rw [ht.value_mul_root hA hradicand hnonneg]
  have hmerged := defined_merged (fun r hr => (Expr.defined_root.mp (hroot r hr)).1) hdefined
  obtain ⟨t₁, left, hex, hcases⟩ := mulRoot_eq_ok hok
  obtain ⟨u, hu⟩ := exists_extracts hA henv hlevel
    (fun f hf => hmerged f (List.mem_filter.mp hf).1) hex
  -- taking the root off the term has not changed its scale
  have hu : t.Extracts A env t₁ ((t.merged e).filter fun f => !f.isSum) left u :=
    ⟨hu.nonneg, hu.prod, hu.scale, hu.coeff, hu.defined⟩
  have hsplit := hu.prod_merged hA
  have hzero : u = 0 → t.radicandValue A env * e.value A env = 0 := fun h0 => by
    rw [hsplit, h0, zero_pow two_ne_zero, zero_mul]
  rcases hcases with ⟨hsums, rfl⟩ | ⟨s, hs, rfl, rfl⟩ | ⟨canonical, hcan, hcases⟩
  · refine hu.means hA hw hnames (fun hne => ⟨?_, fun r hr => ?_⟩) hzero
    · rw [radicandValue_chain? hA, hsplit, hsums, List.map_nil, List.prod_nil, mul_one]
    · exact Expr.property_chain? (fun _ _ => Expr.defined_bin) (hu.defined hne) hr
  · refine hu.means hA hw hnames (fun hne => ⟨?_, fun r hr => ?_⟩) hzero
    · rw [hsplit, hs, List.map_nil, List.prod_nil, one_mul, List.map_singleton,
        List.prod_singleton]
      rfl
    · have hmem : s ∈ (t.merged e).filter Expr.isSum := hs ▸ List.mem_singleton_self s
      exact Option.some.inj hr ▸ hmerged s (List.mem_filter.mp hmem).1
  · refine hu.means_canonical hA henv hlevel hw hnames hzero (fun hne => ?_) hcases
    have hperm := sortByText_perm ((t.merged e).filter Expr.isSum)
    have hmeans := hlevel.simplify hcan <| Expr.defined_product fun f hf => by
      rcases List.mem_append.mp hf with hf | hf
      · exact hu.defined hne f hf
      · exact hmerged f (List.mem_filter.mp (hperm.mem_iff.mp hf)).1
    refine ⟨hmeans.defined, ?_⟩
    rw [hmeans.value, Expr.value_product hA, List.map_append, List.prod_append,
      (hperm.map _).prod_eq, hsplit]

/-! ## Products of factors -/

theorem Means.absorb (ht : t.Means A env v) (he : e.Defined A env)
    (hok : t.absorb level e = .ok t') : t'.Means A env (v * e.value A env) := by
  induction e generalizing t t' v with
  | num n =>
      rw [Expr.value, hA.int]
      exact Except.ok.inj hok ▸ ht.mulInt n
  | var x =>
      have h := ht.mulVar he.letters (mapError_eq_ok.mp hok)
      rwa [pow_one] at h
  | pow b k => exact ht.mulPower hA he (mapError_eq_ok.mp hok)
  | root e => exact ht.mulRoot hA henv hlevel he (mapError_eq_ok.mp hok)
  | bin op l r ihl ihr =>
      obtain ⟨hl, hr⟩ := Expr.defined_bin.mp he
      cases op with
      | mul =>
          obtain ⟨t₁, ht₁, hok⟩ := bind_eq_ok.mp hok
          rw [Expr.value, hA.mul, ← mul_assoc]
          exact ihr (ihl ht hl ht₁) hr hok
      | add | sub | div => cases hok

end Term

section Step

variable [IsStrictOrderedRing F] (hA : A.Lawful) (henv : ∀ x, 0 < env x)
  (hlevel : level.Preserves A env)
include hA henv hlevel

omit [LinearOrder F] [IsStrictOrderedRing F] hA henv hlevel in
/-- A fold that multiplies by the value of each element. -/
theorem foldlM_prod {β ε : Type _} {M : β → F → Prop} {f : β → Expr → Except ε β} {b b' : β}
    (h : es.foldlM f b = .ok b') (hb : M b v)
    (hf : ∀ e ∈ es, ∀ b b' v, M b v → f b e = .ok b' → M b' (v * e.value A env)) :
    M b' (v * (es.map (Expr.value A env)).prod) := by
  have hfoldl : es.foldl (fun v e => v * e.value A env) v =
      v * (es.map (Expr.value A env)).prod := by
    clear h hb hf
    induction es generalizing v with
    | nil => simp
    | cons e es ih => simp [ih, mul_assoc]
  exact hfoldl ▸ foldlM_foldl h hb hf

theorem means_normalize (hfs : ∀ f ∈ fs, f.Defined A env) (hok : normalize level fs = .ok t) :
    t.Means A env (fs.map (Expr.value A env)).prod := by
  have hone : Term.one.Means A env 1 := by
    refine ⟨Term.defined_one, ?_⟩
    rw [Term.value, Term.scale]
    show ((1 : Int) : F) * 1 * 1 = 1
    rw [Int.cast_one, mul_one, mul_one]
  have h := foldlM_prod (M := fun t v => t.Means A env v) hok hone
    fun f hf s s' v hs hs' => hs.absorb hA henv hlevel (hfs f hf) hs'
  rwa [one_mul] at h

omit [IsStrictOrderedRing F] hA henv hlevel in
theorem defined_of_forall₂ {α : Type _} {f : α → F} {as : List α}
    (h : List.Forall₂ (fun a e => Expr.Means A env e (f a)) as es) :
    ∀ e ∈ es, e.Defined A env := by
  intro e he
  obtain ⟨a, -, hae⟩ := exists_of_forall₂ h he
  exact hae.defined

omit [IsStrictOrderedRing F] hA henv hlevel in
theorem map_value_of_forall₂ {α : Type _} {f : α → F} {as : List α}
    (h : List.Forall₂ (fun a e => Expr.Means A env e (f a)) as es) :
    es.map (Expr.value A env) = as.map f :=
  map_eq_of_forall₂ (h.imp fun _ _ hae => hae.value)

omit [IsStrictOrderedRing F] henv hlevel in
theorem sum_flatMap_addends (es : List Expr) :
    ((es.flatMap Expr.addends).map (Expr.value A env)).sum = (es.map (Expr.value A env)).sum := by
  induction es with
  | nil => rfl
  | cons e es ih =>
      rw [List.flatMap_cons, List.map_append, List.sum_append, ih, Expr.sum_value_addends hA,
        List.map_cons, List.sum_cons]

theorem means_normalize_singleton {a : Expr} (ha : a.Defined A env)
    (hok : normalize level [a] = .ok t) : t.Means A env (a.value A env) := by
  have h := means_normalize hA henv hlevel (fun f hf => List.mem_singleton.mp hf ▸ ha) hok
  rwa [List.map_singleton, List.prod_singleton] at h

theorem means_collect (hes : ∀ f ∈ es, f.Defined A env) (hok : collect level es = .ok e) :
    e.Means A env (es.map (Expr.value A env)).sum := by
  obtain ⟨terms, hterms, rfl⟩ := collect_eq_ok hok
  have haddends : ∀ a ∈ es.flatMap Expr.addends, a.Defined A env := by
    intro a ha
    obtain ⟨f, hf, haf⟩ := List.mem_flatMap.mp ha
    exact Expr.defined_operands.mpr (hes f hf) a haf
  have hmeans : List.Forall₂ (fun a t => Term.Means A env t (a.value A env))
      (es.flatMap Expr.addends) terms :=
    ((List.forall₂_and_left _ _).mpr ⟨haddends, hterms⟩).imp fun a t h =>
      means_normalize_singleton hA henv hlevel h.1 h.2
  have hdefined : ∀ t ∈ terms, t.Defined A env := by
    intro t ht
    obtain ⟨a, -, hat⟩ := exists_of_forall₂ hmeans ht
    exact hat.defined
  obtain ⟨hcombined, hsum⟩ := Term.defined_combine hA hdefined
  refine ⟨Expr.defined_sum fun f hf => ?_, ?_⟩
  · obtain ⟨t, ht, rfl⟩ := List.mem_map.mp hf
    exact (hcombined t ht).toExpr
  · have hexprs : ((Term.combine terms).map Term.toExpr).map (Expr.value A env) =
        (Term.combine terms).map (Term.value A env) := by
      rw [List.map_map]
      exact List.map_congr_left fun t _ => Term.value_toExpr hA
    rw [Expr.value_sum hA, hexprs, hsum, map_eq_of_forall₂ (hmeans.imp fun _ _ h => h.value),
      sum_flatMap_addends hA]

omit [LinearOrder F] [IsStrictOrderedRing F] hA henv hlevel in
theorem sum_addendPairs : ((addendPairs l r).map fun p => p.1.value A env * p.2.value A env).sum =
    (l.addends.map (Expr.value A env)).sum * (r.addends.map (Expr.value A env)).sum := by
  rw [addendPairs]
  generalize l.addends = as
  induction as with
  | nil => simp
  | cons a as ih =>
      rw [List.flatMap_cons, List.map_append, List.sum_append, ih, List.map_cons, List.sum_cons,
        add_mul, List.map_map, ← List.sum_map_mul_left _ _ (a.value A env)]
      rfl

theorem means_multiply (hl : l.Defined A env) (hr : r.Defined A env)
    (hok : multiply level l r = .ok e) : e.Means A env (l.value A env * r.value A env) := by
  have hpair : ∀ {a b : Expr} {t : Term}, a.Defined A env → b.Defined A env →
      normalize level [a, b] = .ok t → t.Means A env (a.value A env * b.value A env) := by
    intro a b t ha hb hok
    have h := means_normalize hA henv hlevel (by simp [ha, hb]) hok
    rwa [List.map_cons, List.map_singleton, List.prod_cons, List.prod_singleton] at h
  rcases multiply_eq_ok hok with ⟨t, ht, rfl⟩ | hok
  · have hmeans := hpair hl hr ht
    exact hmeans.toExpr hA
  · obtain ⟨products, hproducts, hok⟩ := distribute_eq_ok hok
    have hpairs : ∀ p ∈ addendPairs l r, p.1.Defined A env ∧ p.2.Defined A env := by
      rintro ⟨a, b⟩ hp
      obtain ⟨ha, hb⟩ := mem_addendPairs.mp hp
      exact ⟨Expr.defined_operands.mpr hl a ha, Expr.defined_operands.mpr hr b hb⟩
    have hmeans : List.Forall₂
        (fun p f => Expr.Means A env f (p.1.value A env * p.2.value A env))
        (addendPairs l r) (products.map Term.toExpr) := by
      refine List.forall₂_map_right_iff.mpr ?_
      refine ((List.forall₂_and_left _ _).mpr ⟨hpairs, hproducts⟩).imp fun p t h => ?_
      exact (hpair h.1.1 h.1.2 h.2).toExpr hA
    have hsum := means_collect hA henv hlevel (defined_of_forall₂ hmeans) hok
    rwa [map_value_of_forall₂ hmeans, sum_addendPairs, Expr.sum_value_addends hA,
      Expr.sum_value_addends hA] at hsum

theorem means_multiplyAll (hes : ∀ f ∈ es, f.Defined A env) (hok : multiplyAll level es = .ok e) :
    e.Means A env (es.map (Expr.value A env)).prod := by
  rcases multiplyAll_eq_ok hok with ⟨t, ht, rfl⟩ | ⟨f, fs, rfl, hfold⟩
  · have hmeans := means_normalize hA henv hlevel hes ht
    exact hmeans.toExpr hA
  · rw [List.map_cons, List.prod_cons]
    refine foldlM_prod (M := fun e v => e.Means A env v) hfold
      ⟨hes f List.mem_cons_self, rfl⟩ fun g hg s s' v hs hs' => ?_
    have hmeans := means_multiply hA henv hlevel hs.defined
      (hes g (List.mem_cons_of_mem f hg)) hs'
    exact hs.value ▸ hmeans

/-! ## Roots and powers -/

omit henv hlevel in
theorem means_rootOfInt {n : Int} (hn : 0 ≤ (n : F)) (hok : rootOfInt n = .ok e) :
    e.Means A env (A.sqrt n) := by
  obtain ⟨s, hs, rfl⟩ := rootOfInt_eq_ok hok
  obtain ⟨hsplit, -⟩ := Integer.squareSplit?_spec hs
  have hcast : (n : F) = (s.outside : F) ^ 2 * (s.inside : F) := by
    rw [← hsplit]
    push_cast
    rfl
  have hscale : Term.scale env ⟨s.outside, .one, none⟩ = 1 * (s.outside : F) := by
    rw [Term.scale, Powers.value_one, mul_one, one_mul, Int.cast_natCast]
  have hcoeff : (s.outside : F) = 0 → (s.outside : Int) = 0 := fun h0 =>
    congrArg Nat.cast (Nat.cast_eq_zero.mp h0)
  have hradicand : (n : F) = (s.outside : F) ^ 2 * (Term.ofSplit s).radicandValue A env := by
    rw [hcast, Term.radicandValue, Term.ofSplit]
    by_cases hone : s.inside = 1
    · simp [hone]
    · simp [hone, Expr.value, hA.int]
  have hdefined : ∀ r, (Term.ofSplit s).radical = some r → r.Defined A env := by
    intro r hr
    obtain ⟨-, rfl⟩ := Term.eq_of_radical_ofSplit hr
    exact Expr.defined_num s.inside
  have hzero : (s.outside : F) = 0 → (n : F) = 0 := fun h0 => by
    rw [hcast, h0, zero_pow two_ne_zero, zero_mul]
  have hmeans : (Term.ofSplit s).Means A env (1 * A.sqrt n) :=
    Term.means_of_scale hA (Nat.cast_nonneg s.outside) hscale hcoeff hn (Term.names_ofSplit s)
      (fun _ => ⟨hradicand, hdefined⟩) hzero
  rw [one_mul] at hmeans
  exact hmeans.toExpr hA

omit hlevel in
theorem means_rootOfVarPow {x : String} {k : Nat} (hx : Expr.isLetter x)
    (hok : rootOfVarPow x k = .ok e) : e.Means A env (A.sqrt (env x ^ k)) := by
  obtain ⟨half, hhalf, rfl⟩ := rootOfVarPow_eq_ok hok
  have hpos := pow_pos (henv x) (k / 2)
  have hpow : env x ^ k = (env x ^ (k / 2)) ^ 2 * env x ^ (k % 2) := by
    rw [← pow_mul, ← pow_add, Nat.div_add_mod']
  have hscale : Term.scale env ⟨1, half, none⟩ = 1 * env x ^ (k / 2) := by
    rw [Term.scale, Powers.value_mulVar? hhalf, Powers.value_one, Int.cast_one, one_mul]
  have hradicand : env x ^ k =
      (env x ^ (k / 2)) ^ 2 * (Term.ofHalf half x k).radicandValue A env := by
    rw [hpow, Term.radicandValue, Term.ofHalf]
    by_cases hodd : k % 2 = 1
    · simp [hodd, Expr.value]
    · simp [show k % 2 = 0 by omega]
  have hdefined : ∀ r, (Term.ofHalf half x k).radical = some r → r.Defined A env := fun r hr =>
    Term.eq_of_radical_ofHalf hr ▸ Expr.defined_var hx
  have hmeans : (Term.ofHalf half x k).Means A env (1 * A.sqrt (env x ^ k)) :=
    Term.means_of_scale hA hpos.le hscale (fun h0 => absurd h0 hpos.ne') (pow_pos (henv x) k).le
      (Term.names_ofHalf hx hhalf) (fun _ => ⟨hradicand, hdefined⟩) fun h0 => absurd h0 hpos.ne'
  rw [one_mul] at hmeans
  exact hmeans.toExpr hA

theorem means_squareRoot (hr : (Expr.root r).Defined A env) (hok : squareRoot level r = .ok e) :
    e.Means A env ((Expr.root r).value A env) := by
  obtain ⟨hdefined, hnonneg⟩ := Expr.defined_root.mp hr
  cases squareRoot_eq_ok hok with
  | @int n e h =>
      rw [Expr.value, hA.int] at hnonneg
      rw [Expr.value, Expr.value, hA.int]
      exact means_rootOfInt hA hnonneg h
  | var => exact ⟨hr, rfl⟩
  | @intPow n m k e hm h =>
      have hvalue : (Expr.pow (.num n) (.num k)).value A env = m := by
        rw [Expr.value_pow_num hA, Expr.value, hA.int, Integer.power?_eq_some hm, Int.cast_pow]
      rw [hvalue] at hnonneg
      rw [Expr.value, hvalue]
      exact means_rootOfInt hA hnonneg h
  | @varPow x k e h =>
      rw [Expr.value, Expr.value_pow_num hA, Expr.value]
      exact means_rootOfVarPow hA henv (Expr.defined_pow.mp hdefined).1.letters h
  | merged h =>
      have hmeans := means_multiply hA henv hlevel (Expr.defined_num 1) hr h
      rwa [Expr.value, hA.int, Int.cast_one, one_mul] at hmeans

omit [IsStrictOrderedRing F] henv in
theorem means_power {b p : Expr} (hb : b.Defined A env) (hp : p.Defined A env)
    (hok : power options level b p = .ok e) : e.Means A env ((Expr.pow b p).value A env) := by
  have hpow := Expr.defined_pow.mpr ⟨hb, hp⟩
  cases power_eq_ok hok with
  | symbolic _ => exact ⟨hpow, rfl⟩
  | @int n m k hm =>
      refine ⟨Expr.defined_num m, ?_⟩
      rw [Expr.value_pow_num hA, Expr.value, Expr.value, hA.int, hA.int,
        Integer.power?_eq_some hm, Int.cast_pow]
  | zero =>
      refine ⟨Expr.defined_num 1, ?_⟩
      rw [Expr.value_pow_num hA, pow_zero, Expr.value, hA.int, Int.cast_one]
  | one =>
      refine ⟨hb, ?_⟩
      rw [Expr.value_pow_num hA, pow_one]
  | var _ => exact ⟨hpow, rfl⟩
  | @expanded _ _ k _ _ h =>
      have hmeans := hlevel.simplify h <|
        Expr.defined_product fun f hf => List.eq_of_mem_replicate hf ▸ hb
      refine ⟨hmeans.defined, hmeans.value.trans ?_⟩
      rw [Expr.value_pow_num hA, Expr.value_product hA, List.map_replicate, List.prod_replicate]
  | kept _ _ _ => exact ⟨hpow, rfl⟩

/-! ## One step -/

theorem means_simplifyAddend {a : Expr.Addend} (ha : a.value.Defined A env)
    (hok : simplifyAddend level a = .ok e) : e.Means A env (a.signedValue A env) := by
  obtain ⟨f, hf, hok⟩ := bind_eq_ok.mp hok
  have hmeans := hlevel.simplify hf ha
  rw [Expr.Addend.signedValue]
  split at hok
  · next hneg =>
      have h := means_multiply hA henv hlevel (Expr.defined_num (-1)) hmeans.defined hok
      rw [if_pos hneg]
      rwa [Expr.value, hA.int, Int.cast_neg, Int.cast_one, neg_one_mul, hmeans.value] at h
  · next hpos =>
      rw [if_neg hpos]
      exact pure_eq_ok.mp hok ▸ hmeans

/-- A chain of sums and differences is collected from its operands. -/
theorem means_addends (he : ∀ a ∈ e.signedAddends, a.value.Defined A env)
    (hes : e.signedAddends.mapM (simplifyAddend level) = .ok es)
    (hok : collect level es = .ok e') : e'.Means A env (e.value A env) := by
  have hmeans : List.Forall₂ (fun a f => Expr.Means A env f (a.signedValue A env))
      e.signedAddends es :=
    ((List.forall₂_and_left _ _).mpr ⟨he, mapM_eq_ok.mp hes⟩).imp fun a f h =>
      means_simplifyAddend hA henv hlevel h.1 h.2
  have h := means_collect hA henv hlevel (defined_of_forall₂ hmeans) hok
  rwa [map_value_of_forall₂ hmeans, Expr.sum_signedValue_signedAddends hA] at h

theorem means_simplifyStep (he : e.Defined A env) (hok : simplifyStep options level e = .ok e') :
    e'.Means A env (e.value A env) := by
  cases e with
  | num n => exact Except.ok.inj hok ▸ ⟨he, rfl⟩
  | var x => exact Except.ok.inj hok ▸ ⟨he, rfl⟩
  | pow b p =>
      obtain ⟨hb, hp⟩ := Expr.defined_pow.mp he
      obtain ⟨b', hb', hok⟩ := bind_eq_ok.mp hok
      obtain ⟨p', hp', hok⟩ := bind_eq_ok.mp hok
      have hb' := hlevel.simplify hb' hb
      have hp' := hlevel.simplify hp' hp
      have h := means_power hA hlevel hb'.defined hp'.defined hok
      rwa [Expr.value, hb'.value, hp'.value] at h
  | root r =>
      obtain ⟨hr, hnonneg⟩ := Expr.defined_root.mp he
      obtain ⟨r', hr', hok⟩ := bind_eq_ok.mp hok
      have hr' := hlevel.simplify hr' hr
      have hroot := Expr.defined_root.mpr ⟨hr'.defined, hr'.value.symm ▸ hnonneg⟩
      have h := means_squareRoot hA henv hlevel hroot hok
      rwa [Expr.value, hr'.value] at h
  | bin op l r =>
      cases op with
      | add | sub =>
          obtain ⟨fs, hfs, hok⟩ := bind_eq_ok.mp hok
          refine means_addends hA henv hlevel ?_ hfs hok
          exact (Expr.forall_signedAddends_iff (fun _ _ => Expr.defined_bin)
            fun _ _ => Expr.defined_bin).mpr he
      | mul =>
          obtain ⟨fs, hfs, hok⟩ := bind_eq_ok.mp hok
          have hmeans : List.Forall₂ (fun a f => Expr.Means A env f (a.value A env))
              (Expr.bin .mul l r).factors fs :=
            ((List.forall₂_and_left _ _).mpr
              ⟨Expr.defined_operands.mpr he, mapM_eq_ok.mp hfs⟩).imp fun a f h =>
                hlevel.simplify h.2 h.1
          have h := means_multiplyAll hA henv hlevel (defined_of_forall₂ hmeans) hok
          rwa [map_value_of_forall₂ hmeans, Expr.prod_value_factors hA] at h
      | div =>
          obtain ⟨hl, hr⟩ := Expr.defined_bin.mp he
          obtain ⟨l', hl', hok⟩ := bind_eq_ok.mp hok
          obtain ⟨r', hr', hok⟩ := bind_eq_ok.mp hok
          obtain rfl := pure_eq_ok.mp hok
          have hl' := hlevel.simplify hl' hl
          have hr' := hlevel.simplify hr' hr
          refine ⟨Expr.defined_bin.mpr ⟨hl'.defined, hr'.defined⟩, ?_⟩
          rw [Expr.value, hl'.value, hr'.value, Expr.value]

end Step

/-! ## Every level -/

section Levels

variable [IsStrictOrderedRing F] (hA : A.Lawful) (henv : ∀ x, 0 < env x)
include hA henv

theorem preserves_level (options : Options) (n : Nat) :
    (Surd.level options n).Preserves A env := by
  induction n with
  | zero =>
      refine ⟨keepsNames_level options 0, fun h => ?_, fun h => ?_⟩
      · cases h
      · cases h
  | succ n ih =>
      exact ⟨keepsNames_level options (n + 1), fun h he => means_simplifyStep hA henv ih he h,
        fun h hfs => means_normalize hA henv ih hfs h⟩

/-- A simplified expression has the value of the expression, wherever the
variables are positive and no radicand in the expression is negative. -/
theorem value_simplify (hletters : e.allVars Expr.isLetter)
    (hradicands : ∀ v ∈ e.radicandValues A env, 0 ≤ v) (h : simplify options e = .ok e') :
    e'.value A env = e.value A env :=
  ((preserves_level hA henv options _).simplify h ⟨hletters, hradicands⟩).value

end Levels

/-! ## The real numbers -/

/-- The usual meaning of everything in the real numbers. -/
noncomputable def Arithmetic.real : Arithmetic ℝ where
  int := fun n => n
  op
    | .add, a, b => a + b
    | .sub, a, b => a - b
    | .mul, a, b => a * b
    | .div, a, b => a / b
  pow := fun a b => a ^ b
  sqrt := Real.sqrt

theorem Arithmetic.lawful_real : Arithmetic.real.Lawful where
  int := fun _ => rfl
  add := fun _ _ => rfl
  sub := fun _ _ => rfl
  mul := fun _ _ => rfl
  pow := Real.rpow_natCast
  sqrt_nonneg := fun a _ => Real.sqrt_nonneg a
  sq_sqrt := fun _ ha => Real.sq_sqrt ha

/-- `(√2 + √a) * √(2a)`. -/
def productOfRoots : Expr :=
  .bin .mul (.bin .add (.root (.num 2)) (.root (.var "a"))) (.root (.bin .mul (.num 2) (.var "a")))

/-- `2√a + a√2` has the same value, for instance where `a` is `3`. -/
theorem value_simplify_productOfRoots :
    Arithmetic.real.Lawful ∧ (∀ x : String, 0 < (fun _ => 3 : String → ℝ) x) ∧
      productOfRoots.allVars Expr.isLetter ∧
      (∀ v ∈ productOfRoots.radicandValues Arithmetic.real (fun _ => 3), 0 ≤ v) ∧
      simplify {} productOfRoots =
        .ok (.sum [.product [.num 2, .root (.var "a")], .product [.var "a", .root (.num 2)]]) ∧
      (Expr.sum [.product [.num 2, .root (.var "a")],
        .product [.var "a", .root (.num 2)]]).value Arithmetic.real (fun _ => 3) =
          productOfRoots.value Arithmetic.real (fun _ => 3) := by
  have henv : ∀ x : String, 0 < (fun _ => 3 : String → ℝ) x := fun _ => three_pos
  have hletters : productOfRoots.allVars Expr.isLetter := by decide
  have hradicands : ∀ v ∈ productOfRoots.radicandValues Arithmetic.real (fun _ => 3), 0 ≤ v := by
    simp [productOfRoots, Expr.radicandValues, Expr.value, Arithmetic.real]
  have h : simplify {} productOfRoots =
      .ok (.sum [.product [.num 2, .root (.var "a")], .product [.var "a", .root (.num 2)]]) := by
    rfl
  exact ⟨Arithmetic.lawful_real, henv, hletters, hradicands, h,
    value_simplify Arithmetic.lawful_real henv hletters hradicands h⟩

end Surd
