import Mathlib.Data.Nat.Factorization.Basic
import Surd.Proofs.Weights

/-!
# How often a prime or a variable divides

An expression without sums, with positive integers only, is a product of primes
and variables, each as often as it divides the expression; under a root it
counts half. These multiplicities are weights, so products keep them, and here
it is shown that everything else the simplifier does to such expressions keeps
them too.
-/

namespace Surd

/-- What a monomial is made of. -/
inductive Atom where
  | prime (p : Nat)
  | name (x : String)

variable {P : Int → Prop} {a : Atom} {options : Options} {level : Level} {e e' l r : Expr}
  {es fs : List Expr} {t : Term}

namespace Atom

/-- How often an atom divides a positive integer. -/
def inInt : Atom → Nat → Nat
  | .prime p, n => n.factorization p
  | .name _, _ => 0

def inVar : Atom → String → Nat
  | .prime _, _ => 0
  | .name x, y => if x = y then 1 else 0

theorem inInt_one : a.inInt 1 = 0 := by
  cases a with
  | prime p => rw [inInt, Nat.factorization_one, Finsupp.zero_apply]
  | name x => rfl

theorem inInt_mul {m n : Nat} (hm : m ≠ 0) (hn : n ≠ 0) :
    a.inInt (m * n) = a.inInt m + a.inInt n := by
  cases a with
  | prime p => rw [inInt, Nat.factorization_mul hm hn, Finsupp.add_apply, inInt, inInt]
  | name x => rfl

theorem inInt_pow (m k : Nat) : a.inInt (m ^ k) = k * a.inInt m := by
  cases a with
  | prime p => rw [inInt, Nat.factorization_pow, Finsupp.smul_apply, smul_eq_mul, inInt]
  | name x => rfl

end Atom

theorem pos_of_power? {m n : Int} {k : Nat} (hm : 0 < m) (h : Integer.power? m k = some n) :
    0 < n :=
  Integer.power?_eq_some h ▸ Int.pow_pos hm

theorem inInt_of_power? {m n : Int} {k : Nat} (h : Integer.power? m k = some n) :
    a.inInt n.natAbs = k * a.inInt m.natAbs := by
  rw [Integer.power?_eq_some h, Int.natAbs_pow, Atom.inInt_pow]

/-! ## Expressions -/

/-- A positive integer, a variable, or a product, a root or a literal power of
such expressions. -/
inductive Expr.RootMonomial : Expr → Prop where
  | num {n : Int} : 0 < n → RootMonomial (.num n)
  | var {x : String} : RootMonomial (.var x)
  | mul {l r : Expr} : RootMonomial l → RootMonomial r → RootMonomial (.bin .mul l r)
  | pow {b : Expr} {k : Nat} : RootMonomial b → RootMonomial (.pow b (.num k))
  | root {e : Expr} : RootMonomial e → RootMonomial (.root e)

/-- How often an atom divides an expression. Roots halve it, so that it need
not be an integer. What is no monomial counts as `1`. -/
def Expr.multiplicity (a : Atom) : Expr → ℚ
  | .num n => a.inInt n.natAbs
  | .var x => a.inVar x
  | .bin .mul l r => l.multiplicity a + r.multiplicity a
  | .pow b p => p.exponent?.getD 0 * b.multiplicity a
  | .root e => e.multiplicity a / 2
  | _ => 0

/-- The multiplicity of an atom is a weight. -/
def Atom.weight (hP : Closed P) (a : Atom) : Weight P ℚ where
  int n := a.inInt n.natAbs
  var x := a.inVar x
  half := ⟨⟨fun v => v / 2, zero_div 2⟩, fun v v' => add_div v v' 2⟩
  int_one := congrArg Nat.cast inInt_one
  int_mul hm hn := by
    rw [Int.natAbs_mul, inInt_mul (Int.natAbs_ne_zero.mpr (hP.ne_zero hm))
      (Int.natAbs_ne_zero.mpr (hP.ne_zero hn)), Nat.cast_add]
  half_int _ := by simp
  half_var _ := by simp

theorem Atom.expr_weight (hP : Closed P) (a : Atom) : (a.weight hP).expr = Expr.multiplicity a := by
  funext e
  induction e with
  | num n => rfl
  | var x => rfl
  | pow b p ihb _ => rw [Weight.expr, ihb, nsmul_eq_mul, Expr.multiplicity]
  | root e ih => exact congrArg (· / 2) ih
  | bin op l r ihl ihr =>
      cases op with
      | mul => rw [Weight.expr, ihl, ihr, Expr.multiplicity]
      | add | sub | div => rfl

namespace Expr

theorem rootMonomial_iff : e.RootMonomial ↔ e.Monomial (0 < ·) := by
  constructor
  · intro h
    induction h with
    | num hn => exact .num hn
    | var => exact .var
    | mul _ _ ihl ihr => exact .mul ihl ihr
    | pow _ ih => exact .pow ih
    | root _ ih => exact .root ih
  · intro h
    induction h with
    | num hn => exact .num hn
    | var => exact .var
    | mul _ _ ihl ihr => exact .mul ihl ihr
    | pow _ ih => exact .pow ih
    | root _ ih => exact .root ih

theorem RootMonomial.mul_iff :
    (Expr.bin .mul l r).RootMonomial ↔ l.RootMonomial ∧ r.RootMonomial := by
  simp only [rootMonomial_iff, Monomial.mul_iff]

theorem RootMonomial.factors (h : e.RootMonomial) : ∀ f ∈ e.factors, f.RootMonomial :=
  (forall_operands_iff fun _ _ => mul_iff).mpr h

theorem RootMonomial.op?_ne_add (h : e.RootMonomial) : e.op? ≠ some .add :=
  (rootMonomial_iff.mp h).op?_ne_add

theorem multiplicity_pow_num (b : Expr) (k : Nat) :
    (Expr.pow b (.num k)).multiplicity a = k * b.multiplicity a :=
  rfl

theorem multiplicity_product :
    (product es).multiplicity a = (es.map (multiplicity a)).sum := by
  rw [← a.expr_weight closed_pos]
  exact Weight.expr_product

theorem sum_multiplicity_factors :
    (e.factors.map (multiplicity a)).sum = e.multiplicity a := by
  rw [← a.expr_weight closed_pos]
  exact Weight.sum_expr_factors

end Expr

/-! ## Powers of variables -/

namespace Powers

/-- How often an atom divides a product of powers. -/
def count (p : Powers) : Atom → Nat
  | .prime _ => 0
  | .name x => p.exponent x

theorem sum_inVar_name {ps : List (String × Nat)} (hps : ps.Pairwise fun p q => p.1 < q.1)
    (x : String) :
    (ps.map fun q => q.2 * Atom.inVar (.name x) q.1).sum = exponentIn x ps := by
  induction ps with
  | nil => rfl
  | cons p ps ih =>
      obtain ⟨hp, hps⟩ := List.pairwise_cons.mp hps
      rw [List.map_cons, List.sum_cons, ih hps, exponentIn, Atom.inVar]
      split
      · next hx =>
          rw [exponentIn_eq_zero fun q hq => hx ▸ hp q hq, Nat.mul_one, Nat.add_zero]
      · rw [Nat.mul_zero, Nat.zero_add]

/-- No name has more than one power, so the sum over the powers has at most one
summand that counts. -/
theorem sum_inVar (p : Powers) : (p.entries.map fun q => q.2 * a.inVar q.1).sum = p.count a := by
  cases a with
  | prime n => simp [count, Atom.inVar]
  | name x => exact sum_inVar_name p.sorted x

theorem weight_eq_count (hP : Closed P) (p : Powers) : (a.weight hP).powers p = p.count a := by
  rw [Weight.powers, ← sum_inVar, Nat.cast_list_sum, List.map_map]
  refine congrArg List.sum (List.map_congr_left fun q _ => ?_)
  rw [nsmul_eq_mul]
  exact (Nat.cast_mul q.2 (a.inVar q.1)).symm

end Powers

/-! ## Terms -/

structure Term.RootMonomial (t : Term) : Prop where
  coeff_pos : 0 < t.coeff
  radical : ∀ r, t.radical = some r → r.RootMonomial

namespace Term

/-- How often an atom divides a term in front of its root. -/
def count (a : Atom) (t : Term) : Nat :=
  a.inInt t.coeff.natAbs + t.vars.count a

/-- How often an atom divides what is under the root of a term. -/
def radicalMultiplicity (a : Atom) (t : Term) : ℚ :=
  (t.radical.map (Expr.multiplicity a)).getD 0

def multiplicity (a : Atom) (t : Term) : ℚ :=
  t.count a + t.radicalMultiplicity a / 2

theorem weight_eq_multiplicity (hP : Closed P) : (a.weight hP).term t = t.multiplicity a := by
  rw [Weight.term, Weight.front, Powers.weight_eq_count, Weight.radical, Atom.expr_weight,
    multiplicity, count, Nat.cast_add]
  rfl

theorem rootMonomial_iff : t.RootMonomial ↔ t.Monomial (0 < ·) := by
  constructor
  · exact fun h => ⟨h.coeff_pos, fun r hr => Expr.rootMonomial_iff.mp (h.radical r hr)⟩
  · exact fun h => ⟨h.coeff, fun r hr => Expr.rootMonomial_iff.mpr (h.radical r hr)⟩

theorem multiplicity_toExpr (hcoeff : t.coeff ≠ 0) :
    t.toExpr.multiplicity a = t.multiplicity a := by
  rw [← a.expr_weight closed_pos, Weight.expr_toExpr hcoeff, weight_eq_multiplicity]

end Term

/-! ## One step -/

/-- A monomial that an atom divides `v` times. -/
structure Expr.Measures (a : Atom) (e : Expr) (v : ℚ) : Prop where
  rootMonomial : e.RootMonomial
  multiplicity : e.multiplicity a = v

structure Term.Measures (a : Atom) (t : Term) (v : ℚ) : Prop where
  rootMonomial : t.RootMonomial
  multiplicity : t.multiplicity a = v

/-- What is asked for at this level comes back with its multiplicity. -/
structure Level.Measures (a : Atom) (level : Level) : Prop where
  leaf : ∀ {e e'}, level.simplify e = .ok e' → e.isLeaf → e' = e
  simplify : ∀ {e e'}, level.simplify e = .ok e' → e.RootMonomial →
    e'.Measures a (e.multiplicity a)
  normalize : ∀ {fs t}, level.normalize fs = .ok t → (∀ f ∈ fs, f.RootMonomial) →
    t.Measures a (fs.map (Expr.multiplicity a)).sum

namespace Term

variable {v : ℚ}

theorem measures_iff : t.Measures a v ↔ t.Weighs (a.weight closed_pos) v := by
  constructor
  · exact fun h =>
      ⟨rootMonomial_iff.mp h.rootMonomial, (weight_eq_multiplicity closed_pos).trans h.multiplicity⟩
  · exact fun h =>
      ⟨rootMonomial_iff.mpr h.monomial, (weight_eq_multiplicity closed_pos).symm.trans h.weight⟩

theorem Measures.toExpr (h : t.Measures a v) : t.toExpr.Measures a v :=
  ⟨Expr.rootMonomial_iff.mpr ((rootMonomial_iff.mp h.rootMonomial).toExpr closed_pos),
    (multiplicity_toExpr h.rootMonomial.coeff_pos.ne').trans h.multiplicity⟩

end Term

theorem Level.Measures.weighs (h : level.Measures a) : level.Weighs (a.weight closed_pos) := by
  intro fs t hok hfs
  rw [Atom.expr_weight]
  exact Term.measures_iff.mp
    (h.normalize hok fun f hf => Expr.rootMonomial_iff.mpr (hfs f hf))

section Step

variable (hlevel : level.Measures a)
include hlevel

theorem measures_normalize (hfs : ∀ f ∈ fs, f.RootMonomial) (hok : normalize level fs = .ok t) :
    t.Measures a (fs.map (Expr.multiplicity a)).sum := by
  rw [← a.expr_weight closed_pos]
  exact Term.measures_iff.mpr <|
    weighs_normalize closed_pos hlevel.weighs (fun f hf => Expr.rootMonomial_iff.mp (hfs f hf)) hok

theorem measures_multiply (hl : l.RootMonomial) (hr : r.RootMonomial)
    (hok : multiply level l r = .ok e) :
    e.Measures a (l.multiplicity a + r.multiplicity a) := by
  have hfs : ∀ f ∈ [l, r], f.RootMonomial := by simp [hl, hr]
  rw [multiply] at hok
  split at hok
  · next t ht =>
      have h := (measures_normalize hlevel hfs ht).toExpr
      rw [List.map_cons, List.map_singleton, List.sum_cons, List.sum_singleton] at h
      exact Except.ok.inj hok ▸ h
  · next hsum =>
      exact absurd hsum (normalize_ne_sum fun f hf => Expr.rootMonomial_iff.mp (hfs f hf))
  · cases hok

theorem measures_multiplyAll (hes : ∀ f ∈ es, f.RootMonomial) (hok : multiplyAll level es = .ok e) :
    e.Measures a (es.map (Expr.multiplicity a)).sum := by
  simp only [multiplyAll] at hok
  split at hok
  · next t ht => exact Except.ok.inj hok ▸ (measures_normalize hlevel hes ht).toExpr
  · next hsum =>
      exact absurd hsum (normalize_ne_sum fun f hf => Expr.rootMonomial_iff.mp (hes f hf))
  · cases hok

/-! ### Roots and powers -/

omit hlevel in
theorem measures_rootOfInt {n : Int} (hn : 0 < n) (hok : rootOfInt n = .ok e) :
    e.Measures a (a.inInt n.natAbs / 2) := by
  obtain ⟨s, hs, rfl⟩ := rootOfInt_eq_ok hok
  exact (Term.measures_iff.mpr (Term.weighs_ofSplit closed_pos hn hs)).toExpr

omit hlevel in
theorem measures_rootOfVarPow {x : String} {k : Nat} (hok : rootOfVarPow x k = .ok e) :
    e.Measures a (k * a.inVar x / 2) := by
  obtain ⟨half, hhalf, rfl⟩ := rootOfVarPow_eq_ok hok
  rw [← nsmul_eq_mul]
  exact (Term.measures_iff.mpr (Term.weighs_ofHalf closed_pos hhalf)).toExpr

theorem measures_squareRoot (hr : r.RootMonomial) (hok : squareRoot level r = .ok e) :
    e.Measures a ((Expr.root r).multiplicity a) := by
  cases squareRoot_eq_ok hok with
  | int h =>
      cases hr with
      | num hn => exact measures_rootOfInt hn h
  | var => exact ⟨.root hr, rfl⟩
  | intPow hm h =>
      cases hr with
      | pow hb =>
          cases hb with
          | num hn =>
              have h := measures_rootOfInt (a := a) (pos_of_power? hn hm) h
              rwa [inInt_of_power? hm, Nat.cast_mul] at h
  | varPow h => exact measures_rootOfVarPow h
  | merged h =>
      have h := measures_multiply hlevel (.num Int.one_pos) (.root hr) h
      have hone : (Expr.num 1).multiplicity a = 0 := congrArg Nat.cast Atom.inInt_one
      rwa [hone, zero_add] at h

theorem measures_power {b : Expr} {k : Nat} (hb : b.RootMonomial)
    (hok : power options level b (.num k) = .ok e) :
    e.Measures a ((Expr.pow b (.num k)).multiplicity a) := by
  rw [Expr.multiplicity_pow_num]
  generalize hp : Expr.num k = p at hok
  cases power_eq_ok hok with
  | symbolic hsymbolic =>
      rw [← hp] at hsymbolic
      cases hsymbolic
  | int hm =>
      obtain rfl := Int.ofNat.inj (Expr.num.inj hp)
      cases hb with
      | num hn =>
          refine ⟨.num (pos_of_power? hn hm), ?_⟩
          rw [Expr.multiplicity, inInt_of_power? hm, Nat.cast_mul, Expr.multiplicity]
  | zero =>
      obtain rfl := Int.ofNat.inj (Expr.num.inj hp)
      rw [Nat.cast_zero, zero_mul]
      exact ⟨.num Int.one_pos, congrArg Nat.cast Atom.inInt_one⟩
  | one =>
      obtain rfl := Int.ofNat.inj (Expr.num.inj hp)
      rw [Nat.cast_one, one_mul]
      exact ⟨hb, rfl⟩
  | var _ =>
      obtain rfl := Int.ofNat.inj (Expr.num.inj hp)
      exact ⟨.pow .var, rfl⟩
  | expanded _ _ h =>
      obtain rfl := Int.ofNat.inj (Expr.num.inj hp)
      have h := hlevel.simplify h <|
        Expr.property_product (fun _ _ => Expr.RootMonomial.mul_iff) (.num Int.one_pos)
          fun f hf => List.eq_of_mem_replicate hf ▸ hb
      rwa [Expr.multiplicity_product, List.map_replicate, List.sum_replicate, nsmul_eq_mul] at h
  | kept _ _ _ =>
      obtain rfl := Int.ofNat.inj (Expr.num.inj hp)
      exact ⟨.pow hb, rfl⟩

/-! ### All operations -/

theorem measures_simplifyStep (he : e.RootMonomial) (hok : simplifyStep options level e = .ok e') :
    e'.Measures a (e.multiplicity a) := by
  cases he with
  | num hn => exact Except.ok.inj hok ▸ ⟨.num hn, rfl⟩
  | var => exact Except.ok.inj hok ▸ ⟨.var, rfl⟩
  | pow hb =>
      obtain ⟨b', hb', hok⟩ := bind_eq_ok.mp hok
      obtain ⟨p', hp', hok⟩ := bind_eq_ok.mp hok
      obtain rfl := hlevel.leaf hp' rfl
      have hb' := hlevel.simplify hb' hb
      have h := measures_power hlevel hb'.rootMonomial hok
      rwa [Expr.multiplicity_pow_num, hb'.multiplicity] at h
  | root hr =>
      obtain ⟨r', hr', hok⟩ := bind_eq_ok.mp hok
      have hr' := hlevel.simplify hr' hr
      have h := measures_squareRoot hlevel hr'.rootMonomial hok
      rwa [Expr.multiplicity, hr'.multiplicity] at h
  | @mul l r hl hr =>
      obtain ⟨fs, hfs, hok⟩ := bind_eq_ok.mp hok
      have hmeasures : List.Forall₂ (fun f f' => Expr.Measures a f' (f.multiplicity a))
          (Expr.bin .mul l r).factors fs :=
        ((List.forall₂_and_left _ _).mpr
          ⟨(Expr.RootMonomial.mul hl hr).factors, mapM_eq_ok.mp hfs⟩).imp
            fun f f' h => hlevel.simplify h.2 h.1
      have hmonomials : ∀ f ∈ fs, f.RootMonomial := fun f hf => by
        obtain ⟨g, -, hgf⟩ := exists_of_forall₂ hmeasures hf
        exact hgf.rootMonomial
      have h := measures_multiplyAll hlevel hmonomials hok
      rwa [map_eq_of_forall₂ (hmeasures.imp fun _ _ h => h.multiplicity),
        Expr.sum_multiplicity_factors] at h

end Step

/-! ## Every level -/

theorem measures_level (a : Atom) (options : Options) (n : Nat) :
    (Surd.level options n).Measures a := by
  induction n with
  | zero =>
      refine ⟨fun h => ?_, fun h => ?_, fun h => ?_⟩
      · cases h
      · cases h
      · cases h
  | succ n ih =>
      refine ⟨fun {e e'} h he => ?_, fun h he => measures_simplifyStep ih he h,
        fun h hfs => measures_normalize ih hfs h⟩
      cases e with
      | num | var => exact (Except.ok.inj h).symm
      | bin | pow | root => cases he

theorem measures_simplify (he : e.RootMonomial) (h : simplify options e = .ok e') :
    e'.Measures a (e.multiplicity a) :=
  (measures_level a options _).simplify h he

end Surd
