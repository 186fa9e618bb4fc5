import Mathlib.Algebra.BigOperators.Group.List.Basic
import Mathlib.Tactic.Abel
import Surd.Proofs.Meaning
import Surd.Proofs.SquareSplit

/-!
# Weights of monomials

A weight adds up over the integers and variables that a monomial is made of,
and is halved under a root. Halving need not be a division: it only has to undo
the doubling of positive integers and of variables, which is what moves out of
roots.

The weight of a term is the sum of the weights of all that it was multiplied
from (`weighs_normalize`). What stands under the root at one time or another
does not matter, since a square weighs as much under a root as what moves out
of it in front.

Nothing has to be assumed of the names here, since terms are never compared.
-/

namespace Surd

variable {P Q : Int → Prop} {M : Type _} [AddCommMonoid M] {level : Level} {e l r : Expr}
  {es fs left : List Expr} {t t' : Term}

/-! ## Monomials -/

/-- Integers that products and the removal of squares do not lead out of, and
zero is none of them. -/
structure Closed (P : Int → Prop) : Prop where
  of_pos : ∀ {n}, 0 < n → P n
  ne_zero : ∀ {n}, P n → n ≠ 0
  mul : ∀ {m n}, P m → P n → P (m * n)
  of_mul : ∀ {m n}, 0 < m → P (m * n) → P n

theorem Closed.pow (hP : Closed P) {n : Int} (hn : P n) (k : Nat) : P (n ^ k) := by
  induction k with
  | zero => exact (Int.pow_zero n).symm ▸ hP.of_pos Int.one_pos
  | succ k ih => exact Int.pow_succ n k ▸ hP.mul ih hn

theorem closed_pos : Closed (0 < ·) where
  of_pos h := h
  ne_zero h := h.ne'
  mul := Int.mul_pos
  of_mul hm h := pos_of_mul_pos_right h hm.le

theorem closed_ne_zero : Closed (· ≠ 0) where
  of_pos h := h.ne'
  ne_zero h := h
  mul := Int.mul_ne_zero
  of_mul _ h := right_ne_zero_of_mul h

/-- What a split takes out of an integer is positive, and what it leaves inside
is allowed if the integer is. -/
theorem Closed.of_squareSplit? (hP : Closed P) {n : Int} {s : Integer.SquareSplit} (hn : P n)
    (h : Integer.squareSplit? n = some s) : 0 < (s.outside : Int) ∧ P s.inside := by
  have hout : 0 < (s.outside : Int) := by
    have := Integer.outside_ne_zero h (hP.ne_zero hn)
    omega
  obtain ⟨hsplit, -⟩ := Integer.squareSplit?_spec h
  exact ⟨hout, hP.of_mul (Int.pow_pos hout) (hsplit ▸ hn)⟩

/-- An integer with the property `P`, a variable, or a product, a root or a
literal power of such expressions. -/
inductive Expr.Monomial (P : Int → Prop) : Expr → Prop where
  | num {n : Int} : P n → Monomial P (.num n)
  | var {x : String} : Monomial P (.var x)
  | mul {l r : Expr} : Monomial P l → Monomial P r → Monomial P (.bin .mul l r)
  | pow {b : Expr} {k : Nat} : Monomial P b → Monomial P (.pow b (.num k))
  | root {e : Expr} : Monomial P e → Monomial P (.root e)

namespace Expr.Monomial

theorem mul_iff : (Expr.bin .mul l r).Monomial P ↔ l.Monomial P ∧ r.Monomial P := by
  constructor
  · intro h
    cases h with
    | mul hl hr => exact ⟨hl, hr⟩
  · rintro ⟨hl, hr⟩
    exact .mul hl hr

theorem mono (h : e.Monomial P) (hPQ : ∀ n, P n → Q n) : e.Monomial Q := by
  induction h with
  | num hn => exact .num (hPQ _ hn)
  | var => exact .var
  | mul _ _ ihl ihr => exact .mul ihl ihr
  | pow _ ih => exact .pow ih
  | root _ ih => exact .root ih

theorem factors (h : e.Monomial P) : ∀ f ∈ e.factors, f.Monomial P :=
  (forall_operands_iff fun _ _ => mul_iff).mpr h

theorem isSum_eq_false (h : e.Monomial P) : e.isSum = false := by
  cases h <;> rfl

theorem op?_ne_add (h : e.Monomial P) : e.op? ≠ some .add := by
  cases h <;> simp [op?]

theorem varPow {x : String} {k : Nat} : (Expr.varPow x k).Monomial P := by
  rw [Expr.varPow]
  split
  · exact .var
  · exact .pow .var

end Expr.Monomial

structure Term.Monomial (P : Int → Prop) (t : Term) : Prop where
  coeff : P t.coeff
  radical : ∀ r, t.radical = some r → r.Monomial P

theorem Term.Monomial.toFactors (h : t.Monomial P) : ∀ f ∈ t.toFactors, f.Monomial P := by
  intro f hf
  rcases mem_toFactors.mp hf with ⟨-, rfl⟩ | ⟨q, -, rfl⟩ | ⟨r, hr, rfl⟩
  · exact .num h.coeff
  · exact .varPow
  · exact .root (h.radical r hr)

theorem Term.Monomial.toExpr (h : t.Monomial P) (hP : Closed P) : t.toExpr.Monomial P := by
  rw [Term.toExpr, if_neg (hP.ne_zero h.coeff)]
  exact Expr.property_product (fun _ _ => Expr.Monomial.mul_iff) (.num (hP.of_pos Int.one_pos))
    h.toFactors

theorem Term.monomial_of_toExpr (hP : Closed P) (h : t.toExpr.Monomial P) : t.Monomial P := by
  by_cases hcoeff : t.coeff = 0
  · rw [toExpr_zero hcoeff] at h
    cases h with
    | num hn => exact absurd rfl (hP.ne_zero hn)
  · by_cases hone : t = .one
    · exact hone ▸ ⟨hP.of_pos Int.one_pos, nofun⟩
    · have hfactors : ∀ f ∈ t.toFactors, f.Monomial P := by
        rw [← factors_toExpr hcoeff hone]
        exact h.factors
      refine ⟨?_, fun r hr => ?_⟩
      · by_cases hunit : t.coeff = 1
        · exact hunit ▸ hP.of_pos Int.one_pos
        · cases hfactors _ (mem_toFactors.mpr (.inl ⟨hunit, rfl⟩)) with
          | num hn => exact hn
      · cases h.factors _ (root_mem_factors_toExpr hcoeff hr) with
        | root hr => exact hr

/-! ## Weights -/

structure Weight (P : Int → Prop) (M : Type _) [AddCommMonoid M] where
  int : Int → M
  var : String → M
  half : M →+ M
  int_one : int 1 = 0
  int_mul : ∀ {m n}, P m → P n → int (m * n) = int m + int n
  half_int : ∀ {n}, 0 < n → half (2 • int n) = int n
  half_var : ∀ x, half (2 • var x) = var x

namespace Weight

variable {w : Weight P M}

/-- The weight of a monomial. What is none weighs nothing. -/
def expr (w : Weight P M) : Expr → M
  | .num n => w.int n
  | .var x => w.var x
  | .bin .mul l r => w.expr l + w.expr r
  | .pow b p => p.exponent?.getD 0 • w.expr b
  | .root e => w.half (w.expr e)
  | _ => 0

def powers (w : Weight P M) (p : Powers) : M :=
  (p.entries.map fun q => q.2 • w.var q.1).sum

/-- The weight of what is under the root of a term. -/
def radical (w : Weight P M) (t : Term) : M :=
  (t.radical.map w.expr).getD 0

/-- The weight of what stands in front of the root of a term. -/
def front (w : Weight P M) (t : Term) : M :=
  w.int t.coeff + w.powers t.vars

def term (w : Weight P M) (t : Term) : M :=
  w.front t + w.half (w.radical t)

/-! ### Integers and powers -/

theorem int_pow (hP : Closed P) {n : Int} (hn : P n) (k : Nat) :
    w.int (n ^ k) = k • w.int n := by
  induction k with
  | zero => rw [Int.pow_zero, w.int_one, zero_nsmul]
  | succ k ih => rw [Int.pow_succ, w.int_mul (hP.pow hn k) hn, ih, succ_nsmul]

/-- The half of an integer is what is taken out of it and the half of what
stays inside. -/
theorem half_of_squareSplit? (hP : Closed P) {n : Int} {s : Integer.SquareSplit} (hn : P n)
    (h : Integer.squareSplit? n = some s) :
    w.half (w.int n) = w.int s.outside + w.half (w.int s.inside) := by
  obtain ⟨hout, hin⟩ := hP.of_squareSplit? hn h
  obtain ⟨hsplit, -⟩ := Integer.squareSplit?_spec h
  rw [← hsplit, w.int_mul (hP.pow (hP.of_pos hout) 2) hin, int_pow hP (hP.of_pos hout), map_add,
    w.half_int hout]

theorem powers_one : w.powers .one = 0 :=
  rfl

theorem sum_raise (x : String) (k : Nat) (ps : List (String × Nat)) :
    ((Powers.raise x k ps).map fun q => q.2 • w.var q.1).sum =
      (ps.map fun q => q.2 • w.var q.1).sum + k • w.var x := by
  induction ps with
  | nil => simp [Powers.raise]
  | cons q ps ih =>
      obtain ⟨y, m⟩ := q
      rw [Powers.raise]
      split
      · next hxy =>
          rw [List.map_cons, List.map_cons, List.sum_cons, List.sum_cons, add_nsmul, hxy]
          exact add_right_comm _ _ _
      · split
        · rw [List.map_cons, List.sum_cons, add_comm]
        · rw [List.map_cons, List.map_cons, List.sum_cons, List.sum_cons, ih, add_assoc]

theorem powers_mulVar? {p q : Powers} {x : String} {k : Nat} (h : p.mulVar? x k = some q) :
    w.powers q = w.powers p + k • w.var x := by
  rw [Powers.mulVar?] at h
  split at h
  · next hk =>
      obtain rfl := Option.some.inj h
      rw [hk, zero_nsmul, add_zero]
  · split at h
    · obtain rfl := Option.some.inj h
      exact sum_raise x k p.entries
    · cases h

theorem half_nsmul_var (x : String) (k : Nat) :
    w.half (k • w.var x) = (k / 2) • w.var x + w.half ((k % 2) • w.var x) := by
  conv_lhs => rw [← Nat.div_add_mod k 2, add_nsmul, map_add, mul_nsmul, map_nsmul, w.half_var]

/-- The powers that come out of a root whole, and the half of those that stay. -/
theorem half_powers (p : Powers) : w.half (w.powers p) =
    (p.entries.map fun q => (q.2 / 2) • w.var q.1).sum + w.half (w.powers p.odd) := by
  show w.half (p.entries.map fun q => q.2 • w.var q.1).sum = _ + w.half
    (((p.entries.filter fun q => q.2 % 2 = 1).map fun q => (q.1, 1)).map
      fun q => q.2 • w.var q.1).sum
  generalize p.entries = ps
  induction ps with
  | nil => simp
  | cons q ps ih =>
      rw [List.map_cons, List.sum_cons, map_add, ih, half_nsmul_var, List.map_cons, List.sum_cons]
      rcases Nat.mod_two_eq_zero_or_one q.2 with heven | hodd
      · rw [List.filter_cons_of_neg (by simpa using heven), heven, zero_nsmul, map_zero, add_zero,
          add_assoc]
      · rw [List.filter_cons_of_pos (by simpa using hodd), hodd, List.map_cons, List.map_cons,
          List.sum_cons, map_add]
        exact add_add_add_comm _ _ _ _

/-! ### Expressions and terms -/

theorem expr_varPow {x : String} {k : Nat} : w.expr (.varPow x k) = k • w.var x := by
  rw [Expr.varPow]
  split
  · next hone => rw [hone, one_nsmul]; rfl
  · rfl

theorem expr_foldl_mul : w.expr (es.foldl (.bin .mul) e) = w.expr e + (es.map w.expr).sum := by
  induction es generalizing e with
  | nil => simp
  | cons f es ih => rw [List.foldl_cons, ih, expr, List.map_cons, List.sum_cons, add_assoc]

theorem expr_product : w.expr (.product es) = (es.map w.expr).sum := by
  cases es with
  | nil => exact w.int_one
  | cons f es => exact expr_foldl_mul

theorem radical_chain? (t : Term) (fs : List Expr) :
    w.radical { t with radical := Expr.chain? .mul fs } = (fs.map w.expr).sum := by
  cases fs with
  | nil => rfl
  | cons f fs => exact expr_foldl_mul

theorem sum_expr_factors : (e.factors.map w.expr).sum = w.expr e := by
  induction e with
  | bin op l r ihl ihr =>
      by_cases hop : op = .mul
      · subst hop
        rw [Expr.factors_mul, List.map_append, List.sum_append, ihl, ihr, expr]
      · rw [Expr.factors, Expr.operands_eq_singleton (by simpa [Expr.op?] using hop)]
        exact List.sum_singleton
  | num | var | pow | root => exact List.sum_singleton

theorem sum_expr_merged : ((t.merged e).map w.expr).sum = w.radical t + w.expr e := by
  rw [Term.merged, List.map_append, List.sum_append, sum_expr_factors, Term.radicalFactors, radical]
  cases t.radical with
  | none => rfl
  | some r => exact congrArg (· + _) sum_expr_factors

theorem sum_expr_toFactors : (t.toFactors.map w.expr).sum = w.term t := by
  have hcoeff : ((if t.coeff = 1 then [] else [Expr.num t.coeff]).map w.expr).sum =
      w.int t.coeff := by
    split
    · next hone => rw [hone, w.int_one]; rfl
    · exact List.sum_singleton
  have hvars : ((t.vars.entries.map fun q => Expr.varPow q.1 q.2).map w.expr).sum =
      w.powers t.vars := by
    rw [List.map_map, powers]
    exact congrArg List.sum (List.map_congr_left fun q _ => expr_varPow)
  have hroot : ((t.radical.map Expr.root).toList.map w.expr).sum = w.half (w.radical t) := by
    rw [radical]
    cases t.radical with
    | none => exact (map_zero w.half).symm
    | some r => exact List.sum_singleton
  rw [Term.toFactors, List.map_append, List.map_append, List.sum_append, List.sum_append, hcoeff,
    hvars, hroot, term, front]

theorem expr_toExpr (hcoeff : t.coeff ≠ 0) : w.expr t.toExpr = w.term t := by
  rw [Term.toExpr, if_neg hcoeff, expr_product, sum_expr_toFactors]

end Weight

/-! ## One step -/

/-- A fold that adds a value for each element. -/
theorem foldlM_sum {α β ε M : Type _} [AddMonoid M] {R : β → M → Prop} {f : β → α → Except ε β}
    {g : α → M} {as : List α} {b b' : β} {m : M} (h : as.foldlM f b = .ok b') (hb : R b m)
    (hf : ∀ a ∈ as, ∀ b b' m, R b m → f b a = .ok b' → R b' (m + g a)) :
    R b' (m + (as.map g).sum) := by
  have hfoldl : as.foldl (fun m a => m + g a) m = m + (as.map g).sum := by
    clear h hb hf
    induction as generalizing m with
    | nil => simp
    | cons a as ih => simp [ih, add_assoc]
  exact hfoldl ▸ foldlM_foldl h hb hf

/-- A monomial of this weight. -/
structure Term.Weighs (w : Weight P M) (t : Term) (v : M) : Prop where
  monomial : t.Monomial P
  weight : w.term t = v

/-- What is multiplied at this level weighs as much as its factors. -/
def Level.Weighs (w : Weight P M) (level : Level) : Prop :=
  ∀ {fs t}, level.normalize fs = .ok t → (∀ f ∈ fs, f.Monomial P) →
    t.Weighs w (fs.map w.expr).sum

namespace Term

variable {w : Weight P M} {v : M}

theorem weighs_one (hP : Closed P) : Term.one.Weighs w 0 := by
  refine ⟨⟨hP.of_pos Int.one_pos, nofun⟩, ?_⟩
  show w.int 1 + w.powers .one + w.half 0 = 0
  rw [w.int_one, Weight.powers_one, map_zero, add_zero, add_zero]

theorem front_mulInt {n : Int} (ht : P t.coeff) (hn : P n) :
    w.front (t.mulInt n) = w.front t + w.int n := by
  rw [Weight.front, mulInt, w.int_mul ht hn]
  exact add_right_comm _ _ _

theorem Weighs.mulInt (hP : Closed P) {n : Int} (ht : t.Weighs w v) (hn : P n) :
    (t.mulInt n).Weighs w (v + w.int n) := by
  refine ⟨⟨hP.mul ht.monomial.coeff hn, ht.monomial.radical⟩, ?_⟩
  rw [Weight.term, front_mulInt ht.monomial.coeff hn, ← ht.weight]
  exact add_right_comm _ _ _

theorem front_mulVar {x : String} {k : Nat} (h : t.mulVar x k = .ok t') :
    w.front t' = w.front t + k • w.var x := by
  obtain ⟨vars, hvars, rfl⟩ := mulVar_eq_ok.mp h
  rw [Weight.front, Weight.powers_mulVar? hvars, ← add_assoc]
  rfl

theorem Weighs.mulVar {x : String} {k : Nat} (ht : t.Weighs w v) (h : t.mulVar x k = .ok t') :
    t'.Weighs w (v + k • w.var x) := by
  have hfront : w.front t' = w.front t + k • w.var x := front_mulVar h
  obtain ⟨vars, -, rfl⟩ := mulVar_eq_ok.mp h
  refine ⟨⟨ht.monomial.coeff, ht.monomial.radical⟩, ?_⟩
  rw [Weight.term, hfront, ← ht.weight]
  exact add_right_comm _ _ _

theorem Weighs.mulPower (hP : Closed P) {b p : Expr} (ht : t.Weighs w v)
    (hb : (Expr.pow b p).Monomial P) (h : t.mulPower b p = .ok t') :
    t'.Weighs w (v + w.expr (.pow b p)) := by
  obtain ⟨k, hk, hcases⟩ := mulPower_eq_ok h
  obtain rfl := eq_num_of_exponent? hk
  rcases hcases with ⟨m, n, rfl, hn, rfl⟩ | ⟨x, rfl, -, hx⟩
  · have hm : P m := by
      cases hb with
      | pow hb =>
          cases hb with
          | num hm => exact hm
    obtain rfl := Integer.power?_eq_some hn
    have h := ht.mulInt hP (hP.pow hm k)
    rwa [Weight.int_pow hP hm] at h
  · exact ht.mulVar hx

/-! ### Merging roots -/

theorem front_mulHalves {vars : Powers} (h : t.mulHalves vars = .ok t') :
    w.front t' = w.front t + (vars.entries.map fun q => (q.2 / 2) • w.var q.1).sum :=
  foldlM_sum (R := fun s m => w.front s = m) h rfl fun q _ s s' m hs hs' => by
    rw [front_mulVar hs', hs]

/-- What is taken out of a root weighs as much as it did under it. -/
theorem weighs_extract (hP : Closed P) (hlevel : level.Weighs w) {radicand : Expr}
    (ht : P t.coeff) (hfs : ∀ f ∈ fs, f.Monomial P)
    (h : Term.extract level radicand t fs = .ok (t', left)) :
    P t'.coeff ∧ (∀ f ∈ left, f.Monomial P) ∧
      w.front t' + w.half (left.map w.expr).sum =
        w.front t + w.half (fs.map w.expr).sum := by
  obtain ⟨inner, split, hinner, hsplit, hhalves, rfl⟩ := extract_eq_ok h
  have hweighs := hlevel hinner hfs
  obtain ⟨hout, hin⟩ := hP.of_squareSplit? hweighs.monomial.coeff hsplit
  have hleftover : (inner.leftover split.inside).Monomial P := ⟨hin, hweighs.monomial.radical⟩
  refine ⟨?_, ?_, ?_⟩
  · rw [(mulHalves_eq_ok hhalves).1]
    exact hP.mul ht (hP.of_pos hout)
  · rw [leftovers_eq]
    exact hleftover.toFactors
  · have hleft : w.term (inner.leftover split.inside) =
        w.int split.inside + w.powers inner.vars.odd + w.half (w.radical inner) := rfl
    have hterm : w.term inner =
        w.int inner.coeff + w.powers inner.vars + w.half (w.radical inner) := rfl
    rw [leftovers_eq, Weight.sum_expr_toFactors, hleft, ← hweighs.weight, hterm,
      front_mulHalves hhalves, front_mulInt ht (hP.of_pos hout)]
    simp only [map_add]
    rw [Weight.half_of_squareSplit? hP hweighs.monomial.coeff hsplit, Weight.half_powers inner.vars]
    abel

theorem Weighs.mulRoot (hP : Closed P) (hlevel : level.Weighs w) (ht : t.Weighs w v)
    (he : e.Monomial P) (hok : t.mulRoot level e = .ok t') :
    t'.Weighs w (v + w.half (w.expr e)) := by
  have hmerged : ∀ f ∈ t.merged e, f.Monomial P := by
    intro f hf
    rcases mem_merged.mp hf with ⟨r, hr, hf⟩ | hf
    · exact (ht.monomial.radical r hr).factors f hf
    · exact he.factors f hf
  -- there are no sums to sort out, so all that is under both roots is normalized at once
  rw [mulRoot_eq_extract fun f hf => (hmerged f hf).isSum_eq_false] at hok
  obtain ⟨⟨t₁, left⟩, hex, hok⟩ := bind_eq_ok.mp hok
  obtain rfl := pure_eq_ok.mp hok
  obtain ⟨hcoeff, hleft, hfront⟩ :=
    weighs_extract hP hlevel (t := { t with radical := none }) ht.monomial.coeff hmerged hex
  refine ⟨⟨hcoeff, fun r hr => ?_⟩, ?_⟩
  · exact Expr.property_chain? (fun _ _ => Expr.Monomial.mul_iff) hleft hr
  · have hbare : w.front { t with radical := none } = w.front t := rfl
    have hchain : w.front { t₁ with radical := Expr.chain? .mul left } = w.front t₁ := rfl
    rw [Weight.term, Weight.radical_chain?, hchain, hfront, hbare, Weight.sum_expr_merged, map_add,
      ← add_assoc, ← ht.weight, Weight.term]

/-! ### Products -/

theorem Weighs.absorb (hP : Closed P) (hlevel : level.Weighs w) (ht : t.Weighs w v)
    (he : e.Monomial P) (hok : t.absorb level e = .ok t') : t'.Weighs w (v + w.expr e) := by
  induction he generalizing t t' v with
  | num hn => exact Except.ok.inj hok ▸ ht.mulInt hP hn
  | @var x =>
      have h := ht.mulVar (mapError_eq_ok.mp hok)
      rwa [one_nsmul] at h
  | pow hb _ => exact ht.mulPower hP (.pow hb) (mapError_eq_ok.mp hok)
  | root he _ => exact ht.mulRoot hP hlevel he (mapError_eq_ok.mp hok)
  | mul _ _ ihl ihr =>
      obtain ⟨t₁, ht₁, hok⟩ := bind_eq_ok.mp hok
      rw [Weight.expr, ← add_assoc]
      exact ihr (ihl ht ht₁) hok

/-- A monomial is never a sum that a product has to be distributed over. -/
theorem absorb_ne_sum (he : e.Monomial P) :
    Yields (fun o => o ≠ .sum) (fun _ => True) (t.absorb level e) := by
  have hfailed {x : Except SimplifyError Term} :
      Yields (fun o => o ≠ .sum) (fun _ => True) (x.mapError Obstacle.failed) := by
    cases x with
    | ok => trivial
    | error => exact Obstacle.noConfusion
  induction he generalizing t with
  | num => trivial
  | var => exact hfailed
  | pow => exact hfailed
  | root => exact hfailed
  | mul _ _ ihl ihr => exact ihl.bind fun _ _ => ihr

/-! ### Single roots -/

theorem weighs_ofSplit (hP : Closed P) {n : Int} {s : Integer.SquareSplit} (hn : P n)
    (h : Integer.squareSplit? n = some s) : (ofSplit s).Weighs w (w.half (w.int n)) := by
  obtain ⟨hout, hin⟩ := hP.of_squareSplit? hn h
  refine ⟨⟨hP.of_pos hout, fun r hr => ?_⟩, ?_⟩
  · obtain ⟨-, rfl⟩ := eq_of_radical_ofSplit hr
    exact .num hin
  · have hradical : w.radical (ofSplit s) = w.int s.inside := by
      rw [Weight.radical, ofSplit]
      split
      · next hone => rw [hone, w.int_one]; rfl
      · rfl
    rw [Weight.term, hradical, Weight.half_of_squareSplit? hP hn h]
    exact congrArg (· + _) (add_zero _)

theorem weighs_ofHalf (hP : Closed P) {half : Powers} {x : String} {k : Nat}
    (h : Powers.one.mulVar? x (k / 2) = some half) :
    (ofHalf half x k).Weighs w (w.half (k • w.var x)) := by
  refine ⟨⟨hP.of_pos Int.one_pos, fun r hr => eq_of_radical_ofHalf hr ▸ .var⟩, ?_⟩
  have hradical : w.radical (ofHalf half x k) = (k % 2) • w.var x := by
    rw [Weight.radical, ofHalf]
    split
    · next hodd => rw [hodd, one_nsmul]; rfl
    · next heven => rw [show k % 2 = 0 by omega, zero_nsmul]; rfl
  have hfront : w.front (ofHalf half x k) = (k / 2) • w.var x := by
    show w.int 1 + w.powers half = _
    rw [w.int_one, Weight.powers_mulVar? h, Weight.powers_one, zero_add, zero_add]
  rw [Weight.term, hfront, hradical, Weight.half_nsmul_var x k]

end Term

theorem normalize_ne_sum (hfs : ∀ f ∈ fs, f.Monomial P) :
    normalize level fs ≠ .error .sum := by
  have hyields : Yields (fun o => o ≠ .sum) (fun _ => True) (normalize level fs) :=
    Yields.foldlM trivial fun f hf _ _ => Term.absorb_ne_sum (hfs f hf)
  intro hsum
  rw [hsum] at hyields
  exact hyields rfl

variable {w : Weight P M}

theorem weighs_normalize (hP : Closed P) (hlevel : level.Weighs w)
    (hfs : ∀ f ∈ fs, f.Monomial P) (hok : normalize level fs = .ok t) :
    t.Weighs w (fs.map w.expr).sum := by
  have h := foldlM_sum (R := fun t v => t.Weighs w v) hok (Term.weighs_one hP)
    fun f hf _ _ _ hs hs' => hs.absorb hP hlevel (hfs f hf) hs'
  rwa [zero_add] at h

/-- A product of monomials weighs as much as they do, at every level. -/
theorem weighs_level (hP : Closed P) (w : Weight P M) (options : Options) (n : Nat) :
    (Surd.level options n).Weighs w := by
  induction n with
  | zero => exact fun h _ => nomatch h
  | succ n ih => exact fun h hfs => weighs_normalize hP ih hfs h

end Surd
