import Mathlib.Algebra.BigOperators.Group.List.Basic
import Mathlib.Algebra.Order.Field.Basic
import Surd.Expr.Value
import Surd.Proofs.Names
import Surd.Proofs.RoundTrip

/-!
# What expressions and terms mean

The meaning is taken in an ordered field that has square roots of everything
that is not negative. Quotients may mean anything, and so may powers whose
exponent is not a natural number.

An expression is worth speaking of where the radicands in it are not negative
(`Defined`). A term is in the same position except when its coefficient is
zero: its value is zero then, whatever is under its root, and what is under it
may come from roots that were split up in ways that make no sense
(`Term.Defined`).
-/

namespace Surd

variable {F : Type _} [Field F] [LinearOrder F]

/-- The usual meaning of integers, of sums, differences and products, of
powers with natural exponents, and of square roots. -/
structure Arithmetic.Lawful (A : Arithmetic F) : Prop where
  int : ∀ n : Int, A.int n = n
  add : ∀ a b, A.op .add a b = a + b
  sub : ∀ a b, A.op .sub a b = a - b
  mul : ∀ a b, A.op .mul a b = a * b
  pow : ∀ (b : F) (k : Nat), A.pow b k = b ^ k
  sqrt_nonneg : ∀ a, 0 ≤ a → 0 ≤ A.sqrt a
  sq_sqrt : ∀ a, 0 ≤ a → A.sqrt a ^ 2 = a

variable {A : Arithmetic F} {env : String → F} {e l r : Expr} {es : List Expr} {t t' : Term}
  {ts : List Term}

/-! ## Square roots -/

namespace Arithmetic.Lawful

variable [IsStrictOrderedRing F] (hA : A.Lawful)
include hA

theorem sqrt_eq {a s : F} (hs : 0 ≤ s) (h : s ^ 2 = a) : A.sqrt a = s := by
  have ha : 0 ≤ a := h ▸ sq_nonneg s
  rw [← pow_left_inj₀ (hA.sqrt_nonneg a ha) hs two_ne_zero, hA.sq_sqrt a ha, h]

theorem sqrt_sq_mul {u a : F} (hu : 0 ≤ u) (ha : 0 ≤ a) : A.sqrt (u ^ 2 * a) = u * A.sqrt a := by
  refine hA.sqrt_eq (mul_nonneg hu (hA.sqrt_nonneg a ha)) ?_
  rw [mul_pow, hA.sq_sqrt a ha]

theorem sqrt_mul {a b : F} (ha : 0 ≤ a) (hb : 0 ≤ b) : A.sqrt (a * b) = A.sqrt a * A.sqrt b := by
  refine hA.sqrt_eq (mul_nonneg (hA.sqrt_nonneg a ha) (hA.sqrt_nonneg b hb)) ?_
  rw [mul_pow, hA.sq_sqrt a ha, hA.sq_sqrt b hb]

theorem sqrt_zero : A.sqrt 0 = 0 :=
  hA.sqrt_eq le_rfl (zero_pow two_ne_zero)

theorem sqrt_one : A.sqrt 1 = 1 :=
  hA.sqrt_eq zero_le_one (one_pow 2)

end Arithmetic.Lawful

theorem Integer.power?_eq_some {b n : Int} {k : Nat} (h : Integer.power? b k = some n) :
    n = b ^ k := by
  rw [Integer.power?] at h
  split at h
  · next hone =>
      obtain rfl := Option.some.inj h
      rcases hone with rfl | rfl
      · exact (pow_zero b).symm
      · exact (one_pow k).symm
  · next hone =>
      rw [not_or] at hone
      split at h
      · next hzero =>
          obtain rfl := Option.some.inj h
          rw [hzero, zero_pow hone.1]
      · split at h
        · next hneg =>
            obtain rfl := Option.some.inj h
            rw [hneg]
            split
            · next hodd => exact (Odd.neg_one_pow (Nat.odd_iff.mpr hodd)).symm
            · next heven => exact (Even.neg_one_pow (Nat.even_iff.mpr (by omega))).symm
        · split at h
          · cases h
          · exact (Option.some.inj h).symm

/-! ## Expressions -/

namespace Expr

section Chains

variable (hA : A.Lawful)
include hA

theorem value_foldl_mul : (es.foldl (.bin .mul) e).value A env =
    e.value A env * (es.map (value A env)).prod := by
  induction es generalizing e with
  | nil => simp
  | cons f es ih =>
      rw [List.foldl_cons, ih, value, hA.mul, List.map_cons, List.prod_cons, mul_assoc]

theorem value_foldl_add : (es.foldl (.bin .add) e).value A env =
    e.value A env + (es.map (value A env)).sum := by
  induction es generalizing e with
  | nil => simp
  | cons f es ih =>
      rw [List.foldl_cons, ih, value, hA.add, List.map_cons, List.sum_cons, add_assoc]

theorem value_product : (product es).value A env = (es.map (value A env)).prod := by
  cases es with
  | nil => exact (hA.int 1).trans Int.cast_one
  | cons f es => exact value_foldl_mul hA

theorem value_sum : (sum es).value A env = (es.map (value A env)).sum := by
  cases es with
  | nil => exact (hA.int 0).trans Int.cast_zero
  | cons f es => exact value_foldl_add hA

theorem prod_value_factors : (e.factors.map (value A env)).prod = e.value A env := by
  induction e with
  | bin op l r ihl ihr =>
      by_cases hop : op = .mul
      · subst hop
        rw [factors_mul, List.map_append, List.prod_append, ihl, ihr, value, hA.mul]
      · rw [factors, operands_eq_singleton (by simpa [op?] using hop)]
        simp
  | num | var | pow | root => simp [factors, operands]

theorem sum_value_addends : (e.addends.map (value A env)).sum = e.value A env := by
  induction e with
  | bin op l r ihl ihr =>
      by_cases hop : op = .add
      · subst hop
        rw [addends, operands, if_pos rfl, List.map_append, List.sum_append, ihl, ihr, value,
          hA.add]
      · rw [addends, operands_eq_singleton (by simpa [op?] using hop)]
        simp
  | num | var | pow | root => simp [addends, operands]

theorem value_pow_num (b : Expr) (k : Nat) :
    (pow b (.num k)).value A env = b.value A env ^ k := by
  rw [value, value, hA.int, Int.cast_natCast, hA.pow]

theorem value_varPow {x : String} {k : Nat} : (varPow x k).value A env = env x ^ k := by
  rw [varPow]
  split
  · next h => rw [h, pow_one, value]
  · rw [value_pow_num hA, value]

theorem value_mulFactors (l r : Expr) :
    (mulFactors l r).value A env = l.value A env * r.value A env := by
  fun_induction mulFactors l r with
  | case1 r f ih => rw [value, hA.mul, ih, value, hA.mul, mul_assoc]
  | case2 f => rw [value, hA.mul]

/-- The grouping of products has no meaning. -/
theorem value_leftProducts (e : Expr) : e.leftProducts.value A env = e.value A env := by
  fun_induction leftProducts e with
  | case1 n => rfl
  | case2 x => rfl
  | case3 l r ihl ihr => rw [value_mulFactors hA, ihl, ihr, value, hA.mul]
  | case4 op l r hop ihl ihr => rw [value, ihl, ihr, value]
  | case5 b k ihb ihk => rw [value, ihb, ihk, value]
  | case6 e ih => rw [value, ih, value]

end Chains

/-- An operand of a chain of sums and differences, with its sign. -/
def Addend.signedValue (A : Arithmetic F) (env : String → F) (a : Addend) : F :=
  if a.negated then -a.value.value A env else a.value.value A env

theorem sum_signedValue_signedAddends (hA : A.Lawful) :
    (e.signedAddends.map (Addend.signedValue A env)).sum = e.value A env := by
  induction e with
  | bin op l r ihl ihr =>
      cases op with
      | add => rw [signedAddends, List.map_append, List.sum_append, ihl, ihr, value, hA.add]
      | sub =>
          rw [signedAddends, List.map_append, List.sum_append, ihl, value, hA.sub, sub_eq_add_neg]
          simp [Addend.signedValue]
      | mul | div => simp [signedAddends, Addend.signedValue]
  | num | var | pow | root => simp [signedAddends, Addend.signedValue]

omit [Field F] [LinearOrder F] in
theorem radicandValues_mulFactors (l r : Expr) : (mulFactors l r).radicandValues A env =
    l.radicandValues A env ++ r.radicandValues A env := by
  fun_induction mulFactors l r with
  | case1 r f ih => rw [radicandValues, ih, radicandValues, List.append_assoc]
  | case2 f => rfl

theorem radicandValues_leftProducts (hA : A.Lawful) (e : Expr) :
    e.leftProducts.radicandValues A env = e.radicandValues A env := by
  fun_induction leftProducts e with
  | case1 n => rfl
  | case2 x => rfl
  | case3 l r ihl ihr => rw [radicandValues_mulFactors, ihl, ihr, radicandValues]
  | case4 op l r hop ihl ihr => rw [radicandValues, ihl, ihr, radicandValues]
  | case5 b k ihb ihk => rw [radicandValues, ihb, ihk, radicandValues]
  | case6 e ih => rw [radicandValues, ih, value_leftProducts hA, radicandValues]

/-! ### Where an expression is defined -/

/-- The names are letters and no radicand is negative. -/
structure Defined (A : Arithmetic F) (env : String → F) (e : Expr) : Prop where
  letters : e.allVars isLetter
  radicands : ∀ v ∈ e.radicandValues A env, 0 ≤ v

theorem defined_num (n : Int) : (Expr.num n).Defined A env :=
  ⟨rfl, List.forall_mem_nil _⟩

theorem defined_var {x : String} (hx : isLetter x) : (Expr.var x).Defined A env :=
  ⟨hx, List.forall_mem_nil _⟩

theorem defined_bin {op : Op} : (Expr.bin op l r).Defined A env ↔
    l.Defined A env ∧ r.Defined A env := by
  constructor
  · rintro ⟨hletters, hradicands⟩
    obtain ⟨hl, hr⟩ := allVars_bin.mp hletters
    obtain ⟨hl', hr'⟩ := List.forall_mem_append.mp hradicands
    exact ⟨⟨hl, hl'⟩, ⟨hr, hr'⟩⟩
  · rintro ⟨hl, hr⟩
    exact ⟨allVars_bin.mpr ⟨hl.letters, hr.letters⟩,
      List.forall_mem_append.mpr ⟨hl.radicands, hr.radicands⟩⟩

theorem defined_pow {b k : Expr} : (Expr.pow b k).Defined A env ↔
    b.Defined A env ∧ k.Defined A env := by
  constructor
  · rintro ⟨hletters, hradicands⟩
    obtain ⟨hb, hk⟩ := (Bool.and_eq_true _ _).mp hletters
    obtain ⟨hb', hk'⟩ := List.forall_mem_append.mp hradicands
    exact ⟨⟨hb, hb'⟩, ⟨hk, hk'⟩⟩
  · rintro ⟨hb, hk⟩
    exact ⟨(Bool.and_eq_true _ _).mpr ⟨hb.letters, hk.letters⟩,
      List.forall_mem_append.mpr ⟨hb.radicands, hk.radicands⟩⟩

theorem defined_root : (Expr.root e).Defined A env ↔
    e.Defined A env ∧ 0 ≤ e.value A env := by
  constructor
  · rintro ⟨hletters, hradicands⟩
    obtain ⟨he, hvalue⟩ := List.forall_mem_append.mp hradicands
    exact ⟨⟨hletters, he⟩, hvalue _ (List.mem_singleton_self _)⟩
  · rintro ⟨he, hvalue⟩
    refine ⟨he.letters, List.forall_mem_append.mpr ⟨he.radicands, fun v hv => ?_⟩⟩
    exact List.mem_singleton.mp hv ▸ hvalue

theorem defined_varPow {x : String} {k : Nat} (hx : isLetter x) :
    (varPow x k).Defined A env := by
  rw [varPow]
  split
  · exact defined_var hx
  · exact defined_pow.mpr ⟨defined_var hx, defined_num _⟩

theorem defined_operands {op : Op} :
    (∀ f ∈ e.operands op, f.Defined A env) ↔ e.Defined A env :=
  forall_operands_iff fun _ _ => defined_bin

theorem defined_product (hes : ∀ f ∈ es, f.Defined A env) : (product es).Defined A env :=
  property_product (fun _ _ => defined_bin) (defined_num 1) hes

theorem defined_sum (hes : ∀ f ∈ es, f.Defined A env) : (sum es).Defined A env :=
  property_sum (fun _ _ => defined_bin) (defined_num 0) hes

end Expr

end Surd
