import Surd.Proofs.Operands
import Surd.Proofs.Scaling

/-!
# Direct roots

The roots of integers, of variables and of their literal powers are written down
directly, and everything else is multiplied to an empty term, which merges the
root. The two rules agree where both apply (`squareRoot_eq_multiply`). If they
did not, `√8` and `√2` would not have the same radicand, and their sum would not
be one term.

Both rules come down to one term. A single factor under a root is normalized by
itself, so all that merging does is to take the root of the term that comes out.
That term is an integer or a power of a variable, and its root is the one that
was written down: `Term.ofSplit` for the split of an integer, `Term.ofHalf` for
half of an exponent. Where the direct rule fails, it is the same step that fails.
-/

namespace Surd

variable {options : Options} {lv : Level} {r : Expr} {t : Term} {p : Powers} {x : String}
  {m : Int} {k : Nat}

/-- The radicands whose roots are written down directly. -/
inductive HasDirectRoot : Expr → Prop where
  | int (n : Int) : HasDirectRoot (.num n)
  | var (x : String) : HasDirectRoot (.var x)
  | intPow (n : Int) (k : Nat) : HasDirectRoot (.pow (.num n) (.num k))
  | varPow (x : String) (k : Nat) : HasDirectRoot (.pow (.var x) (.num k))

/-! ## What the direct rules write down -/

theorem rootOfInt_of_split {s : Integer.SquareSplit} (hs : Integer.squareSplit? m = some s) :
    rootOfInt m = .ok (Term.ofSplit s).toExpr := by
  obtain ⟨e, he⟩ : ∃ e, rootOfInt m = .ok e := by
    rw [rootOfInt]
    rw [Integer.squareSplit_eq_ok.mpr hs]
    show ∃ e, (if s.outside = 0 then _ else _) = _
    split_ifs <;> exact ⟨_, rfl⟩
  obtain ⟨s', hs', rfl⟩ := rootOfInt_eq_ok he
  obtain rfl := Option.some.inj (hs.symm.trans hs')
  exact he

theorem rootOfVarPow_of_half {half : Powers} (hk : k ≤ maxExponent)
    (hhalf : Powers.one.mulVar? x (k / 2) = some half) :
    rootOfVarPow x k = .ok (Term.ofHalf half x k).toExpr := by
  obtain ⟨e, he⟩ : ∃ e, rootOfVarPow x k = .ok e := ⟨_, if_pos hk⟩
  obtain ⟨half', hhalf', rfl⟩ := rootOfVarPow_eq_ok he
  obtain rfl := Option.some.inj (hhalf.symm.trans hhalf')
  exact he

/-! ## What merging makes of a single factor -/

namespace Term

/-- The term that the root of a normalized factor is. -/
def rootOf (inner : Term) : Except SimplifyError Term := do
  let split ← Integer.squareSplit inner.coeff
  let t ← (one.mulInt split.outside).mulHalves inner.vars
  return { t with radical := Expr.chain? .mul (inner.leftovers split.inside) }

theorem mulRoot_single (hr : r.op? = none) :
    one.mulRoot lv r = ((lv.normalize [r]).mapError (Obstacle.toError r) >>= rootOf) := by
  have hmerged : one.merged r = [r] := Expr.factors_of_op?_eq_none hr
  have hsum : ∀ f ∈ one.merged r, f.isSum = false := by
    simp [hmerged, Expr.isSum_of_op?_eq_none hr]
  rw [mulRoot_eq_extract hsum, hmerged]
  show extract lv r one [r] >>= _ = _
  simp only [extract, bind_assoc, pure_bind]
  rfl

/-- A root by itself is the root of what its radicand normalizes to. -/
theorem multiply_root_of_single (hr : r.op? = none) : multiply lv (.num 1) (.root r) =
    ((lv.normalize [r]).mapError (Obstacle.toError r) >>= rootOf).map toExpr := by
  have hnormalize : normalize lv [.num 1, .root r] = (one.mulRoot lv r).mapError .failed := by
    rw [normalize_pair]
    rfl
  rw [multiply]
  rw [hnormalize, mulRoot_single hr]
  cases (lv.normalize [r]).mapError (Obstacle.toError r) >>= rootOf <;> rfl

theorem rootOf_int (m : Int) : (rootOf ⟨m, .one, none⟩).map toExpr = rootOfInt m := by
  cases hs : Integer.squareSplit? m with
  | none =>
      have herr : Integer.squareSplit m = .error (.radicandTooLarge m) := by
        rw [Integer.squareSplit]
        rw [hs]
      rw [rootOf, rootOfInt]
      rw [herr]
      rfl
  | some s =>
      have hleft : Expr.chain? .mul (leftovers s.inside ⟨m, .one, none⟩) =
          (ofSplit s).radical := by
        by_cases hone : s.inside = 1 <;> simp [leftovers, ofSplit, Powers.one, Expr.chain?, hone]
      rw [rootOfInt_of_split hs, rootOf]
      rw [Integer.squareSplit_eq_ok.mpr hs]
      show Except.ok (toExpr ⟨1 * s.outside, .one, Expr.chain? .mul (leftovers _ _)⟩) = _
      rw [hleft, one_mul]
      rfl

end Term

theorem Powers.exists_mulVar?_one (hk : k ≤ maxExponent) (x : String) :
    ∃ p, Powers.one.mulVar? x k = some p := by
  refine Option.ne_none_iff_exists'.mp fun hnone => ?_
  have hlt := mulVar?_eq_none_iff.mp hnone
  rw [exponent_one] at hlt
  omega

theorem Powers.entries_of_mulVar?_one (h : Powers.one.mulVar? x k = some p) :
    p.entries = if k = 0 then [] else [(x, k)] := by
  rw [mulVar?] at h
  split_ifs at h ⊢ <;> obtain rfl := Option.some.inj h <;> rfl

namespace Term

theorem mulHalves_of_single (hp : Powers.one.mulVar? x k = some p) :
    t.mulHalves p = t.mulVar x (k / 2) := by
  rw [mulHalves, Powers.entries_of_mulVar?_one hp]
  split
  · next hk => rw [hk]; rfl
  · exact bind_pure _

theorem rootOf_varPow (hk : k ≤ maxExponent) (hp : Powers.one.mulVar? x k = some p) :
    (rootOf ⟨1, p, none⟩).map toExpr = rootOfVarPow x k := by
  obtain ⟨half, hhalf⟩ := Powers.exists_mulVar?_one (k := k / 2) (by omega) x
  have hleft : Expr.chain? .mul (leftovers 1 ⟨1, p, none⟩) = (ofHalf half x k).radical := by
    rw [leftovers, ofHalf, Powers.entries_of_mulVar?_one hp]
    by_cases hzero : k = 0
    · simp [hzero, Expr.chain?]
    · by_cases hodd : k % 2 = 1 <;> simp [hzero, hodd, Expr.chain?]
  have hhalves : (one.mulInt (1 : Nat)).mulHalves p = .ok ⟨1, half, none⟩ := by
    rw [mulHalves_of_single hp]
    exact mulVar_eq_ok.mpr ⟨half, hhalf, rfl⟩
  rw [rootOfVarPow_of_half hk hhalf, rootOf]
  rw [Integer.squareSplit_eq_ok.mpr Integer.squareSplit?_one]
  show ((one.mulInt (1 : Nat)).mulHalves p >>= _).map toExpr = _
  rw [hhalves]
  show Except.ok (toExpr ⟨1, half, Expr.chain? .mul (leftovers 1 ⟨1, p, none⟩)⟩) = _
  rw [hleft]
  rfl

end Term

/-! ## The two rules -/

/-- What is normalized as an integer has the root of that integer. -/
theorem multiply_root_int (hr : r.op? = none) (hok : lv.normalize [r] = .ok ⟨m, .one, none⟩) :
    multiply lv (.num 1) (.root r) = rootOfInt m := by
  rw [Term.multiply_root_of_single hr, hok]
  exact Term.rootOf_int m

/-- What is normalized as a power of a variable has the root of that power. -/
theorem multiply_root_varPow (hr : r.op? = none) (hk : k ≤ maxExponent)
    (hp : Powers.one.mulVar? x k = some p) (hok : lv.normalize [r] = .ok ⟨1, p, none⟩) :
    multiply lv (.num 1) (.root r) = rootOfVarPow x k := by
  rw [Term.multiply_root_of_single hr, hok]
  exact Term.rootOf_varPow hk hp

/-- What fails to be normalized has no root for the same reason. -/
theorem multiply_root_failed {err : SimplifyError} (hr : r.op? = none)
    (hfail : lv.normalize [r] = .error (.failed err)) :
    multiply lv (.num 1) (.root r) = .error err := by
  rw [Term.multiply_root_of_single hr, hfail]
  rfl

section Level

variable {n : Nat}

theorem squareRoot_int (m : Int) : squareRoot (level options (n + 1)) (.num m) =
    multiply (level options (n + 1)) (.num 1) (.root (.num m)) := by
  have hok : (level options (n + 1)).normalize [.num m] = .ok ⟨m, .one, none⟩ := by
    show Except.ok (Term.mk (1 * m) .one none) = _
    rw [one_mul]
  exact (multiply_root_int rfl hok).symm

theorem squareRoot_intPow (m : Int) (k : Nat) :
    squareRoot (level options (n + 1)) (.pow (.num m) (.num k)) =
      multiply (level options (n + 1)) (.num 1) (.root (.pow (.num m) (.num k))) := by
  have hnormalize : (level options (n + 1)).normalize [.pow (.num m) (.num k)] =
      (Integer.power m k >>= fun b => .ok (Term.one.mulInt b)).mapError .failed :=
    normalize_singleton (level options n) _
  show (Integer.power m k >>= rootOfInt) = _
  cases hpower : Integer.power m k with
  | error err =>
      rw [hpower] at hnormalize
      exact (multiply_root_failed rfl hnormalize).symm
  | ok b =>
      rw [hpower] at hnormalize
      refine (multiply_root_int rfl (hnormalize.trans ?_)).symm
      show Except.ok (Term.mk (1 * b) .one none) = _
      rw [one_mul]

theorem squareRoot_var (x : String) : squareRoot (level options (n + 1)) (.var x) =
    multiply (level options (n + 1)) (.num 1) (.root (.var x)) := by
  obtain ⟨p, hp⟩ := Powers.exists_mulVar?_one one_le_maxExponent x
  have hok : (level options (n + 1)).normalize [.var x] = .ok ⟨1, p, none⟩ := by
    refine (normalize_singleton (level options n) _).trans (mapError_eq_ok.mpr ?_)
    exact Term.mulVar_eq_ok.mpr ⟨p, hp, rfl⟩
  have hdirect : rootOfVarPow x 1 = .ok (.root (.var x)) := if_pos one_le_maxExponent
  exact hdirect.symm.trans (multiply_root_varPow rfl one_le_maxExponent hp hok).symm

theorem squareRoot_varPow (x : String) (k : Nat) :
    squareRoot (level options (n + 1)) (.pow (.var x) (.num k)) =
      multiply (level options (n + 1)) (.num 1) (.root (.pow (.var x) (.num k))) := by
  have hnormalize : (level options (n + 1)).normalize [.pow (.var x) (.num k)] =
      (if k ≤ maxExponent then Term.one.mulVar x k
        else .error (.exponentTooLarge k)).mapError .failed :=
    normalize_singleton (level options n) _
  show rootOfVarPow x k = _
  by_cases hk : k ≤ maxExponent
  · obtain ⟨p, hp⟩ := Powers.exists_mulVar?_one hk x
    rw [if_pos hk] at hnormalize
    refine (multiply_root_varPow rfl hk hp (hnormalize.trans (mapError_eq_ok.mpr ?_))).symm
    exact Term.mulVar_eq_ok.mpr ⟨p, hp, rfl⟩
  · rw [if_neg hk] at hnormalize
    rw [multiply_root_failed rfl hnormalize]
    exact if_neg hk

end Level

/-- A root that is written down directly is the one that multiplying makes of it,
and it fails with the same error, as long as there is a level left to look under
the root. -/
theorem squareRoot_eq_multiply {depth : Nat} (hdepth : depth < options.maxDepth)
    (hr : HasDirectRoot r) :
    squareRoot (level options (options.maxDepth - depth)) r =
      multiply (level options (options.maxDepth - depth)) (.num 1) (.root r) := by
  obtain ⟨n, hn⟩ : ∃ n, options.maxDepth - depth = n + 1 :=
    ⟨options.maxDepth - depth - 1, by omega⟩
  rw [hn]
  cases hr with
  | int m => exact squareRoot_int m
  | var x => exact squareRoot_var x
  | intPow m k => exact squareRoot_intPow m k
  | varPow x k => exact squareRoot_varPow x k

/-- The root of `(-12) ^ 3` at the last level that is left. It is `24√-3`. -/
theorem squareRoot_eq_multiply_negative :
    4 < (Options.mk 5 16).maxDepth ∧ HasDirectRoot (.pow (.num (-12)) (.num 3)) ∧
      squareRoot (level ⟨5, 16⟩ (5 - 4)) (.pow (.num (-12)) (.num 3)) =
        .ok (.product [.num 24, .root (.num (-3))]) ∧
      multiply (level ⟨5, 16⟩ (5 - 4)) (.num 1) (.root (.pow (.num (-12)) (.num 3))) =
        .ok (.product [.num 24, .root (.num (-3))]) := by
  have hdepth : 4 < (Options.mk 5 16).maxDepth := by decide
  have hr : HasDirectRoot (.pow (.num (-12)) (.num 3)) := .intPow (-12) 3
  have h : squareRoot (level ⟨5, 16⟩ (5 - 4)) (.pow (.num (-12)) (.num 3)) =
      .ok (.product [.num 24, .root (.num (-3))]) := by rfl
  exact ⟨hdepth, hr, h, (squareRoot_eq_multiply hdepth hr).symm.trans h⟩

end Surd
