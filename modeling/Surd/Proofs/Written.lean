import Surd.Canonical
import Surd.Expr.Shape

/-!
# Terms and sums as they are written

A term is written as a product and a sum of terms as a sum, both leaning left,
and both can be taken apart again: the factors of a written term are the ones
it was written with, and the addends of a written sum are its terms. What a
factor of a term is not, an operation of its own at the head, is all that this
takes.
-/

namespace Surd

namespace Expr

variable {op : Op} {e : Expr} {es : List Expr}

theorem operands_eq_singleton (h : e.op? ≠ some op) : e.operands op = [e] := by
  cases e with
  | bin op' l r =>
      rw [operands, if_neg]
      rintro rfl
      exact h rfl
  | num | var | pow | root => rfl

theorem operands_ne_nil (op : Op) (e : Expr) : e.operands op ≠ [] := by
  induction e with
  | bin op' l r ihl _ =>
      rw [operands]
      split
      · exact List.append_ne_nil_of_left_ne_nil ihl _
      · exact List.cons_ne_nil _ _
  | num | var | pow | root => exact List.cons_ne_nil _ _

theorem op?_ne_of_mem_operands {f : Expr} (h : f ∈ e.operands op) : f.op? ≠ some op := by
  induction e with
  | bin op' l r ihl ihr =>
      rw [operands] at h
      split at h
      · exact (List.mem_append.mp h).elim ihl ihr
      · next hne =>
          obtain rfl := List.mem_singleton.mp h
          exact fun heq => hne (Option.some.inj heq)
  | num | var | pow | root =>
      obtain rfl := List.mem_singleton.mp h
      intro heq
      cases heq

theorem isSum_of_op? (h : e.op? = some .add) : e.isSum := by
  simp [isSum, isBin, h]

theorem isSum_of_op?_eq_none (h : e.op? = none) : e.isSum = false := by
  simp [isSum, isBin, h]

theorem factors_of_isSum (h : e.isSum) : e.factors = [e] :=
  operands_eq_singleton fun hop => by simp [isSum, isBin, hop] at h

theorem factors_of_op?_eq_none (h : e.op? = none) : e.factors = [e] :=
  operands_eq_singleton (by simp [h])

theorem operands_of_mem_operands {f : Expr} (h : f ∈ e.operands op) : f.operands op = [f] :=
  operands_eq_singleton (op?_ne_of_mem_operands h)

theorem flatMap_operands (h : ∀ f ∈ es, f.op? ≠ some op) : es.flatMap (operands op) = es := by
  induction es with
  | nil => rfl
  | cons f es ih =>
      rw [List.flatMap_cons, operands_eq_singleton (h f List.mem_cons_self),
        ih fun g hg => h g (List.mem_cons_of_mem f hg)]
      rfl

theorem operands_chain? (h : ∀ f ∈ es, f.op? ≠ some op) (hc : chain? op es = some e) :
    e.operands op = es := by
  rw [operands_of_chain? hc, flatMap_operands h]

theorem op?_foldl (hes : es ≠ []) : (es.foldl (.bin op) e).op? = some op := by
  induction es generalizing e with
  | nil => exact absurd rfl hes
  | cons f es ih =>
      cases es with
      | nil => rfl
      | cons g es => exact ih (List.cons_ne_nil g es)

theorem signedAddends_of_op? (ha : e.op? ≠ some .add) (hs : e.op? ≠ some .sub) :
    e.signedAddends = [⟨false, e⟩] := by
  cases e with
  | bin op l r =>
      cases op with
      | add => exact absurd rfl ha
      | sub => exact absurd rfl hs
      | mul | div => rfl
  | num | var | pow | root => rfl

theorem signedAddends_foldl :
    (es.foldl (.bin .add) e).signedAddends = e.signedAddends ++ es.flatMap signedAddends := by
  induction es generalizing e with
  | nil => simp
  | cons f es ih => simp [ih, signedAddends]

/-! ### Properties of chains

A property that holds of an operation exactly if it holds of both operands
holds of a chain exactly if it holds of all operands. -/

section Properties

variable {P : Expr → Prop}

theorem forall_operands_iff (hop : ∀ l r, P (.bin op l r) ↔ P l ∧ P r) :
    (∀ f ∈ e.operands op, P f) ↔ P e := by
  induction e with
  | bin op' l r ihl ihr =>
      rw [operands]
      split
      · next heq =>
          subst heq
          simp only [List.mem_append, or_imp, forall_and, ihl, ihr, hop]
      · simp
  | num | var | pow | root => simp [operands]

theorem forall_signedAddends_iff (hadd : ∀ l r, P (.bin .add l r) ↔ P l ∧ P r)
    (hsub : ∀ l r, P (.bin .sub l r) ↔ P l ∧ P r) :
    (∀ a ∈ e.signedAddends, P a.value) ↔ P e := by
  induction e with
  | bin op l r ihl ihr =>
      cases op with
      | add => simp only [signedAddends, List.mem_append, or_imp, forall_and, ihl, ihr, hadd]
      | sub =>
          simp only [signedAddends, List.mem_append, or_imp, forall_and, ihl, hsub,
            List.mem_singleton, forall_eq]
      | mul | div => simp [signedAddends]
  | num | var | pow | root => simp [signedAddends]

theorem property_chain? (hop : ∀ l r, P (.bin op l r) ↔ P l ∧ P r) (hes : ∀ f ∈ es, P f)
    (h : chain? op es = some e) : P e := by
  rw [← forall_operands_iff hop, operands_of_chain? h]
  intro g hg
  obtain ⟨f, hf, hgf⟩ := List.mem_flatMap.mp hg
  exact (forall_operands_iff hop).mpr (hes f hf) g hgf

theorem property_sum (hop : ∀ l r, P (.bin .add l r) ↔ P l ∧ P r) (hzero : P (.num 0))
    (hes : ∀ f ∈ es, P f) : P (sum es) := by
  rw [sum]
  cases h : chain? .add es with
  | none => exact hzero
  | some e => exact property_chain? hop hes h

theorem property_product (hop : ∀ l r, P (.bin .mul l r) ↔ P l ∧ P r) (hone : P (.num 1))
    (hes : ∀ f ∈ es, P f) : P (product es) := by
  rw [product]
  cases h : chain? .mul es with
  | none => exact hone
  | some e => exact property_chain? hop hes h

end Properties

end Expr

namespace Term

variable {t : Term}

theorem op?_varPow {x : String} {k : Nat} : (Expr.varPow x k).op? = none := by
  rw [Expr.varPow]
  split <;> rfl

theorem mem_toFactors {f : Expr} :
    f ∈ t.toFactors ↔ (t.coeff ≠ 1 ∧ f = .num t.coeff) ∨
      (∃ q ∈ t.vars.entries, f = Expr.varPow q.1 q.2) ∨ ∃ e, t.radical = some e ∧ f = .root e := by
  simp only [toFactors, List.mem_append, List.mem_map, Option.mem_toList, Option.map_eq_some_iff,
    or_assoc, eq_comm (b := f)]
  refine or_congr_left ?_
  split <;> simp [*]

theorem op?_of_mem_toFactors {f : Expr} (h : f ∈ t.toFactors) : f.op? = none := by
  rcases mem_toFactors.mp h with ⟨-, rfl⟩ | ⟨q, -, rfl⟩ | ⟨e, -, rfl⟩
  · rfl
  · exact op?_varPow
  · rfl

theorem toFactors_eq_nil_iff : t.toFactors = [] ↔ t = .one := by
  constructor
  · intro h
    obtain ⟨hcoeff, hvars, hradical⟩ :
        t.coeff = 1 ∧ t.vars.entries = [] ∧ t.radical = none := by
      simpa [toFactors] using h
    obtain ⟨coeff, vars, radical⟩ := t
    obtain rfl : coeff = 1 := hcoeff
    obtain rfl : radical = none := hradical
    obtain rfl : vars = .one := Powers.ext hvars
    rfl
  · rintro rfl
    rfl

theorem chain?_toFactors (hcoeff : t.coeff ≠ 0) (hone : t ≠ .one) :
    Expr.chain? .mul t.toFactors = some t.toExpr := by
  rw [toExpr, if_neg hcoeff, Expr.product]
  cases h : t.toFactors with
  | nil => exact absurd (toFactors_eq_nil_iff.mp h) hone
  | cons f fs => rfl

theorem factors_toExpr (hcoeff : t.coeff ≠ 0) (hone : t ≠ .one) :
    t.toExpr.factors = t.toFactors :=
  Expr.operands_chain? (fun f hf => by simp [op?_of_mem_toFactors hf])
    (chain?_toFactors hcoeff hone)

theorem toExpr_one : Term.one.toExpr = .num 1 := rfl

theorem toExpr_zero (hcoeff : t.coeff = 0) : t.toExpr = .num 0 := if_pos hcoeff

/-- The factors of a written term are its own, or the one integer that stands
for an empty or a vanishing product. -/
theorem mem_factors_toExpr {f : Expr} (h : f ∈ t.toExpr.factors) :
    f ∈ t.toFactors ∨ ∃ n, f = .num n := by
  by_cases hcoeff : t.coeff = 0
  · rw [toExpr_zero hcoeff] at h
    exact .inr ⟨0, List.mem_singleton.mp h⟩
  · by_cases hone : t = .one
    · rw [hone, toExpr_one] at h
      exact .inr ⟨1, List.mem_singleton.mp h⟩
    · rw [factors_toExpr hcoeff hone] at h
      exact .inl h

theorem isSum_of_mem_toFactors {f : Expr} (h : f ∈ t.toFactors) : f.isSum = false :=
  Expr.isSum_of_op?_eq_none (op?_of_mem_toFactors h)

theorem isSum_of_mem_factors_toExpr {f : Expr} (h : f ∈ t.toExpr.factors) : f.isSum = false := by
  rcases mem_factors_toExpr h with h | ⟨n, rfl⟩
  · exact isSum_of_mem_toFactors h
  · rfl

theorem root_mem_factors_toExpr {r : Expr} (hcoeff : t.coeff ≠ 0) (hr : t.radical = some r) :
    .root r ∈ t.toExpr.factors := by
  have hone : t ≠ .one := fun hone => by
    rw [hone] at hr
    cases hr
  rw [factors_toExpr hcoeff hone]
  exact mem_toFactors.mpr (.inr (.inr ⟨r, hr, rfl⟩))

/-- A written term is no sum, no difference and no quotient. -/
theorem op?_toExpr : t.toExpr.op? = none ∨ t.toExpr.op? = some .mul := by
  by_cases hcoeff : t.coeff = 0
  · exact .inl (by rw [toExpr_zero hcoeff]; rfl)
  · rw [toExpr, if_neg hcoeff, Expr.product]
    cases h : t.toFactors with
    | nil => exact .inl rfl
    | cons f fs =>
        cases fs with
        | nil => exact .inl (op?_of_mem_toFactors (h ▸ List.mem_singleton_self f))
        | cons g fs => exact .inr (Expr.op?_foldl (List.cons_ne_nil g fs))

theorem op?_toExpr_ne {op : Op} (h : op ≠ .mul) : t.toExpr.op? ≠ some op := by
  intro hop
  rcases op?_toExpr (t := t) with hnone | hmul
  · rw [hnone] at hop
    cases hop
  · exact h (Option.some.inj (hop.symm.trans hmul))

theorem op?_toExpr_ne_add : t.toExpr.op? ≠ some .add :=
  op?_toExpr_ne (by decide)

theorem addends_toExpr : t.toExpr.addends = [t.toExpr] :=
  Expr.operands_eq_singleton op?_toExpr_ne_add

/-- Written terms are their own addends. -/
theorem flatMap_addends_toExpr (ts : List Term) :
    (ts.map toExpr).flatMap Expr.addends = ts.map toExpr :=
  Expr.flatMap_operands fun f hf => by
    obtain ⟨t, -, rfl⟩ := List.mem_map.mp hf
    exact op?_toExpr_ne_add

theorem signedAddends_toExpr : t.toExpr.signedAddends = [⟨false, t.toExpr⟩] :=
  Expr.signedAddends_of_op? op?_toExpr_ne_add (op?_toExpr_ne (by decide))

end Term

namespace Canonical

variable {ts : List Term}

theorem sumOf_eq_foldl {s t : Term} :
    sumOf (s :: t :: ts) = (t.toExpr :: ts.map Term.toExpr).foldl (.bin .add) s.toExpr :=
  rfl

theorem Unlike.exists_cons (h : Unlike ts) : ∃ s t us, ts = s :: t :: us := by
  match ts, h.two_le with
  | s :: t :: us, _ => exact ⟨s, t, us, rfl⟩

theorem Unlike.op?_sumOf (h : Unlike ts) : (sumOf ts).op? = some .add := by
  obtain ⟨s, t, us, rfl⟩ := h.exists_cons
  exact Expr.op?_foldl (List.cons_ne_nil _ _)

theorem Unlike.isSum_sumOf (h : Unlike ts) : (sumOf ts).isSum :=
  Expr.isSum_of_op? h.op?_sumOf

theorem Unlike.addends_sumOf (h : Unlike ts) : (sumOf ts).addends = ts.map Term.toExpr := by
  obtain ⟨s, t, us, rfl⟩ := h.exists_cons
  refine Expr.operands_chain? (fun f hf => ?_) rfl
  obtain ⟨u, -, rfl⟩ := List.mem_map.mp hf
  exact Term.op?_toExpr_ne_add

theorem Unlike.signedAddends_sumOf (h : Unlike ts) :
    (sumOf ts).signedAddends = ts.map fun t => ⟨false, t.toExpr⟩ := by
  obtain ⟨s, t, us, rfl⟩ := h.exists_cons
  rw [sumOf_eq_foldl, Expr.signedAddends_foldl, Term.signedAddends_toExpr, ← List.map_cons,
    List.flatMap_map]
  simp [Term.signedAddends_toExpr, List.map_eq_flatMap]

end Canonical

end Surd
