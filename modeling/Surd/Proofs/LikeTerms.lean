import Mathlib.Algebra.BigOperators.Group.List.Lemmas
import Surd.Proofs.Combine
import Surd.Proofs.Keys
import Surd.Proofs.Polynomial

/-!
# Adding up like terms

Terms are compared by their keys, and a key shows a radicand up to the grouping
of its products only. Canonical radicands have all their products leaning left,
so canonical terms with the same key differ in the coefficient alone
(`Term.alike_of_key_eq`).

Where keys tell terms apart, the result of `combine` can be described without
following its groups: every kind of terms is there once, with the sum of its
coefficients, unless that is zero (`AddsUp`). The description mentions no order.
Terms that come in another order therefore add up to the same terms, in another
order (`AddsUp.perm`).
-/

namespace Surd

variable {e l r : Expr} {es : List Expr} {op : Op} {s t : Term} {ts ts' us us' : List Term}
  {key : String} {groups : List (String × Term)}

/-! ## Canonical products lean left -/

namespace Expr

theorem leftProducts_link (hl : l.leftProducts = l) (hr : r.leftProducts = r)
    (hop : op = .mul → r.op? ≠ some .mul) : (Expr.bin op l r).leftProducts = .bin op l r := by
  cases op with
  | mul => rw [leftProducts, hl, hr, mulFactors_of_op? (hop rfl)]
  | add | sub | div => simp only [leftProducts, hl, hr]

theorem leftProducts_foldl (he : e.leftProducts = e) (hes : ∀ f ∈ es, f.leftProducts = f)
    (hop : op = .mul → ∀ f ∈ es, f.op? ≠ some .mul) :
    (es.foldl (.bin op) e).leftProducts = es.foldl (.bin op) e := by
  induction es generalizing e with
  | nil => exact he
  | cons f es ih =>
      refine ih ?_ (fun g hg => hes g (List.mem_cons_of_mem f hg))
        fun h g hg => hop h g (List.mem_cons_of_mem f hg)
      exact leftProducts_link he (hes f List.mem_cons_self) fun h => hop h f List.mem_cons_self

theorem leftProducts_sum (hes : ∀ f ∈ es, f.leftProducts = f) :
    (sum es).leftProducts = sum es := by
  cases es with
  | nil => rfl
  | cons f es =>
      exact leftProducts_foldl (hes f List.mem_cons_self)
        (fun g hg => hes g (List.mem_cons_of_mem f hg)) nofun

theorem leftProducts_product (hes : ∀ f ∈ es, f.leftProducts = f)
    (hop : ∀ f ∈ es, f.op? ≠ some .mul) : (product es).leftProducts = product es := by
  cases es with
  | nil => rfl
  | cons f es =>
      exact leftProducts_foldl (hes f List.mem_cons_self)
        (fun g hg => hes g (List.mem_cons_of_mem f hg))
        fun _ g hg => hop g (List.mem_cons_of_mem f hg)

end Expr

theorem Term.leftProducts_toExpr (h : ∀ r, t.radical = some r → r.leftProducts = r) :
    t.toExpr.leftProducts = t.toExpr := by
  rw [toExpr]
  split
  · rfl
  · refine Expr.leftProducts_product (fun f hf => ?_) fun f hf => by simp [op?_of_mem_toFactors hf]
    rcases mem_toFactors.mp hf with ⟨-, rfl⟩ | ⟨q, -, rfl⟩ | ⟨r, hr, rfl⟩
    · rfl
    · rw [Expr.varPow]
      split <;> rfl
    · rw [Expr.leftProducts, h r hr]

theorem Canonical.IsRadicand.leftProducts_eq (h : IsRadicand e) : e.leftProducts = e := by
  induction h with
  | term _ _ _ _ ih => exact Term.leftProducts_toExpr ih
  | sum _ _ ih =>
      refine Expr.leftProducts_sum fun f hf => ?_
      obtain ⟨t, ht, rfl⟩ := List.mem_map.mp hf
      exact Term.leftProducts_toExpr (ih t ht)

namespace Term

theorem alike_of_key_eq (hs : Canonical.IsTerm s) (ht : Canonical.IsTerm t)
    (hsnames : s.Names Expr.isLetter) (htnames : t.Names Expr.isLetter) (h : s.key = t.key) :
    s.Alike t := by
  obtain ⟨hvars, hradical⟩ := eq_of_key_eq hsnames htnames h
  have hself {u : Term} (hu : Canonical.IsTerm u) :
      u.radical.map Expr.leftProducts = u.radical := by
    cases hr : u.radical with
    | none => rfl
    | some r => exact congrArg some (hu r hr).leftProducts_eq
  exact ⟨hvars, by rwa [hself hs, hself ht] at hradical⟩

/-! ## Kinds of terms -/

theorem Alike.symm (h : s.Alike t) : t.Alike s :=
  ⟨h.vars.symm, h.radical.symm⟩

theorem Alike.trans {u : Term} (h : s.Alike t) (h' : t.Alike u) : s.Alike u :=
  ⟨h.vars.trans h'.vars, h.radical.trans h'.radical⟩

instance (s t : Term) : Decidable (s.Alike t) :=
  decidable_of_iff (s.vars = t.vars ∧ s.radical = t.radical)
    ⟨fun h => ⟨h.1, h.2⟩, fun h => ⟨h.vars, h.radical⟩⟩

/-- The sum of the coefficients of the terms that are alike to `t`. -/
def likeCoeff (t : Term) (ts : List Term) : Int :=
  (ts.map fun s => if s.Alike t then s.coeff else 0).sum

theorem likeCoeff_append (t : Term) (ts us : List Term) :
    likeCoeff t (ts ++ us) = likeCoeff t ts + likeCoeff t us := by
  rw [likeCoeff, List.map_append, List.sum_append]
  rfl

theorem Alike.likeCoeff_eq (h : s.Alike t) : s.likeCoeff ts = t.likeCoeff ts :=
  congrArg List.sum <| List.map_congr_left fun _ _ =>
    if_congr ⟨fun hu => hu.trans h, fun hu => hu.trans h.symm⟩ rfl rfl

theorem likeCoeff_perm (t : Term) (h : ts.Perm us) : likeCoeff t ts = likeCoeff t us :=
  (h.map _).sum_eq

/-- `us` is what is left when like terms of `ts` have been added up: every kind
of terms at most once, with the sum of all its coefficients, where the sum is
not zero. -/
structure AddsUp (ts us : List Term) : Prop where
  nodup : us.Nodup
  mem_iff : ∀ t, t ∈ us ↔ t.coeff ≠ 0 ∧ t.coeff = likeCoeff t ts

theorem AddsUp.congr (h : AddsUp ts us) (hts : ∀ t, likeCoeff t ts = likeCoeff t ts') :
    AddsUp ts' us :=
  ⟨h.nodup, fun t => by rw [h.mem_iff, hts]⟩

/-- The sums are determined up to the order in which they are listed. -/
theorem AddsUp.unique (h : AddsUp ts us) (h' : AddsUp ts us') : us.Perm us' :=
  (List.perm_ext_iff_of_nodup h.nodup h'.nodup).mpr fun t => by rw [h.mem_iff, h'.mem_iff]

theorem AddsUp.perm (h : AddsUp ts us) (h' : AddsUp ts' us') (hts : ts.Perm ts') :
    us.Perm us' :=
  (h.congr fun t => likeCoeff_perm t hts).unique h'

/-! ## Groups of terms -/

/-- The sum of the coefficients under a key. -/
def coeffUnder (key : String) (groups : List (String × Term)) : Int :=
  (groups.map fun g => if g.1 = key then g.2.coeff else 0).sum

theorem coeffUnder_cons (g : String × Term) : coeffUnder key (g :: groups) =
    (if g.1 = key then g.2.coeff else 0) + coeffUnder key groups :=
  List.sum_cons

theorem coeffUnder_addLike (key : String) : coeffUnder key (addLike t.key t groups) =
    coeffUnder key groups + if t.key = key then t.coeff else 0 := by
  induction groups with
  | nil => rw [addLike, coeffUnder_cons, add_comm]
  | cons g groups ih =>
      obtain ⟨key', s⟩ := g
      rw [addLike]
      split
      · next hkey =>
          rw [coeffUnder_cons, coeffUnder_cons, hkey]
          split <;> ring
      · rw [coeffUnder_cons, coeffUnder_cons, ih, add_assoc]

theorem coeffUnder_addAll (key : String) : coeffUnder key (addAll groups ts) =
    coeffUnder key groups + coeffUnder key (ts.map fun t => (t.key, t)) := by
  induction ts generalizing groups with
  | nil => exact (add_zero _).symm
  | cons t ts ih =>
      rw [List.map_cons, coeffUnder_cons, ← add_assoc, ← coeffUnder_addLike]
      exact ih

/-- A group is the only one under its key. -/
theorem coeffUnder_of_mem (hnodup : (groups.map Prod.fst).Nodup) {g : String × Term}
    (hg : g ∈ groups) : coeffUnder g.1 groups = g.2.coeff := by
  induction groups with
  | nil => cases hg
  | cons g' groups ih =>
      rw [List.map_cons, List.nodup_cons] at hnodup
      rw [coeffUnder_cons]
      rcases List.mem_cons.mp hg with rfl | hg
      · have hzero : coeffUnder g.1 groups = 0 := by
          refine List.sum_eq_zero fun c hc => ?_
          obtain ⟨g', hg', rfl⟩ := List.mem_map.mp hc
          exact if_neg fun heq => hnodup.1 (List.mem_map.mpr ⟨g', hg', heq⟩)
        rw [if_pos rfl, hzero, add_zero]
      · have hne : g'.1 ≠ g.1 := fun heq => hnodup.1 (List.mem_map.mpr ⟨g, hg, heq.symm⟩)
        rw [if_neg hne, zero_add, ih hnodup.2 hg]

theorem exists_mem_of_coeffUnder_ne_zero (h : coeffUnder key groups ≠ 0) :
    ∃ g ∈ groups, g.1 = key := by
  by_contra hnone
  refine h (List.sum_eq_zero fun c hc => ?_)
  obtain ⟨g, hg, rfl⟩ := List.mem_map.mp hc
  exact if_neg fun heq => hnone ⟨g, hg, heq⟩

theorem exists_alike_of_likeCoeff_ne_zero (h : likeCoeff t ts ≠ 0) : ∃ s ∈ ts, s.Alike t := by
  by_contra hnone
  refine h (List.sum_eq_zero fun c hc => ?_)
  obtain ⟨s, hs, rfl⟩ := List.mem_map.mp hc
  exact if_neg fun halike => hnone ⟨s, hs, halike⟩

/-- Terms with the same key are alike. -/
def KeysTell (ts : List Term) : Prop :=
  ∀ s ∈ ts, ∀ t ∈ ts, s.key = t.key → s.Alike t

/-- The terms of a kind are those with its key. -/
theorem coeffUnder_eq_likeCoeff (hkeys : KeysTell ts) (hs : s ∈ ts) (halike : t.Alike s) :
    coeffUnder t.key (ts.map fun u => (u.key, u)) = likeCoeff t ts := by
  rw [coeffUnder, likeCoeff, List.map_map]
  refine congrArg List.sum (List.map_congr_left fun u hu => if_congr ⟨fun hkey => ?_, ?_⟩ rfl rfl)
  · exact (hkeys u hu s hs (hkey.trans halike.key_eq)).trans halike.symm
  · exact Alike.key_eq

/-- Combining adds up like terms, if keys tell them apart. -/
theorem addsUp_combine (hkeys : KeysTell ts) : AddsUp ts (combine ts) := by
  have hsum (key : String) : coeffUnder key (addAll [] ts) =
      coeffUnder key (ts.map fun t => (t.key, t)) :=
    (coeffUnder_addAll key).trans (zero_add _)
  have hgroup {g : String × Term} (hg : g ∈ addAll [] ts) :
      g.2.key = g.1 ∧ g.2.coeff = likeCoeff g.2 ts := by
    obtain ⟨s, hs, halike, hkey⟩ := holds_of_mem_addAll hg
    have hgkey : g.2.key = g.1 := halike.key_eq.trans hkey.symm
    refine ⟨hgkey, ?_⟩
    have hnodup : ((addAll [] ts).map Prod.fst).Nodup := nodup_addAll List.nodup_nil
    rw [← coeffUnder_eq_likeCoeff hkeys hs halike, hgkey, ← hsum, coeffUnder_of_mem hnodup hg]
  refine ⟨(nodup_key_combine ts).of_map _, fun t => ?_⟩
  rw [combine_eq]
  constructor
  · intro ht
    obtain ⟨ht, hcoeff⟩ := List.mem_filter.mp ht
    obtain ⟨g, hg, rfl⟩ := List.mem_map.mp ht
    exact ⟨of_decide_eq_true hcoeff, (hgroup hg).2⟩
  · rintro ⟨hcoeff, hlike⟩
    obtain ⟨s, hs, halike⟩ := exists_alike_of_likeCoeff_ne_zero (hlike ▸ hcoeff)
    have hkey : coeffUnder t.key (addAll [] ts) ≠ 0 := by
      rw [hsum, coeffUnder_eq_likeCoeff hkeys hs halike.symm, ← hlike]
      exact hcoeff
    obtain ⟨g, hg, hgt⟩ := exists_mem_of_coeffUnder_ne_zero hkey
    -- the group under the key of `t` holds `t` itself
    have hgalike : g.2.Alike t := by
      obtain ⟨u, hu, hgu, hukey⟩ := holds_of_mem_addAll hg
      refine hgu.trans ((hkeys u hu s hs ?_).trans halike)
      rw [← hukey, hgt, halike.key_eq]
    have heq : g.2 = t := by
      refine Term.ext ?_ hgalike.vars hgalike.radical
      rw [(hgroup hg).2, hgalike.likeCoeff_eq, hlike]
    exact List.mem_filter.mpr ⟨List.mem_map.mpr ⟨g, hg, heq⟩, decide_eq_true hcoeff⟩

end Term

/-! ## Sums of terms -/

/-- The terms of a written sum are those it was written with. -/
theorem Expr.terms_sum (h : ∀ t ∈ us, t.coeff ≠ 0) :
    (Expr.sum (us.map Term.toExpr)).terms = us.map Term.toExpr := by
  match us with
  | [] => rfl
  | [t] =>
      exact terms_of_op? (Term.toExpr_ne_zero (h t (List.mem_singleton_self t)))
        Term.op?_toExpr_ne_add
  | s :: t :: us =>
      have hop : (Expr.sum ((s :: t :: us).map Term.toExpr)).op? = some .add :=
        op?_foldl (List.cons_ne_nil _ _)
      have hne : Expr.sum ((s :: t :: us).map Term.toExpr) ≠ .num 0 := fun hzero => by
        rw [hzero] at hop
        cases hop
      rw [terms_of_ne hne]
      refine operands_chain? (fun f hf => ?_) rfl
      obtain ⟨u, -, rfl⟩ := List.mem_map.mp hf
      exact Term.op?_toExpr_ne_add

end Surd
