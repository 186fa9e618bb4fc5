import Mathlib.Data.List.Perm.Basic
import Surd.Proofs.Grouping
import Surd.Proofs.LikeTerms
import Surd.Proofs.Operands
import Surd.Proofs.Scaling

/-!
# The order of addends shows in the order of the result only

The operands of a sum are simplified one by one, and the terms of all of them
are added up. A sum of operands in another order goes through the same steps
in another order. It fails if one of them does, and otherwise the terms that
are added up are the same, so the like terms are too.

For an operand the terms that go into the sum are those of its simplified form,
negated if the operand is subtracted (`Adds`). It makes no difference to them
whether the simplified operand is a term, a sum or `0`.
-/

namespace Surd

open Canonical

variable {ε α β : Type _} {options : Options} {lv : Level} {a : Expr.Addend} {e e₁ e₂ f l r : Expr}
  {es fs : List Expr} {t u : Term} {ts us terms : List Term} {n : Nat}

/-! ## Outcomes -/

/-- Both are results and have the same terms, in any order, or both are
errors. -/
def SameUpToOrder : Except ε Expr → Except ε Expr → Prop
  | .ok e, .ok f => e.terms.Perm f.terms
  | .error _, .error _ => True
  | .ok _, .error _ => False
  | .error _, .ok _ => False

/-- It is enough to have a result of the one for each result of the other. -/
theorem sameUpToOrder_of_ok {x y : Except ε Expr}
    (h : ∀ e, x = .ok e → ∃ f, y = .ok f ∧ e.terms.Perm f.terms)
    (h' : ∀ f, y = .ok f → ∃ e, x = .ok e ∧ f.terms.Perm e.terms) : SameUpToOrder x y := by
  cases x with
  | ok e =>
      obtain ⟨f, rfl, hperm⟩ := h e rfl
      exact hperm
  | error err =>
      cases y with
      | ok f =>
          obtain ⟨e, he, -⟩ := h' f rfl
          cases he
      | error err' => trivial

theorem mapM_perm {f : α → Except ε β} {as as' : List α} {bs : List β} (h : as'.Perm as)
    (hok : as.mapM f = .ok bs) : ∃ bs', as'.mapM f = .ok bs' ∧ bs'.Perm bs := by
  obtain ⟨bs', hbs', hperm⟩ := List.perm_comp_forall₂ h (mapM_eq_ok.mp hok)
  exact ⟨bs', mapM_eq_ok.mpr hbs', hperm⟩

/-! ## Terms with readable keys -/

/-- A canonical term whose names are letters, so that its key can be read
back. -/
structure Readable (t : Term) : Prop where
  fixed : FixedTerm t
  names : t.Names Expr.isLetter

theorem keysTell_of_readable (h : ∀ t ∈ ts, Readable t) : Term.KeysTell ts := fun s hs t ht =>
  Term.alike_of_key_eq (h s hs).fixed.isTerm (h t ht).fixed.isTerm (h s hs).names (h t ht).names

theorem readable_normalize (hfs : ∀ f ∈ fs, RootsFixed options f)
    (hnames : ∀ f ∈ fs, f.allVars Expr.isLetter) (h : normalize (level options n) fs = .ok t) :
    Readable t :=
  ⟨fixedTerm_normalize (reachesFixed_level options n) hfs h,
    names_normalize (keepsNames_level options n) hnames h⟩

/-- What is collected are terms with readable keys. -/
theorem readable_collect (hes : ∀ f ∈ es, AddendsFixed options f ∧ f.allVars Expr.isLetter)
    (h : List.Forall₂ (fun a t => normalize (level options n) [a] = .ok t)
      (es.flatMap Expr.addends) terms) : ∀ t ∈ terms, Readable t := by
  intro t ht
  obtain ⟨a, ha, hat⟩ := exists_of_forall₂ h ht
  obtain ⟨f, hf, haf⟩ := List.mem_flatMap.mp ha
  obtain ⟨hfixed, hnames⟩ := hes f hf
  refine readable_normalize ?_ ?_ hat <;> simp only [List.mem_singleton, forall_eq]
  · exact hfixed a haf
  · exact Expr.allVars_operands.mpr hnames a haf

theorem terms_collect (h : collect lv es = .ok e) : ∃ terms,
    List.Forall₂ (fun a t => normalize lv [a] = .ok t) (es.flatMap Expr.addends) terms ∧
      e.terms = (Term.combine terms).map Term.toExpr := by
  obtain ⟨terms, hterms, rfl⟩ := collect_eq_ok h
  exact ⟨terms, hterms, Expr.terms_sum fun t ht => Term.coeff_ne_zero_of_mem_combine ht⟩

/-- Addends in another order are collected to the same terms. -/
theorem collect_perm (hes : ∀ f ∈ es, AddendsFixed options f ∧ f.allVars Expr.isLetter)
    (hperm : fs.Perm es) (h : collect (level options n) es = .ok e) :
    ∃ f, collect (level options n) fs = .ok f ∧ e.terms.Perm f.terms := by
  obtain ⟨terms, hterms, he⟩ := terms_collect h
  obtain ⟨terms', hterms', hperm'⟩ :=
    List.perm_comp_forall₂ (hperm.flatMap_right Expr.addends) hterms
  have hok : collect (level options n) fs =
      .ok (.sum ((Term.combine terms').map Term.toExpr)) := by
    rw [collect]
    rw [mapM_eq_ok.mpr (hterms'.imp fun _ _ h => mapError_eq_ok.mpr h)]
    rfl
  have hreadable := readable_collect hes hterms
  have hadds := Term.addsUp_combine (keysTell_of_readable hreadable)
  have hadds' := Term.addsUp_combine
    (keysTell_of_readable fun t ht => hreadable t (hperm'.mem_iff.mp ht))
  refine ⟨_, hok, ?_⟩
  rw [he, Expr.terms_sum fun t ht => Term.coeff_ne_zero_of_mem_combine ht]
  exact (hadds.perm hadds' hperm'.symm).map Term.toExpr

/-! ## Terms of one operand -/

/-- The terms that a simplified expression is the sum of. -/
structure Separate (ts : List Term) : Prop where
  fixed : ∀ t ∈ ts, FixedTerm t
  coeff_ne_zero : ∀ t ∈ ts, t.coeff ≠ 0
  nodup : (ts.map Term.key).Nodup

theorem separate_singleton (ht : FixedTerm t) (hcoeff : t.coeff ≠ 0) : Separate [t] :=
  ⟨by simpa using ht, by simpa using hcoeff, List.nodup_singleton _⟩

theorem Separate.mulInt (h : Separate ts) {c : Int} (hc : c ≠ 0) :
    Separate (ts.map fun t => t.mulInt c) where
  fixed := by
    simp only [List.mem_map, forall_exists_index, and_imp, forall_apply_eq_imp_iff₂]
    exact fun t ht => h.fixed t ht
  coeff_ne_zero := by
    simp only [List.mem_map, forall_exists_index, and_imp, forall_apply_eq_imp_iff₂]
    exact fun t ht => mul_ne_zero (h.coeff_ne_zero t ht) hc
  nodup := by
    rw [List.map_map]
    exact h.nodup

theorem Separate.terms_sum (h : Separate ts) :
    (Expr.sum (ts.map Term.toExpr)).terms = ts.map Term.toExpr :=
  Expr.terms_sum h.coeff_ne_zero

theorem Canonical.Operand.separate (h : Operand e) (hblocks : ¬ Blocks e) :
    ∃ ts, Separate ts ∧ e = .sum (ts.map Term.toExpr) := by
  cases h with
  | @term t ht =>
      by_cases hcoeff : t.coeff = 0
      · exact ⟨[], ⟨nofun, nofun, List.nodup_nil⟩, Term.toExpr_zero hcoeff⟩
      · exact ⟨[t], separate_singleton ht hcoeff, rfl⟩
  | @sum ts hts hunlike => exact ⟨ts, ⟨hts, hunlike.coeff_ne_zero, hunlike.nodup⟩, rfl⟩
  | blocks h => exact absurd h hblocks

theorem Separate.eq_of_forall₂ (h : Separate ts)
    (hterms : List.Forall₂ (fun s t => normalize (level options n) [s.toExpr] = .ok t) ts terms) :
    terms = ts := by
  have hall : ∀ t ∈ ts, FixedTerm t ∧ t.coeff ≠ 0 := fun t ht =>
    ⟨h.fixed t ht, h.coeff_ne_zero t ht⟩
  have heq := map_eq_of_forall₂ (f := id) (g := id) <|
    ((List.forall₂_and_left _ _).mpr ⟨hall, hterms⟩).imp
      fun s t hst => hst.1.1.eq_of_normalize hst.1.2 hst.2
  rwa [List.map_id, List.map_id] at heq

theorem addends_sum (hne : Expr.sum (ts.map Term.toExpr) ≠ .num 0) (h : Separate ts) :
    (Expr.sum (ts.map Term.toExpr)).addends = ts.map Term.toExpr := by
  rw [← Expr.terms_of_ne hne, h.terms_sum]

/-- The terms of a sum are found again. The number `0`, which has none, is found
as a term that adds nothing. -/
theorem Separate.likeCoeff_eq (h : Separate ts)
    (hterms : List.Forall₂ (fun a t => normalize (level options n) [a] = .ok t)
      (Expr.sum (ts.map Term.toExpr)).addends terms) (t : Term) :
    t.likeCoeff terms = t.likeCoeff ts := by
  by_cases hzero : Expr.sum (ts.map Term.toExpr) = .num 0
  · have hnil : ts = [] := by
      have hterms := h.terms_sum
      rw [hzero] at hterms
      exact List.map_eq_nil_iff.mp hterms.symm
    rw [hzero] at hterms
    cases hterms with
    | cons hu htail =>
        cases htail
        obtain rfl := Except.ok.inj hu
        simp [hnil, Term.likeCoeff, Term.mulInt]
  · rw [addends_sum hzero h, List.forall₂_map_left_iff] at hterms
    rw [h.eq_of_forall₂ hterms]

/-! ### Negation -/

/-- A term times an integer. -/
theorem normalize_num {c : Int} : normalize lv [.num c, e] = .ok u ↔
    ∃ t, normalize lv [e] = .ok t ∧ u = t.mulInt c := by
  rw [normalize_pair, normalize_singleton]
  refine (Term.ignoresFront_absorb e (Term.one.mulInt c) u).trans (exists_congr fun t => ?_)
  refine and_congr_right fun _ => ⟨fun h => ?_, ?_⟩
  · refine Term.ext ?_ (Powers.ext_exponent fun x => ?_) h.radical
    · rw [h.coeff, Term.mulInt, Term.mulInt, Term.one, one_mul, mul_comm]
    · exact (h.exponent x).trans (Nat.zero_add _)
  · rintro rfl
    refine ⟨?_, fun x => (Nat.zero_add _).symm, rfl⟩
    rw [Term.mulInt, Term.mulInt, Term.one, one_mul, mul_comm]

theorem distribute_num {c : Int} (hc : c ≠ 0) (h : Separate ts)
    (hne : Expr.sum (ts.map Term.toExpr) ≠ .num 0)
    (hok : distribute (level options n) (.num c) (.sum (ts.map Term.toExpr)) = .ok e) :
    e = .sum ((ts.map fun t => t.mulInt c).map Term.toExpr) := by
  obtain ⟨products, hproducts, hok⟩ := distribute_eq_ok hok
  have hpairs : addendPairs (.num c) (.sum (ts.map Term.toExpr)) =
      ts.map fun t => (.num c, t.toExpr) := by
    rw [addendPairs, addends_sum hne h]
    show List.map _ (ts.map Term.toExpr) ++ [] = _
    rw [List.append_nil, List.map_map]
    rfl
  rw [hpairs, List.forall₂_map_left_iff] at hproducts
  have hscaled := h.mulInt hc
  obtain rfl : products = ts.map fun t => t.mulInt c := by
    have hall : ∀ t ∈ ts, FixedTerm t ∧ t.coeff ≠ 0 := fun t ht =>
      ⟨h.fixed t ht, h.coeff_ne_zero t ht⟩
    have heq := map_eq_of_forall₂ (f := fun t => t.mulInt c) (g := id) <|
      ((List.forall₂_and_left _ _).mpr ⟨hall, hproducts⟩).imp fun t u h => by
        obtain ⟨⟨ht, hcoeff⟩, htu⟩ := h
        obtain ⟨m, hm, rfl⟩ := normalize_num.mp htu
        rw [ht.eq_of_normalize hcoeff hm]
        rfl
    rwa [List.map_id] at heq
  obtain ⟨terms, hterms, rfl⟩ := collect_eq_ok hok
  rw [Term.flatMap_addends_toExpr, List.forall₂_map_left_iff] at hterms
  rw [hscaled.eq_of_forall₂ hterms, Term.combine_of_nodup hscaled.nodup hscaled.coeff_ne_zero]

/-- A sum times an integer is the sum of its terms times the integer. -/
theorem multiply_num {c : Int} (hc : c ≠ 0) (h : Separate ts)
    (hok : multiply (level options n) (.num c) (.sum (ts.map Term.toExpr)) = .ok e) :
    e = .sum ((ts.map fun t => t.mulInt c).map Term.toExpr) := by
  cases ts with
  | nil =>
      have hnormalize : normalize (level options n) [.num c, .num 0] =
          .ok ((Term.one.mulInt c).mulInt 0) := rfl
      have heq := Except.ok.inj (hok.symm.trans (multiply_of_normalize hnormalize))
      exact heq.trans (Term.toExpr_zero (Int.mul_zero _))
  | cons t us =>
      have hne : Expr.sum ((t :: us).map Term.toExpr) ≠ .num 0 := fun hzero => by
        have hterms := h.terms_sum
        rw [hzero] at hterms
        cases hterms
      rcases multiply_eq_ok hok with ⟨u, hu, rfl⟩ | hok
      · obtain ⟨m, hm, rfl⟩ := normalize_num.mp hu
        cases us with
        | nil =>
            have ht : FixedTerm t := h.fixed t (List.mem_singleton_self t)
            rw [ht.eq_of_normalize (h.coeff_ne_zero t (List.mem_singleton_self t)) hm]
            rfl
        | cons t' us =>
            have hop : (Expr.sum ((t :: t' :: us).map Term.toExpr)).op? = some .add :=
              Expr.op?_foldl (List.cons_ne_nil _ _)
            rw [normalize_singleton, Term.absorb_of_isSum _ _ (Expr.isSum_of_op? hop)] at hm
            cases hm
      · exact distribute_num hc h hne hok

/-! ### Operands -/

/-- The sign that an operand has in a sum. -/
def Expr.Addend.sign (a : Expr.Addend) : Int :=
  if a.negated then -1 else 1

/-- An operand adds these terms to a sum: those of its simplified form, with the
sign of the operand. -/
def Adds (level : Level) (a : Expr.Addend) (ts : List Term) : Prop :=
  ∃ (e : Expr) (us : List Term), level.simplify a.value = .ok e ∧
    e.terms = us.map Term.toExpr ∧ ts = us.map fun t => t.mulInt a.sign

theorem adds_of_simplifyAddend (h : simplifyAddend (level options n) a = .ok e)
    (hterms : List.Forall₂ (fun b t => normalize (level options n) [b] = .ok t) e.addends terms) :
    ∃ ts, Adds (level options n) a ts ∧ ∀ t : Term, t.likeCoeff terms = t.likeCoeff ts := by
  obtain ⟨f, hf, h⟩ := bind_eq_ok.mp h
  have hoperand := ((reachesFixed_level options n).simplify hf).operand
  split at h
  · next hneg =>
      obtain ⟨us, hus, rfl⟩ :=
        hoperand.separate (not_blocks_of_multiply h (by simp))
      obtain rfl := multiply_num (by decide) hus h
      refine ⟨_, ⟨_, us, hf, hus.terms_sum, rfl⟩, ?_⟩
      rw [Expr.Addend.sign, if_pos hneg]
      exact (hus.mulInt (by decide)).likeCoeff_eq hterms
  · next hneg =>
      obtain rfl := pure_eq_ok.mp h
      have hblocks : ¬ Blocks f := fun hblocks => by
        rw [hblocks.addends] at hterms
        obtain ⟨t, -, ht⟩ := exists_of_forall₂ hterms.flip (List.mem_singleton_self f)
        exact hblocks.not_mem ht (List.mem_singleton_self f)
      obtain ⟨us, hus, rfl⟩ := hoperand.separate hblocks
      refine ⟨us, ⟨_, us, hf, hus.terms_sum, ?_⟩, hus.likeCoeff_eq hterms⟩
      rw [Expr.Addend.sign, if_neg hneg]
      simp [Term.mulInt]

/-- The terms that are added up are those that the operands add. -/
theorem exists_adds {as : List Expr.Addend}
    (h : List.Forall₂ (fun a e => simplifyAddend (level options n) a = .ok e) as es)
    (hterms : List.Forall₂ (fun b t => normalize (level options n) [b] = .ok t)
      (es.flatMap Expr.addends) terms) :
    ∃ operands, List.Forall₂ (Adds (level options n)) as operands ∧
      ∀ t : Term, t.likeCoeff terms = t.likeCoeff operands.flatten := by
  induction h generalizing terms with
  | nil =>
      cases hterms
      exact ⟨[], .nil, fun _ => rfl⟩
  | @cons a e as es ha _ ih =>
      rw [List.flatMap_cons] at hterms
      obtain ⟨ts, hts, hlike⟩ :=
        adds_of_simplifyAddend ha (List.forall₂_take_append _ _ _ hterms.flip).flip
      obtain ⟨operands, hoperands, hlikes⟩ := ih (List.forall₂_drop_append _ _ _ hterms.flip).flip
      refine ⟨ts :: operands, .cons hts hoperands, fun t => ?_⟩
      rw [List.flatten_cons, Term.likeCoeff_append, ← hlike, ← hlikes, ← Term.likeCoeff_append,
        List.take_append_drop]

/-! ## Sums -/

section Sums

variable (h : (level options (n + 1)).simplify e₁ = .ok e)
include h

theorem simplify_isSum_eq_ok (h₁ : e₁.isSum) : ∃ es,
    List.Forall₂ (fun a e => simplifyAddend (level options n) a = .ok e) e₁.signedAddends es ∧
      collect (level options n) es = .ok e := by
  have hstep : simplifyStep options (level options n) e₁ = .ok e := h
  rw [simplifyStep_of_isSum h₁, List.mapM_map] at hstep
  obtain ⟨es, hes, hok⟩ := bind_eq_ok.mp hstep
  exact ⟨es, mapM_eq_ok.mp hes, hok⟩

omit h in
theorem readable_operands (hnames : e₁.allVars Expr.isLetter)
    (hes : List.Forall₂ (fun a e => simplifyAddend (level options n) a = .ok e)
      e₁.signedAddends es) : ∀ f ∈ es, AddendsFixed options f ∧ f.allVars Expr.isLetter := by
  intro f hf
  obtain ⟨a, ha, haf⟩ := exists_of_forall₂ hes hf
  exact ⟨(fixed_simplifyAddend (reachesFixed_level options n) haf).addendsFixed,
    names_simplifyAddend (keepsNames_level options n)
      (Expr.allVars_signedAddends.mpr hnames a ha) haf⟩

theorem simplify_isSum_perm (h₁ : e₁.isSum) (h₂ : e₂.isSum) (hnames : e₁.allVars Expr.isLetter)
    (hperm : e₁.signedAddends.Perm e₂.signedAddends) :
    ∃ f, (level options (n + 1)).simplify e₂ = .ok f ∧ e.terms.Perm f.terms := by
  obtain ⟨es, hes, hok⟩ := simplify_isSum_eq_ok h h₁
  obtain ⟨fs, hfs, hfsperm⟩ := mapM_perm hperm.symm (mapM_eq_ok.mpr hes)
  obtain ⟨f, hf, hterms⟩ := collect_perm (readable_operands hnames hes) hfsperm hok
  refine ⟨f, ?_, hterms⟩
  show simplifyStep options (level options n) e₂ = .ok f
  rw [simplifyStep_of_isSum h₂, List.mapM_map]
  exact bind_eq_ok.mpr ⟨fs, hfs, hf⟩

theorem simplify_isSum_addsUp (h₁ : e₁.isSum) (hnames : e₁.allVars Expr.isLetter) :
    ∃ operands us, List.Forall₂ (Adds (level options n)) e₁.signedAddends operands ∧
      e.terms = us.map Term.toExpr ∧ Term.AddsUp operands.flatten us := by
  obtain ⟨es, hes, hok⟩ := simplify_isSum_eq_ok h h₁
  obtain ⟨terms, hterms, he⟩ := terms_collect hok
  obtain ⟨operands, hoperands, hlike⟩ := exists_adds hes hterms
  have hreadable := readable_collect (readable_operands hnames hes) hterms
  exact ⟨operands, Term.combine terms, hoperands, he,
    (Term.addsUp_combine (keysTell_of_readable hreadable)).congr hlike⟩

end Sums

/-- Sums with the same operands in any order simplify to the same terms in some
order, or both fail. The terms are those that the operands add, added up. -/
theorem simplify_sum_anyOrder (h₁ : e₁.isSum) (h₂ : e₂.isSum)
    (hnames : e₁.allVars Expr.isLetter) (hperm : e₁.signedAddends.Perm e₂.signedAddends) :
    SameUpToOrder (simplify options e₁) (simplify options e₂) ∧
      ∀ e, simplify options e₁ = .ok e → ∃ operands us,
        List.Forall₂ (Adds (level options (options.maxDepth - 1))) e₁.signedAddends operands ∧
        e.terms = us.map Term.toExpr ∧ Term.AddsUp operands.flatten us := by
  have hnames₂ : e₂.allVars Expr.isLetter := Expr.allVars_signedAddends.mp fun a ha =>
    Expr.allVars_signedAddends.mpr hnames a (hperm.mem_iff.mpr ha)
  rw [simplify, simplify]
  cases options.maxDepth with
  | zero => exact ⟨trivial, nofun⟩
  | succ n =>
      refine ⟨sameUpToOrder_of_ok (fun e he => ?_) fun f hf => ?_, fun e he => ?_⟩
      · exact simplify_isSum_perm he h₁ h₂ hnames hperm
      · exact simplify_isSum_perm hf h₂ h₁ hnames₂ hperm.symm
      · exact simplify_isSum_addsUp he h₁ hnames

/-- `((x + 1)(x - 1) - (√8 + x²)) + √2`. -/
def rootLast : Expr :=
  .bin .add
    (.bin .sub
      (.bin .mul (.bin .add (.var "x") (.num 1)) (.bin .sub (.var "x") (.num 1)))
      (.bin .add (.root (.num 8)) (.pow (.var "x") (.num 2))))
    (.root (.num 2))

/-- `(√2 + (x + 1)(x - 1)) - (√8 + x²)`. -/
def rootFirst : Expr :=
  .bin .sub
    (.bin .add (.root (.num 2))
      (.bin .mul (.bin .add (.var "x") (.num 1)) (.bin .sub (.var "x") (.num 1))))
    (.bin .add (.root (.num 8)) (.pow (.var "x") (.num 2)))

/-- They become `-1 + -1√2` and `-1√2 + -1`. The squares cancel, and of `2√2`
and `√2` the difference is left. -/
theorem simplify_sum_anyOrder_rootLast :
    rootLast.isSum ∧ rootFirst.isSum ∧ rootLast.allVars Expr.isLetter ∧
      rootLast.signedAddends.Perm rootFirst.signedAddends ∧
      simplify {} rootLast =
        .ok (.bin .add (.num (-1)) (.bin .mul (.num (-1)) (.root (.num 2)))) ∧
      simplify {} rootFirst =
        .ok (.bin .add (.bin .mul (.num (-1)) (.root (.num 2))) (.num (-1))) ∧
      SameUpToOrder (simplify {} rootLast) (simplify {} rootFirst) := by
  have h₁ : rootLast.isSum := rfl
  have h₂ : rootFirst.isSum := rfl
  have hnames : rootLast.allVars Expr.isLetter := by decide
  have hperm : rootLast.signedAddends.Perm rootFirst.signedAddends := by decide
  exact ⟨h₁, h₂, hnames, hperm, rfl, rfl, (simplify_sum_anyOrder h₁ h₂ hnames hperm).1⟩

end Surd
