import Surd.Proofs.Idempotent

/-!
# Simplified operands

Whatever is multiplied or added up has been simplified before. It is a written
term, a sum of unlike terms, or something that does not fit into a term, and
then every product that it is a factor of fails (`Operand`).

How often a term is found again depends on the levels, but what is found does
not: where a written term multiplies out at all, it multiplies back to itself.
-/

namespace Surd

variable {options : Options} {lv : Level} {e l r : Expr} {fs : List Expr} {t u : Term} {n m : Nat}

theorem normalize_singleton (lv : Level) (e : Expr) : normalize lv [e] = Term.one.absorb lv e :=
  bind_pure _

theorem normalize_pair (lv : Level) (l r : Expr) :
    normalize lv [l, r] = Term.one.absorb lv l >>= fun t => t.absorb lv r := by
  show (_ >>= fun t => Term.absorb lv t r >>= pure) = _
  simp only [bind_pure]

theorem multiply_of_normalize (h : normalize lv [l, r] = .ok t) :
    multiply lv l r = .ok t.toExpr := by
  rw [multiply]
  rw [h]

theorem multiply_of_sum (h : normalize lv [l, r] = .error .sum) :
    multiply lv l r = distribute lv l r := by
  rw [multiply]
  rw [h]

/-- Two numbers of levels never give different terms. -/
theorem eq_of_normalize_level (h : normalize (level options n) fs = .ok t)
    (h' : normalize (level options m) fs = .ok u) : t = u := by
  have hn := (agrees_normalize (agrees_level options (Nat.le_max_left n m)) fs).eq h nofun
  have hm := (agrees_normalize (agrees_level options (Nat.le_max_right n m)) fs).eq h' nofun
  exact Except.ok.inj (hn.symm.trans hm)

namespace Term

/-- A written term is absorbed factor by factor. A coefficient of `0` hides the
other factors. -/
theorem absorb_toExpr (lv : Level) (u : Term) (hcoeff : t.coeff ≠ 0) :
    u.absorb lv t.toExpr = t.toFactors.foldlM (absorb lv) u := by
  by_cases hone : t = .one
  · rw [hone, toExpr_one]
    show Except.ok (u.mulInt 1) = .ok u
    rw [mulInt, mul_one]
  · rw [absorb_eq_foldlM, factors_toExpr hcoeff hone]

theorem absorb_of_isSum (lv : Level) (t : Term) (h : e.isSum) : t.absorb lv e = .error .sum := by
  cases e with
  | bin op l r =>
      cases op with
      | add | sub => rfl
      | mul | div => cases h
  | num | var | pow | root => cases h

end Term

namespace Canonical

theorem FixedTerm.eq_of_normalize_toFactors (ht : FixedTerm t)
    (h : normalize (level options n) t.toFactors = .ok u) : u = t := by
  obtain ⟨m, hm⟩ : ∃ m, RestoresTerm (level options m) t := exists_restoresTerm_of_fixed ht
  exact eq_of_normalize_level h hm.normalize

theorem FixedTerm.eq_of_normalize (ht : FixedTerm t) (hcoeff : t.coeff ≠ 0)
    (h : normalize (level options n) [t.toExpr] = .ok u) : u = t := by
  obtain ⟨m, hm⟩ : ∃ m, RestoresTerm (level options m) t := exists_restoresTerm_of_fixed ht
  exact eq_of_normalize_level h (normalize_toExpr hm hcoeff)

/-- Every product that the expression is a factor of fails. -/
def Blocks (e : Expr) : Prop :=
  ∀ lv t, ∃ err, Term.absorb lv t e = .error (.failed err)

/-- What an operand can be. -/
inductive Operand : Expr → Prop where
  | term {t : Term} : FixedTerm t → Operand t.toExpr
  | sum {ts : List Term} : (∀ t ∈ ts, FixedTerm t) → Unlike ts → Operand (sumOf ts)
  | blocks {e : Expr} : Blocks e → Operand e

theorem operand_varPow {x : String} {k : Nat} (hk : 2 ≤ k) :
    Operand (.pow (.var x) (.num k)) := by
  by_cases hle : k ≤ maxExponent
  · have h : (Term.mk 1 (.ofVarPow x k (by omega) hle) none).toExpr = .pow (.var x) (.num k) := by
      rw [Term.toExpr_ofVarPow, Expr.varPow, if_neg (by omega)]
    exact h ▸ .term (fixedTerm_of_radical rfl)
  · refine .blocks fun lv t => ⟨.exponentTooLarge k, ?_⟩
    show ((if k ≤ maxExponent then t.mulVar x k else .error (.exponentTooLarge k)).mapError _) = _
    rw [if_neg hle]
    rfl

theorem operand_pow {b p : Expr} (h : IsPower b p) : Operand (.pow b p) := by
  cases hp : p.exponent? with
  | none =>
      refine .blocks fun lv t => ⟨.unsupported .symbolicExponent (.pow b p), ?_⟩
      simp only [Term.absorb, Term.mulPower, hp]
      rfl
  | some k =>
      obtain rfl := eq_num_of_exponent? hp
      cases b with
      | num n => exact h.elim
      | var x => exact operand_varPow h
      | bin | pow | root => exact .blocks fun lv t => ⟨.unsupported .compoundPower _, rfl⟩

theorem Fixed.operand (h : Fixed options e) : Operand e := by
  cases h with
  | term ht => exact .term ht
  | sum hts hunlike => exact .sum hts hunlike
  | quotient _ _ => exact .blocks fun lv t => ⟨.unsupported .division _, rfl⟩
  | power _ _ hpower _ => exact operand_pow hpower

/-! ## Products that have been found -/

theorem exists_absorb_of_mem (hok : normalize lv fs = .ok t) (he : e ∈ fs) :
    ∃ s s' : Term, s.absorb lv e = .ok s' := by
  obtain ⟨front, back, rfl⟩ := List.append_of_mem he
  obtain ⟨s, -, hs⟩ := bind_eq_ok.mp ((List.foldlM_append ..).symm.trans hok)
  obtain ⟨s', hs', -⟩ := bind_eq_ok.mp ((List.foldlM_cons ..).symm.trans hs)
  exact ⟨s, s', hs'⟩

theorem Blocks.not_mem (h : Blocks e) (hok : normalize lv fs = .ok t) : e ∉ fs := by
  intro hmem
  obtain ⟨s, s', hs⟩ := exists_absorb_of_mem hok hmem
  obtain ⟨err, herr⟩ := h lv s
  rw [hs] at herr
  cases herr

theorem Blocks.op?_ne_add (h : Blocks e) : e.op? ≠ some .add := by
  intro hop
  obtain ⟨err, herr⟩ := h ⟨fun _ => .error (.depthExceeded 0), fun _ => .error .sum⟩ .one
  rw [Term.absorb_of_isSum _ _ (Expr.isSum_of_op? hop)] at herr
  cases herr

theorem Blocks.addends (h : Blocks e) : e.addends = [e] :=
  Expr.operands_eq_singleton h.op?_ne_add

/-- No product of two expressions is found if one of them blocks. -/
theorem not_blocks_of_multiply {a : Expr} (h : multiply lv l r = .ok e) (ha : a ∈ [l, r]) :
    ¬ Blocks a := by
  intro hblocks
  rcases multiply_eq_ok h with ⟨t, ht, -⟩ | h
  · exact hblocks.not_mem ht ha
  · obtain ⟨products, hproducts, -⟩ := distribute_eq_ok h
    have hpair : ∃ p ∈ addendPairs l r, a ∈ [p.1, p.2] := by
      obtain ⟨b, hb⟩ := List.exists_mem_of_ne_nil _ (Expr.operands_ne_nil .add l)
      obtain ⟨c, hc⟩ := List.exists_mem_of_ne_nil _ (Expr.operands_ne_nil .add r)
      rcases List.mem_pair.mp ha with rfl | rfl
      · exact ⟨(a, c), mem_addendPairs.mpr ⟨by simp [hblocks.addends], hc⟩, by simp⟩
      · exact ⟨(b, a), mem_addendPairs.mpr ⟨hb, by simp [hblocks.addends]⟩, by simp⟩
    obtain ⟨p, hp, hap⟩ := hpair
    obtain ⟨t, -, ht⟩ := exists_of_forall₂ hproducts.flip hp
    exact hblocks.not_mem ht hap

/-- A product of operands that is a term has nothing but terms as factors. -/
theorem Operand.exists_term (h : Operand e) (hok : normalize lv fs = .ok u) (he : e ∈ fs) :
    ∃ t, FixedTerm t ∧ e = t.toExpr := by
  cases h with
  | @term t ht => exact ⟨t, ht, rfl⟩
  | sum _ hunlike =>
      obtain ⟨s, s', hs⟩ := exists_absorb_of_mem hok he
      rw [Term.absorb_of_isSum lv s hunlike.isSum_sumOf] at hs
      cases hs
  | blocks hblocks => exact absurd he (hblocks.not_mem hok)

end Canonical

end Surd
