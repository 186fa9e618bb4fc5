import Surd.Proofs.Canonical
import Surd.Proofs.Stable

/-!
# Simplifying twice

A fixed expression is found again when there are levels enough. The factors of
a written term multiply back to the term, its root is merged into the empty
root unchanged, and terms that are unlike stay apart. How many levels that
takes is not counted. An expression that is restored at one level is restored
at every later one, so a number of levels that suffices for each of some
expressions can be found for all of them.

Simplification is stable in its levels. A simplified expression therefore
either simplifies to itself, or the limit is reached.
-/

namespace Surd

variable {options : Options} {lv : Level} {e e' b p : Expr} {t : Term} {ts : List Term}
  {n m : Nat}

/-! ## Products of powers are rebuilt from their entries -/

namespace Powers

theorem raise_of_forall_lt {x : String} {k : Nat} {ps : List (String × Nat)}
    (h : ∀ p ∈ ps, p.1 < x) : raise x k ps = ps ++ [(x, k)] := by
  induction ps with
  | nil => rfl
  | cons q ps ih =>
      have hlt := h q List.mem_cons_self
      have hne : x ≠ q.1 := fun heq => String.lt_irrefl _ (heq ▸ hlt)
      rw [raise, if_neg hne, if_neg fun hgt => String.lt_irrefl _ (String.lt_trans hlt hgt),
        ih fun p hp => h p (List.mem_cons_of_mem q hp)]
      rfl

theorem exponentIn_of_forall_lt {x : String} {ps : List (String × Nat)}
    (h : ∀ p ∈ ps, p.1 < x) : exponentIn x ps = 0 := by
  refine exponentIn_of_not_mem fun hmem => ?_
  obtain ⟨p, hp, rfl⟩ := List.mem_map.mp hmem
  exact String.lt_irrefl _ (h p hp)

/-- The first entries of a product of powers are a product of powers. -/
theorem exists_entries_eq (p : Powers) {qs rs : List (String × Nat)}
    (h : p.entries = qs ++ rs) : ∃ q : Powers, q.entries = qs := by
  have hsub : qs.Sublist p.entries := h ▸ List.sublist_append_left qs rs
  exact ⟨⟨qs, p.sorted.sublist hsub, fun s hs => p.bounded s (hsub.subset hs)⟩, rfl⟩

theorem mulVar?_of_forall_lt {p q : Powers} {r : String × Nat}
    (hentries : p.entries = q.entries ++ [r]) : q.mulVar? r.1 r.2 = some p := by
  have hmem : r ∈ p.entries := by simp [hentries]
  have hlt : ∀ s ∈ q.entries, s.1 < r.1 := fun s hs =>
    (List.pairwise_append.mp (hentries ▸ p.sorted)).2.2 s hs r (List.mem_singleton_self r)
  obtain ⟨hpos, hle⟩ := p.bounded r hmem
  have hexp : q.exponent r.1 = 0 := exponentIn_of_forall_lt hlt
  rw [mulVar?]
  rw [dif_neg hpos.ne', dif_pos (by rw [hexp]; omega)]
  exact congrArg some (Powers.ext ((raise_of_forall_lt hlt).trans hentries.symm))

end Powers

/-! ## Terms multiply back -/

namespace Term

theorem absorb_varPow (lv : Level) (t : Term) {x : String} {k : Nat} (hk : k ≤ maxExponent) :
    t.absorb lv (Expr.varPow x k) = (t.mulVar x k).mapError .failed := by
  rw [Expr.varPow]
  split
  · next hone => rw [hone]; rfl
  · exact congrArg (Except.mapError Obstacle.failed) (if_pos hk)

/-- The factors of a term in front of its root. -/
def front (t : Term) : List Expr :=
  (if t.coeff = 1 then [] else [.num t.coeff]) ++ t.vars.entries.map fun p => Expr.varPow p.1 p.2

theorem toFactors_eq (t : Term) : t.toFactors = t.front ++ (t.radical.map Expr.root).toList :=
  rfl

theorem foldlM_absorb_vars (lv : Level) (c : Int) (p : Powers) (r : Option Expr) :
    (p.entries.map fun q => Expr.varPow q.1 q.2).foldlM (absorb lv) ⟨c, .one, r⟩ =
      .ok ⟨c, p, r⟩ := by
  -- the powers `q` that were put back so far are the first ones of `p`
  suffices h : ∀ (qs : List (String × Nat)) (q : Powers), p.entries = q.entries ++ qs →
      (qs.map fun q => Expr.varPow q.1 q.2).foldlM (absorb lv) ⟨c, q, r⟩ =
        .ok ⟨c, p, r⟩ from h p.entries .one rfl
  intro qs
  induction qs with
  | nil =>
      intro q hentries
      obtain rfl : p = q := Powers.ext (hentries.trans (List.append_nil _))
      rfl
  | cons s qs ih =>
      intro q hentries
      have hs := p.bounded s (by simp [hentries])
      have happend : p.entries = (q.entries ++ [s]) ++ qs := by simp [hentries]
      obtain ⟨next, hnext⟩ := p.exists_entries_eq happend
      rw [List.map_cons, List.foldlM_cons, absorb_varPow lv _ hs.2, mulVar,
        Powers.mulVar?_of_forall_lt hnext]
      exact ih next (hnext ▸ happend)

/-- What stands in front of a root is put back, whatever root there is. -/
theorem foldlM_absorb_front (lv : Level) (t : Term) (r : Option Expr) :
    t.front.foldlM (absorb lv) ⟨1, .one, r⟩ = .ok ⟨t.coeff, t.vars, r⟩ := by
  have hcoeff : (if t.coeff = 1 then [] else [Expr.num t.coeff]).foldlM (absorb lv)
      ⟨1, .one, r⟩ = .ok ⟨t.coeff, .one, r⟩ := by
    split
    · next hone => rw [hone]; rfl
    · show Except.ok (Term.mulInt ⟨1, .one, r⟩ t.coeff) = _
      rw [mulInt, one_mul]
  rw [front, List.foldlM_append, hcoeff]
  exact foldlM_absorb_vars lv t.coeff t.vars r

/-- A term multiplies back from its factors if its root can be put back. -/
theorem normalize_toFactors {t : Term}
    (h : ∀ e, t.radical = some e →
      Term.mulRoot lv ⟨t.coeff, t.vars, none⟩ e = .ok ⟨t.coeff, t.vars, some e⟩) :
    normalize lv t.toFactors = .ok t := by
  have hfront : t.front.foldlM (absorb lv) .one = .ok ⟨t.coeff, t.vars, none⟩ :=
    foldlM_absorb_front lv t none
  rw [normalize, toFactors_eq, List.foldlM_append, hfront]
  show List.foldlM _ _ _ = _
  obtain ⟨c, vars, radical⟩ := t
  cases radical with
  | none => rfl
  | some e =>
      show ((Term.mulRoot lv _ e).mapError Obstacle.failed >>= pure) = _
      rw [h e rfl]
      rfl

end Term

namespace Canonical

/-- The level finds an expression again, also as the root of a term. -/
structure Restores (lv : Level) (e : Expr) : Prop where
  simplify : lv.simplify e = .ok e
  mulRoot : ∀ t : Term, t.radical = none → t.mulRoot lv e = .ok { t with radical := some e }

/-- The level finds a term again, all at once and factor by factor. -/
structure RestoresTerm (lv : Level) (t : Term) : Prop where
  simplify : ∀ f ∈ t.toFactors, lv.simplify f = .ok f
  normalize : normalize lv t.toFactors = .ok t

theorem Restores.mono (hle : n ≤ m) (h : Restores (level options n) e) :
    Restores (level options m) e where
  simplify := simplify_level_mono hle h.simplify
  mulRoot := fun t ht => (agrees_mulRoot (agrees_level options hle) t e).eq (h.mulRoot t ht) nofun

theorem RestoresTerm.mono (hle : n ≤ m) (h : RestoresTerm (level options n) t) :
    RestoresTerm (level options m) t where
  simplify := fun f hf => simplify_level_mono hle (h.simplify f hf)
  normalize := (agrees_normalize (agrees_level options hle) _).eq h.normalize nofun

theorem exists_forall_of_mono {α : Type _} {P : Nat → α → Prop}
    (hmono : ∀ {n m a}, n ≤ m → P n a → P m a) {as : List α} (h : ∀ a ∈ as, ∃ n, P n a) :
    ∃ n, ∀ a ∈ as, P n a := by
  induction as with
  | nil => exact ⟨0, List.forall_mem_nil _⟩
  | cons a as ih =>
      obtain ⟨n, hn⟩ := h a List.mem_cons_self
      obtain ⟨m, hm⟩ := ih fun a' ha' => h a' (List.mem_cons_of_mem a ha')
      refine ⟨max n m, fun a' ha' => ?_⟩
      rcases List.mem_cons.mp ha' with rfl | ha'
      · exact hmono (Nat.le_max_left n m) hn
      · exact hmono (Nat.le_max_right n m) (hm a' ha')

/-! ## Under a root -/

theorem extract_of_split {radicand : Expr} {fs : List Expr} {s : Term}
    (hnormalize : lv.normalize fs = .ok s)
    (hsplit : Integer.squareSplit? s.coeff = some ⟨1, s.coeff⟩)
    (hvars : ∀ q ∈ s.vars.entries, q.2 = 1) :
    Term.extract lv radicand t fs = .ok (t, s.toFactors) := by
  have hleft : s.leftovers s.coeff = s.toFactors := by
    rw [Term.leftovers_eq, Term.leftover, Powers.odd_eq_self hvars]
  have hint : t.mulInt (1 : Nat) = t := by
    rw [Term.mulInt, Nat.cast_one, mul_one]
  rw [Term.extract]
  rw [mapError_eq_ok.mpr hnormalize]
  show (Integer.squareSplit s.coeff >>= _) = _
  rw [Integer.squareSplit_eq_ok.mpr hsplit]
  show ((t.mulInt (1 : Nat)).mulHalves s.vars >>= _) = _
  rw [hint, Term.mulHalves_of_one hvars, ← hleft]
  rfl

theorem mulRoot_toExpr {s : Term} (hnormalize : lv.normalize s.toFactors = .ok s)
    (hsplit : Integer.squareSplit? s.coeff = some ⟨1, s.coeff⟩)
    (hvars : ∀ q ∈ s.vars.entries, q.2 = 1) (hone : s ≠ .one) (ht : t.radical = none) :
    t.mulRoot lv s.toExpr = .ok { t with radical := some s.toExpr } := by
  have hcoeff : s.coeff ≠ 0 := (squareFree_of_split hsplit).ne_zero
  have hmerged : t.merged s.toExpr = s.toFactors := by
    rw [Term.merged_of_radical ht, Term.factors_toExpr hcoeff hone]
  have hsum : ∀ f ∈ t.merged s.toExpr, f.isSum = false := fun f hf =>
    Term.isSum_of_mem_toFactors (hmerged ▸ hf)
  rw [Term.mulRoot_eq_extract hsum, hmerged, extract_of_split hnormalize hsplit hvars,
    ← Term.chain?_toFactors hcoeff hone]
  rfl

theorem mulRoot_of_isSum (hnormalize : lv.normalize [] = .ok .one) (he : e.isSum)
    (ht : t.radical = none) : t.mulRoot lv e = .ok { t with radical := some e } := by
  have hmerged : t.merged e = [e] := by
    rw [Term.merged_of_radical ht, Expr.factors_of_isSum he]
  have hsums : [e].filter Expr.isSum = [e] := by simp [he]
  have hrest : [e].filter (not ∘ Expr.isSum) = [] := by simp [he]
  rw [Term.mulRoot, ← Term.merged]
  rw [hmerged, List.partition_eq_filter_filter, hsums, hrest]
  show (Term.extract lv _ _ [] >>= _) = _
  rw [extract_of_split hnormalize Integer.squareSplit?_one (List.forall_mem_nil _)]
  rfl

/-! ## As an expression -/

theorem FixedRadicand.exists_term (h : FixedRadicand e) (hop : e.op? = none) :
    ∃ t : Term, Integer.squareSplit? t.coeff = some ⟨1, t.coeff⟩ ∧
      (∀ q ∈ t.vars.entries, q.2 = 1) ∧ e ∈ t.toFactors := by
  cases h with
  | @term t _ hsplit hvars hone =>
      refine ⟨t, hsplit, hvars, ?_⟩
      rw [← Term.factors_toExpr (squareFree_of_split hsplit).ne_zero hone,
        Expr.factors_of_op?_eq_none hop]
      exact List.mem_singleton_self _
  | sum _ hunlike =>
      rw [hunlike.op?_sumOf] at hop
      cases hop

theorem FixedRadicand.num {k : Int} (h : FixedRadicand (.num k)) :
    k ≠ 1 ∧ Integer.squareSplit? k = some ⟨1, k⟩ := by
  obtain ⟨t, hsplit, -, hmem⟩ := h.exists_term rfl
  rcases Term.mem_toFactors.mp hmem with ⟨hne, hk⟩ | ⟨q, -, hq⟩ | ⟨e, -, he⟩
  · obtain rfl := Expr.num.inj hk
    exact ⟨hne, hsplit⟩
  · rw [Expr.varPow] at hq
    split at hq <;> cases hq
  · cases he

theorem not_fixedRadicand_pow : ¬ FixedRadicand (.pow b p) := by
  intro h
  obtain ⟨t, -, hvars, hmem⟩ := h.exists_term rfl
  rcases Term.mem_toFactors.mp hmem with ⟨-, hk⟩ | ⟨q, hq, heq⟩ | ⟨e, -, he⟩
  · cases hk
  · rw [hvars q hq] at heq
    cases heq
  · cases he

theorem multiply_one_root (h : Restores lv e) :
    multiply lv (.num 1) (.root e) = .ok (.root e) := by
  have hnormalize : normalize lv [.num 1, .root e] = .ok ⟨1, .one, some e⟩ := by
    show ((Term.one.mulInt 1).mulRoot lv e |>.mapError Obstacle.failed) >>= _ = _
    rw [h.mulRoot (Term.one.mulInt 1) rfl]
    rfl
  rw [multiply]
  rw [hnormalize]
  rfl

theorem squareRoot_of_restores (he : FixedRadicand e) (h : Restores lv e) :
    squareRoot lv e = .ok (.root e) := by
  cases e with
  | num k =>
      obtain ⟨hone, hsplit⟩ := he.num
      show (Integer.squareSplit k >>= _) = _
      rw [Integer.squareSplit_eq_ok.mpr hsplit]
      exact if_neg hone
  | var x => rfl
  | pow b p => exact absurd he not_fixedRadicand_pow
  | root r => exact multiply_one_root h
  | bin op l r => exact multiply_one_root h

theorem simplify_varPow {x : String} {k : Nat} (hk : 0 < k) :
    (level options (n + 2)).simplify (Expr.varPow x k) = .ok (Expr.varPow x k) := by
  rw [Expr.varPow]
  split
  · rfl
  · obtain ⟨k, rfl⟩ : ∃ j, k = j + 2 := ⟨k - 2, by omega⟩
    rfl

theorem restoresTerm_of_radical (ht : FixedTerm t)
    (h : ∀ e, t.radical = some e → Restores (level options n) e) :
    RestoresTerm (level options (n + 2)) t where
  simplify := by
    intro f hf
    rcases Term.mem_toFactors.mp hf with ⟨-, rfl⟩ | ⟨q, hq, rfl⟩ | ⟨e, he, rfl⟩
    · rfl
    · exact simplify_varPow (t.vars.bounded q hq).1
    · have hnext := (h e he).mono (Nat.le_succ n)
      show (Level.simplify _ e >>= _) = _
      rw [hnext.simplify]
      exact squareRoot_of_restores (ht e he) hnext
  normalize := Term.normalize_toFactors fun e he =>
    ((h e he).mono (Nat.le_add_right n 2)).mulRoot _ rfl

/-! ## Terms and sums -/

theorem multiplyAll_toFactors (h : RestoresTerm lv t) :
    multiplyAll lv t.toFactors = .ok t.toExpr := by
  simp only [multiplyAll]
  rw [h.normalize]

theorem simplify_toExpr (h : RestoresTerm (level options n) t) :
    (level options (n + 1)).simplify t.toExpr = .ok t.toExpr := by
  by_cases hcoeff : t.coeff = 0
  · rw [Term.toExpr_zero hcoeff]
    rfl
  by_cases hone : t = .one
  · rw [hone, Term.toExpr_one]
    rfl
  have hfactors := Term.factors_toExpr hcoeff hone
  rcases Term.op?_toExpr (t := t) with hop | hop
  · have hmem : t.toExpr ∈ t.toFactors := by
      rw [← hfactors, Expr.factors_of_op?_eq_none hop]
      exact List.mem_singleton_self _
    exact simplify_level_mono (Nat.le_succ n) (h.simplify _ hmem)
  · have hall : t.toFactors.mapM (level options n).simplify = .ok t.toFactors :=
      mapM_eq_ok.mpr (List.forall₂_same.mpr h.simplify)
    have hproduct := multiplyAll_toFactors h
    rw [← hfactors] at hall hproduct
    cases heq : t.toExpr with
    | bin op l r =>
        rw [heq] at hop hall hproduct
        obtain rfl : op = .mul := Option.some.inj hop
        show (List.mapM _ (Expr.bin .mul l r).factors >>= _) = _
        rw [hall]
        exact hproduct
    | num | var | pow | root =>
        rw [heq] at hop
        cases hop

theorem normalize_toExpr (h : RestoresTerm lv t) (hcoeff : t.coeff ≠ 0) :
    normalize lv [t.toExpr] = .ok t := by
  by_cases hone : t = .one
  · rw [hone, Term.toExpr_one]
    rfl
  · rw [normalize_eq_flatMap, List.flatMap_singleton, Term.factors_toExpr hcoeff hone]
    exact h.normalize

/-- Unlike terms are collected into the sum they came from. -/
theorem collect_terms (h : ∀ t ∈ ts, RestoresTerm lv t) (hunlike : Unlike ts) :
    collect lv (ts.map Term.toExpr) = .ok (sumOf ts) := by
  have hterms : (ts.map Term.toExpr).mapM (fun a =>
      (normalize lv [a]).mapError (Obstacle.toError a)) = .ok ts := by
    rw [mapM_eq_ok, List.forall₂_map_left_iff, List.forall₂_same]
    exact fun t ht => mapError_eq_ok.mpr (normalize_toExpr (h t ht) (hunlike.coeff_ne_zero t ht))
  rw [collect]
  rw [Term.flatMap_addends_toExpr, hterms]
  show Except.ok (Expr.sum ((Term.combine ts).map Term.toExpr)) = _
  rw [Term.combine_of_nodup hunlike.nodup hunlike.coeff_ne_zero]
  rfl

theorem simplify_sumOf (h : ∀ t ∈ ts, RestoresTerm (level options n) t) (hunlike : Unlike ts) :
    (level options (n + 2)).simplify (sumOf ts) = .ok (sumOf ts) := by
  have hall : (sumOf ts).signedAddends.mapM (simplifyAddend (level options (n + 1))) =
      .ok (ts.map Term.toExpr) := by
    rw [hunlike.signedAddends_sumOf, mapM_eq_ok, List.forall₂_map_left_iff,
      List.forall₂_map_right_iff, List.forall₂_same]
    intro t ht
    show (Level.simplify _ t.toExpr >>= _) = _
    rw [simplify_toExpr (h t ht)]
    rfl
  have hcollect := collect_terms (fun t ht => (h t ht).mono (Nat.le_succ n)) hunlike
  have hop := hunlike.op?_sumOf
  cases heq : sumOf ts with
  | bin op l r =>
      rw [heq] at hall hcollect hop
      obtain rfl : op = .add := Option.some.inj hop
      show (List.mapM _ (Expr.bin .add l r).signedAddends >>= _) = _
      rw [hall]
      exact hcollect
  | num | var | pow | root =>
      rw [heq] at hop
      cases hop

/-! ## Every fixed expression -/

theorem exists_restoresTerm (ht : FixedTerm t)
    (h : ∀ e, t.radical = some e → ∃ n, Restores (level options n) e) :
    ∃ n, RestoresTerm (level options n) t := by
  cases hradical : t.radical with
  | none =>
      refine ⟨2, restoresTerm_of_radical (n := 0) ht fun e he => ?_⟩
      rw [hradical] at he
      cases he
  | some r =>
      obtain ⟨n, hn⟩ := h r hradical
      refine ⟨n + 2, restoresTerm_of_radical ht fun e he => ?_⟩
      rw [hradical] at he
      exact Option.some.inj he ▸ hn

theorem exists_restores (h : FixedRadicand e) : ∃ n, Restores (level options n) e := by
  induction h with
  | @term t hradical hsplit hvars hone ih =>
      obtain ⟨n, hn⟩ := exists_restoresTerm hradical ih
      exact ⟨n + 1, simplify_toExpr hn, fun t ht =>
        mulRoot_toExpr hn.normalize hsplit hvars hone ht⟩
  | @sum ts hradical hunlike ih =>
      obtain ⟨n, hn⟩ := exists_forall_of_mono (P := fun n t => RestoresTerm (level options n) t)
        RestoresTerm.mono fun t ht => exists_restoresTerm (hradical t ht) (ih t ht)
      exact ⟨n + 2, simplify_sumOf hn hunlike, fun t ht =>
        mulRoot_of_isSum rfl hunlike.isSum_sumOf ht⟩

theorem exists_restoresTerm_of_fixed (h : FixedTerm t) :
    ∃ n, RestoresTerm (level options n) t :=
  exists_restoresTerm h fun e he => exists_restores (h e he)

theorem power_eq_pow (hpower : IsPower b p)
    (hkept : ∀ k : Nat, p = .num k → b.isProper → k ≤ options.maxExpansion →
      Unmultiplied lv b k) : power options lv b p = .ok (.pow b p) := by
  simp only [IsPower] at hpower
  cases hk : p.exponent? with
  | none =>
      rw [power]
      rw [hk]
  | some k =>
      rw [hk] at hpower
      obtain rfl := eq_num_of_exponent? hk
      cases b with
      | num n => exact hpower.elim
      | var x =>
          obtain ⟨j, rfl⟩ : ∃ j, k = j + 2 := ⟨k - 2, by have : 2 ≤ k := hpower; omega⟩
          rfl
      | pow | root | bin =>
          obtain ⟨j, rfl⟩ : ∃ j, k = j + 2 := ⟨k - 2, by have : 2 ≤ k := hpower; omega⟩
          show (if j + 2 ≤ options.maxExpansion then expand lv _ (j + 2) else _) = _
          split
          · next hle =>
              obtain ⟨op, x, hx⟩ := hkept (j + 2) rfl rfl hle
              rw [expand]
              rw [hx]
          · rfl

/-- A fixed expression simplifies to itself, given enough levels. -/
theorem exists_simplify_eq (h : Fixed options e) : ∃ n, (level options n).simplify e = .ok e := by
  induction h with
  | term ht =>
      obtain ⟨n, hn⟩ := exists_restoresTerm_of_fixed ht
      exact ⟨n + 1, simplify_toExpr hn⟩
  | sum hts hunlike =>
      obtain ⟨n, hn⟩ := exists_forall_of_mono (P := fun n t => RestoresTerm (level options n) t)
        RestoresTerm.mono fun t ht => exists_restoresTerm_of_fixed (hts t ht)
      exact ⟨n + 2, simplify_sumOf hn hunlike⟩
  | @quotient l r _ _ ihl ihr =>
      obtain ⟨n, hn⟩ := ihl
      obtain ⟨m, hm⟩ := ihr
      refine ⟨max n m + 1, ?_⟩
      show (Level.simplify _ l >>= _) = _
      rw [simplify_level_mono (Nat.le_max_left n m) hn]
      show (Level.simplify _ r >>= _) = _
      rw [simplify_level_mono (Nat.le_max_right n m) hm]
      rfl
  | @power b p _ _ hpower hkept ihb ihp =>
      obtain ⟨n, hn⟩ := ihb
      obtain ⟨m, hm⟩ := ihp
      obtain ⟨j, hj⟩ := hkept
      -- the power was kept at level `j`, so it is tried again above that level
      refine ⟨max (max n m) j + 1, ?_⟩
      show (Level.simplify _ b >>= _) = _
      rw [simplify_level_mono (by omega) hn]
      show (Level.simplify _ p >>= _) = _
      rw [simplify_level_mono (by omega) hm]
      exact power_eq_pow hpower fun k hk hb hle =>
        unmultiplied_level_mono (Nat.le_max_right _ j) (hj k hk hb hle)

/-- Simplifying a result again changes nothing, unless the limit is reached. -/
theorem simplify_idempotent (h : simplify options e = .ok e')
    (hdepth : ∀ limit, simplify options e' ≠ .error (.depthExceeded limit)) :
    simplify options e' = .ok e' := by
  obtain ⟨n, hn⟩ := exists_simplify_eq (fixed_simplify h)
  have hmax := simplify_level_mono (Nat.le_max_left n options.maxDepth) hn
  rcases (agrees_level options (Nat.le_max_right n options.maxDepth)).simplify e' with
    heq | ⟨err, herr, hfail⟩
  · exact heq.trans hmax
  · cases err with
    | depthExceeded limit => exact absurd hfail (hdepth limit)
    | unsupported | exponentTooLarge | radicandTooLarge => exact herr.elim

/-- `((√8 + √2) / a) ^ 2` becomes `(3√2 / a) ^ 2`, a power that is tried and
kept again. -/
theorem simplify_idempotent_kept :
    simplify {} (.pow (.bin .div (.bin .add (.root (.num 8)) (.root (.num 2))) (.var "a"))
          (.num 2)) =
        .ok (.pow (.bin .div (.product [.num 3, .root (.num 2)]) (.var "a")) (.num 2)) ∧
      (∀ limit, simplify {} (.pow (.bin .div (.product [.num 3, .root (.num 2)]) (.var "a"))
          (.num 2)) ≠ .error (.depthExceeded limit)) ∧
      simplify {} (.pow (.bin .div (.product [.num 3, .root (.num 2)]) (.var "a")) (.num 2)) =
        .ok (.pow (.bin .div (.product [.num 3, .root (.num 2)]) (.var "a")) (.num 2)) := by
  have h : simplify {} (.pow (.bin .div (.bin .add (.root (.num 8)) (.root (.num 2)))
      (.var "a")) (.num 2)) =
        .ok (.pow (.bin .div (.product [.num 3, .root (.num 2)]) (.var "a")) (.num 2)) := by
    rfl
  have hdepth : ∀ limit, simplify {} (.pow (.bin .div (.product [.num 3, .root (.num 2)])
      (.var "a")) (.num 2)) ≠ .error (.depthExceeded limit) := by
    intro limit hlimit
    cases hlimit
  exact ⟨h, hdepth, simplify_idempotent h hdepth⟩

end Canonical

end Surd
