import Surd.Proofs.Fixed

/-!
# Every result is canonical

The invariant is carried through the operations in the order in which they
call each other. A term keeps a fixed radicand under every factor whose roots
are fixed; the work is all in `mulRoot`, where the radicand is put together
anew from what the lower level has normalized or simplified. Sums of terms are
fixed because combining leaves no two of them alike, and every other operation
only passes results on.

As elsewhere, what is asked for one level deeper is assumed to be fixed
already (`ReachesFixed`), and the levels follow by induction.

A canonical expression has no sum among its factors unless it is one. This is
why `mulRoot` does not have to start over on what the sums under a root cancel
down to (`mulRoot_eq_startOver`).
-/

namespace Surd.Canonical

variable {options : Options} {lv : Level} {e e' l r : Expr} {es fs : List Expr} {t t' : Term}

/-- What is asked for at a level is fixed when it comes back. -/
structure ReachesFixed (options : Options) (lv : Level) : Prop where
  isLevel : ∃ n, lv = level options n
  simplify : ∀ {e e'}, lv.simplify e = .ok e' → Fixed options e'
  normalize : ∀ {fs t}, lv.normalize fs = .ok t → (∀ f ∈ fs, RootsFixed options f) → FixedTerm t

/-! ## Terms that are written down -/

theorem fixedTerm_ofSplit {n : Int} {s : Integer.SquareSplit}
    (h : Integer.squareSplit? n = some s) : FixedTerm (Term.ofSplit s) := by
  intro e he
  obtain ⟨hone, rfl⟩ := Term.eq_of_radical_ofSplit he
  have hne : s.inside ≠ 0 := (Integer.squareSplit?_spec h).2.ne_zero
  have hnum : (Term.mk s.inside .one none).toExpr = .num s.inside := by
    simp [Term.toExpr, Term.toFactors, Powers.one, Expr.product, Expr.chain?, hne, hone]
  rw [← hnum]
  refine .term (fixedTerm_of_radical rfl) (Integer.squareSplit?_inside h)
    (List.forall_mem_nil _) ?_
  intro heq
  exact hone (congrArg Term.coeff heq)

theorem fixedRadicand_var (x : String) : FixedRadicand (.var x) := by
  show FixedRadicand (Term.mk 1 (.var x) none).toExpr
  refine .term (fixedTerm_of_radical rfl) Integer.squareSplit?_one ?_ ?_
  · intro p hp
    rw [List.mem_singleton.mp hp]
  · intro heq
    cases heq

theorem fixed_var (x : String) : Fixed options (.var x) :=
  (fixedRadicand_var x).fixed

theorem Fixed.rootsFixed (h : Fixed options e) : RootsFixed options e :=
  h.addendsFixed.rootsFixed

theorem fixed_sum_combine {ts : List Term} (h : ∀ t ∈ ts, FixedTerm t) :
    Fixed options (.sum ((Term.combine ts).map Term.toExpr)) := by
  have hterms : ∀ t ∈ Term.combine ts, FixedTerm t := by
    intro t ht
    obtain ⟨s, hs, halike⟩ := Term.exists_alike_of_mem_combine ht
    exact fun e he => h s hs e (halike.radical ▸ he)
  have hcoeff : ∀ t ∈ Term.combine ts, t.coeff ≠ 0 := fun t ht =>
    Term.coeff_ne_zero_of_mem_combine ht
  have hnodup := Term.nodup_key_combine ts
  revert hterms hcoeff hnodup
  generalize Term.combine ts = us
  intro hterms hcoeff hnodup
  match us with
  | [] => exact fixed_num 0
  | [t] => exact .term (hterms t (List.mem_singleton_self t))
  | s :: t :: us => exact .sum hterms ⟨Nat.le_add_left 2 us.length, hcoeff, hnodup⟩

/-! ## One step -/

section Step

variable (hlevel : ReachesFixed options lv)
include hlevel

/-- What is left under a root when squares have moved out of a product is a
radicand, unless nothing is left. -/
theorem fixedRadicand_extract {radicand : Expr} {left : List Expr}
    (hfs : ∀ f ∈ fs, RootsFixed options f)
    (hok : Term.extract lv radicand t fs = .ok (t', left))
    (he : Expr.chain? .mul left = some e) : FixedRadicand e := by
  obtain ⟨inner, split, hinner, hsplit, -, rfl⟩ := Term.extract_eq_ok hok
  have hinside := Integer.squareSplit?_inside hsplit
  have hne : split.inside ≠ 0 := (squareFree_of_split hinside).ne_zero
  obtain ⟨hone, rfl⟩ := Term.chain?_leftovers hne he
  have hinner := hlevel.normalize hinner hfs
  exact .term (fun r hr => hinner r hr) hinside (fun p hp => Powers.snd_of_mem_odd hp) hone

omit hlevel in
theorem exists_fixed_of_mem_merged (ht : FixedTerm t) (he : Fixed options e) {f : Expr}
    (hf : f ∈ t.merged e) : ∃ r, Fixed options r ∧ f ∈ r.factors := by
  rcases Term.mem_merged.mp hf with ⟨r, hr, hf⟩ | hf
  · exact ⟨r, (ht r hr).fixed, hf⟩
  · exact ⟨e, he, hf⟩

theorem fixedTerm_mulRoot (ht : FixedTerm t) (he : Fixed options e)
    (hok : t.mulRoot lv e = .ok t') : FixedTerm t' := by
  obtain ⟨t₁, left, hex, hcases⟩ := Term.mulRoot_eq_ok hok
  have hrest : ∀ f ∈ (t.merged e).filter fun f => !f.isSum, RootsFixed options f := by
    intro f hf
    obtain ⟨r, hr, hfr⟩ := exists_fixed_of_mem_merged ht he (List.mem_filter.mp hf).1
    exact rootsFixed_factor hr.rootsFixed hfr
  rcases hcases with ⟨-, rfl⟩ | ⟨s, hs, -, rfl⟩ | ⟨canonical, hcan, hcases⟩
  · exact fun r hr => fixedRadicand_extract hlevel hrest hex hr
  · intro r hr
    obtain rfl := Option.some.inj hr
    have hmem : s ∈ (t.merged e).filter Expr.isSum := hs ▸ List.mem_singleton_self s
    obtain ⟨hmem, hsum⟩ := List.mem_filter.mp hmem
    obtain ⟨r, hr, hsr⟩ := exists_fixed_of_mem_merged ht he hmem
    exact hr.fixedRadicand_of_isSum hsr hsum
  · have hcanonical := hlevel.simplify hcan
    rcases hcases with ⟨hsum, rfl⟩ | ⟨t₂, left₂, hex₂, rfl⟩
    · intro r hr
      obtain rfl := Option.some.inj hr
      refine hcanonical.fixedRadicand_of_isSum ?_ hsum
      rw [Expr.factors_of_isSum hsum]
      exact List.mem_singleton_self _
    · exact fun r hr => fixedRadicand_extract hlevel
        (fun f hf => rootsFixed_factor hcanonical.rootsFixed hf) hex₂ hr

theorem fixedTerm_absorb (ht : FixedTerm t) (he : RootsFixed options e)
    (hok : t.absorb lv e = .ok t') : FixedTerm t' :=
  Term.absorb_induction (P := fun radical => ∀ r, radical = some r → FixedRadicand r) hok ht
    fun r hr s _ hs hs' => fixedTerm_mulRoot hlevel (t := s) hs (he r hr) hs'

theorem fixedTerm_normalize (hfs : ∀ f ∈ fs, RootsFixed options f)
    (hok : normalize lv fs = .ok t) : FixedTerm t := by
  refine foldlM_induction hok (fixedTerm_of_radical rfl) fun f hf s s' hs hs' => ?_
  exact fixedTerm_absorb hlevel hs (hfs f hf) hs'

theorem fixed_collect (hes : ∀ f ∈ es, AddendsFixed options f) (hok : collect lv es = .ok e) :
    Fixed options e := by
  obtain ⟨terms, hterms, rfl⟩ := collect_eq_ok hok
  refine fixed_sum_combine fun t ht => ?_
  obtain ⟨a, ha, hat⟩ := exists_of_forall₂ hterms ht
  obtain ⟨f, hf, haf⟩ := List.mem_flatMap.mp ha
  refine fixedTerm_normalize hlevel (fun g hg => ?_) hat
  exact List.mem_singleton.mp hg ▸ hes f hf a haf

theorem fixed_multiply (hl : AddendsFixed options l) (hr : AddendsFixed options r)
    (hok : multiply lv l r = .ok e) : Fixed options e := by
  rcases multiply_eq_ok hok with ⟨t, ht, rfl⟩ | hok
  · exact .term (fixedTerm_normalize hlevel (by simp [hl.rootsFixed, hr.rootsFixed]) ht)
  · obtain ⟨products, hproducts, hok⟩ := distribute_eq_ok hok
    refine fixed_collect hlevel (fun f hf => ?_) hok
    obtain ⟨t, ht, rfl⟩ := List.mem_map.mp hf
    obtain ⟨⟨a, b⟩, hab, hnorm⟩ := exists_of_forall₂ hproducts ht
    obtain ⟨ha, hb⟩ := mem_addendPairs.mp hab
    have hfixed : FixedTerm t := fixedTerm_normalize hlevel (by simp [hl a ha, hr b hb]) hnorm
    exact addendsFixed_of_op? Term.op?_toExpr_ne_add hfixed.rootsFixed

theorem fixed_multiplyAll (hes : ∀ f ∈ es, Fixed options f) (hok : multiplyAll lv es = .ok e) :
    Fixed options e := by
  rcases multiplyAll_eq_ok hok with ⟨t, ht, rfl⟩ | ⟨f, fs, rfl, hfold⟩
  · exact .term (fixedTerm_normalize hlevel (fun f hf => (hes f hf).rootsFixed) ht)
  · refine foldlM_induction hfold (hes f List.mem_cons_self) fun g hg s s' hs hs' => ?_
    have hg := hes g (List.mem_cons_of_mem f hg)
    exact fixed_multiply hlevel hs.addendsFixed hg.addendsFixed hs'

omit hlevel in
theorem fixed_rootOfInt {n : Int} (hok : rootOfInt n = .ok e) : Fixed options e := by
  obtain ⟨s, hs, rfl⟩ := rootOfInt_eq_ok hok
  exact .term (fixedTerm_ofSplit hs)

theorem fixed_squareRoot (hr : Fixed options r) (hok : squareRoot lv r = .ok e) :
    Fixed options e := by
  cases squareRoot_eq_ok hok with
  | int h => exact fixed_rootOfInt h
  | @var x =>
      show Fixed options (Term.mk 1 .one (some (.var x))).toExpr
      exact .term fun e he => Option.some.inj he ▸ fixedRadicand_var x
  | intPow _ h => exact fixed_rootOfInt h
  | varPow h =>
      obtain ⟨half, -, rfl⟩ := rootOfVarPow_eq_ok h
      refine .term fun e he => ?_
      exact Term.eq_of_radical_ofHalf he ▸ fixedRadicand_var _
  | merged h =>
      refine fixed_multiply hlevel (fixed_num 1).addendsFixed ?_ h
      exact addendsFixed_of_op? (by simp [Expr.op?]) (rootsFixed_root.mpr hr)

theorem fixed_power {b p : Expr} (hb : Fixed options b) (hp : Fixed options p)
    (hok : power options lv b p = .ok e) : Fixed options e := by
  cases power_eq_ok hok with
  | symbolic h =>
      refine .power hb hp ?_ ⟨0, fun k hk => ?_⟩
      · simp only [IsPower]
        rw [h]
        trivial
      · rw [hk] at h
        cases h
  | int _ => exact fixed_num _
  | zero => exact fixed_num 1
  | one => exact hb
  | var hk =>
      refine .power hb hp hk ⟨0, fun k _ hproper => ?_⟩
      cases hproper
  | expanded _ _ h => exact hlevel.simplify h
  | kept hk hproper hun =>
      obtain ⟨n, rfl⟩ := hlevel.isLevel
      refine .power hb hp ?_ ⟨n, fun k' hk' _ hle => ?_⟩
      · cases b with
        | num n => cases hproper
        | var x => cases hproper
        | _ => exact hk
      · obtain rfl : _ = k' := Int.ofNat.inj (Expr.num.inj hk')
        exact hun hle

theorem fixed_simplifyAddend {a : Expr.Addend} (hok : simplifyAddend lv a = .ok e) :
    Fixed options e := by
  obtain ⟨f, hf, hok⟩ := bind_eq_ok.mp hok
  have hfixed := hlevel.simplify hf
  split at hok
  · exact fixed_multiply hlevel (fixed_num _).addendsFixed hfixed.addendsFixed hok
  · exact pure_eq_ok.mp hok ▸ hfixed

theorem fixed_simplifyStep (hok : simplifyStep options lv e = .ok e') : Fixed options e' := by
  cases e with
  | num n => exact Except.ok.inj hok ▸ fixed_num n
  | var x => exact Except.ok.inj hok ▸ fixed_var x
  | pow b p =>
      obtain ⟨b', hb', hok⟩ := bind_eq_ok.mp hok
      obtain ⟨p', hp', hok⟩ := bind_eq_ok.mp hok
      exact fixed_power hlevel (hlevel.simplify hb') (hlevel.simplify hp') hok
  | root r =>
      obtain ⟨r', hr', hok⟩ := bind_eq_ok.mp hok
      exact fixed_squareRoot hlevel (hlevel.simplify hr') hok
  | bin op l r =>
      cases op with
      | add | sub =>
          obtain ⟨fs, hfs, hok⟩ := bind_eq_ok.mp hok
          refine fixed_collect hlevel (fun f hf => ?_) hok
          obtain ⟨a, -, haf⟩ := exists_of_forall₂ (mapM_eq_ok.mp hfs) hf
          exact (fixed_simplifyAddend hlevel haf).addendsFixed
      | mul =>
          obtain ⟨fs, hfs, hok⟩ := bind_eq_ok.mp hok
          refine fixed_multiplyAll hlevel (fun f hf => ?_) hok
          obtain ⟨a, -, haf⟩ := exists_of_forall₂ (mapM_eq_ok.mp hfs) hf
          exact hlevel.simplify haf
      | div =>
          obtain ⟨l', hl', hok⟩ := bind_eq_ok.mp hok
          obtain ⟨r', hr', hok⟩ := bind_eq_ok.mp hok
          obtain rfl := pure_eq_ok.mp hok
          exact .quotient (hlevel.simplify hl') (hlevel.simplify hr')

end Step

/-! ## Every level -/

theorem reachesFixed_level (options : Options) (n : Nat) :
    ReachesFixed options (level options n) := by
  induction n with
  | zero =>
      refine ⟨⟨0, rfl⟩, fun h => ?_, fun h => ?_⟩
      · cases h
      · cases h
  | succ n ih =>
      exact ⟨⟨n + 1, rfl⟩, fun h => fixed_simplifyStep ih h,
        fun h hfs => fixedTerm_normalize ih hfs h⟩

theorem fixed_simplify (h : simplify options e = .ok e') : Fixed options e' :=
  (reachesFixed_level options _).simplify h

/-- Whatever an expression simplifies to is in canonical form. -/
theorem isCanonical_simplify (h : simplify options e = .ok e') : IsCanonical e' :=
  (fixed_simplify h).isCanonical

/-- `(√2 + √a) * √(2a)` is distributed, and a root moves out of each product. -/
theorem isCanonical_simplify_roots :
    simplify {} (.bin .mul (.bin .add (.root (.num 2)) (.root (.var "a")))
          (.root (.bin .mul (.num 2) (.var "a")))) =
        .ok (.sum [.product [.num 2, .root (.var "a")], .product [.var "a", .root (.num 2)]]) ∧
      IsCanonical
        (.sum [.product [.num 2, .root (.var "a")], .product [.var "a", .root (.num 2)]]) := by
  have h : simplify {} (.bin .mul (.bin .add (.root (.num 2)) (.root (.var "a")))
      (.root (.bin .mul (.num 2) (.var "a")))) =
        .ok (.sum [.product [.num 2, .root (.var "a")], .product [.var "a", .root (.num 2)]]) := by
    rfl
  exact ⟨h, isCanonical_simplify h⟩

/-! ## Merging what has been multiplied out -/

/-- No factor of a canonical expression is a sum, unless it is the only one. -/
theorem IsCanonical.isSum_of_mem_factors (h : IsCanonical e) (hsum : e.isSum = false) :
    ∀ f ∈ e.factors, f.isSum = false := by
  cases h with
  | term _ => exact fun f => Term.isSum_of_mem_factors_toExpr
  | sum _ hunlike =>
      rw [hunlike.isSum_sumOf] at hsum
      cases hsum
  | quotient _ _ | power _ _ _ =>
      intro f hf
      exact List.mem_singleton.mp hf ▸ hsum

/-- One extraction is all there is to merging the root of a simplified expression
that is no sum into a term without a root. -/
theorem mulRoot_of_simplify {n : Nat} (h : (level options n).simplify e = .ok e')
    (hsum : e'.isSum = false) (ht : t.radical = none) : t.mulRoot lv e' = do
      let (t, left) ← Term.extract lv e' t e'.factors
      return { t with radical := Expr.chain? .mul left } := by
  have hcanonical := ((reachesFixed_level options n).simplify h).isCanonical
  have hfactors := hcanonical.isSum_of_mem_factors hsum
  rw [Term.mulRoot_eq_extract (Term.merged_of_radical ht ▸ hfactors), Term.merged_of_radical ht,
    ← ht]

/-- If the sums under a root cancel down to an expression that is no sum, merging
the root of that expression could as well start over. -/
theorem mulRoot_eq_startOver (options : Options) (n : Nat) (t : Term) (e : Expr) :
    t.mulRoot (level options n) e = (do
      let (sums, rest) := (t.merged e).partition Expr.isSum
      let (t, left) ← Term.extract (level options n) e { t with radical := none } rest
      match left, Term.sortByText sums with
      | left, [] => return { t with radical := Expr.chain? .mul left }
      | [], [s] => return { t with radical := some s }
      | left, sums =>
        let canonical ← (level options n).simplify (.product (left ++ sums))
        if canonical.isSum then
          return { t with radical := some canonical }
        else
          t.mulRoot (level options n) canonical) := by
  rw [Term.mulRoot, ← Term.merged]
  generalize (t.merged e).partition Expr.isSum = parts
  obtain ⟨sums, rest⟩ := parts
  show (_ >>= _) = (_ >>= _)
  cases hextract : Term.extract (level options n) e { t with radical := none } rest with
  | error err => rfl
  | ok p =>
      obtain ⟨t₁, left⟩ := p
      have hradical : t₁.radical = none := Term.radical_extract hextract
      -- the two differ only in what is done once `es` has been multiplied out
      have hagain (es : List Expr) :
          ((level options n).simplify (.product es) >>= fun canonical =>
            if canonical.isSum then pure { t₁ with radical := some canonical }
            else Term.extract (level options n) canonical t₁ canonical.factors >>= fun p =>
              pure { p.1 with radical := Expr.chain? .mul p.2 }) =
          ((level options n).simplify (.product es) >>= fun canonical =>
            if canonical.isSum then pure { t₁ with radical := some canonical }
            else t₁.mulRoot (level options n) canonical) := by
        cases hsimplify : (level options n).simplify (.product es) with
        | error err => rfl
        | ok canonical =>
            refine ite_congr rfl (fun _ => rfl) fun hsum => ?_
            exact (mulRoot_of_simplify hsimplify (Bool.eq_false_iff.mpr hsum) hradical).symm
      rcases Term.sortByText sums with _ | ⟨s, _ | ⟨s', ss⟩⟩
      · cases left <;> rfl
      · cases left with
        | nil => rfl
        | cons f fs => exact hagain (f :: fs ++ [s])
      · cases left with
        | nil => exact hagain ([] ++ s :: s' :: ss)
        | cons f fs => exact hagain (f :: fs ++ s :: s' :: ss)

end Surd.Canonical
