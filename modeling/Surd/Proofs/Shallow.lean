import Surd.Proofs.Termination

/-!
# Results are no deeper than the levels they took

Every root of a result has been looked under once, and that took a level. So a
result that was found with `n` levels has roots nested less than `n` deep,
whatever the expression was. A root is new only where a term writes one, and
what it writes under the root came from a level below, where the same is known
(`Level.Bounds`). Powers and quotients that are kept only pass on the depth of
their parts.

Together with what is known of fixed expressions this makes levels countable: a
result can be taken apart again with the levels that it took to find it.
-/

namespace Surd

variable {options : Options} {level : Level} {n : Nat} {e e' l r : Expr} {es fs : List Expr}
  {t t' : Term}

/-! ## Terms -/

namespace Term

theorem shallow_ofSplit (s : Integer.SquareSplit) : (ofSplit s).Shallow (n + 1) := by
  intro r hr
  obtain ⟨-, rfl⟩ := eq_of_radical_ofSplit hr
  exact Nat.succ_pos n

theorem shallow_ofHalf (half : Powers) (x : String) (k : Nat) :
    (ofHalf half x k).Shallow (n + 1) := by
  intro r hr
  obtain rfl := eq_of_radical_ofHalf hr
  exact Nat.succ_pos n

end Term

/-! ## One step -/

/-- What comes back from this level is nested less than `n` deep. -/
structure Level.Bounds (n : Nat) (level : Level) : Prop where
  simplify : ∀ {e e'}, level.simplify e = .ok e' → e'.rootDepth < n
  normalize : ∀ {fs t}, level.normalize fs = .ok t → (∀ f ∈ fs, f.rootDepth < n) →
    ∃ d, n = d + 1 ∧ t.Shallow d

section Step

variable (hlevel : level.Bounds n)
include hlevel

theorem Term.shallow_extract {radicand : Expr} {left : List Expr}
    (hfs : ∀ f ∈ fs, f.rootDepth < n)
    (hok : Term.extract level radicand t fs = .ok (t', left)) : ∀ f ∈ left, f.rootDepth < n := by
  obtain ⟨inner, split, hinner, -, -, rfl⟩ := Term.extract_eq_ok hok
  obtain ⟨d, rfl, hshallow⟩ := hlevel.normalize hinner hfs
  have hleft : (inner.leftover split.inside).Shallow d := hshallow
  rw [Term.leftovers_eq]
  exact fun f hf => Nat.lt_succ_of_le (hleft.toFactors f hf)

omit hlevel in
theorem rootDepth_chain?_lt (hfs : ∀ f ∈ fs, f.rootDepth < n)
    (he : Expr.chain? .mul fs = some e) : e.rootDepth < n :=
  Expr.property_chain? (P := fun e => e.rootDepth < n) (fun _ _ => Nat.max_lt) hfs he

omit hlevel in
theorem Term.shallow_merged (ht : t.Shallow n) (he : e.rootDepth < n) :
    ∀ f ∈ t.merged e, f.rootDepth < n := by
  intro f hf
  rcases Term.mem_merged.mp hf with ⟨r, hr, hf⟩ | hf
  · exact Expr.rootDepth_operands_lt (ht r hr) f hf
  · exact Expr.rootDepth_operands_lt he f hf

theorem Term.shallow_mulRoot (ht : t.Shallow n) (he : e.rootDepth < n)
    (hok : t.mulRoot level e = .ok t') : t'.Shallow n := by
  have hmerged := Term.shallow_merged ht he
  obtain ⟨t₁, left, hex, hcases⟩ := Term.mulRoot_eq_ok hok
  have hleft := Term.shallow_extract hlevel (fun f hf => hmerged f (List.mem_filter.mp hf).1) hex
  rcases hcases with ⟨-, rfl⟩ | ⟨s, hs, -, rfl⟩ | ⟨canonical, hcan, hcases⟩
  · exact fun r hr => rootDepth_chain?_lt hleft hr
  · have hmem : s ∈ (t.merged e).filter Expr.isSum := hs ▸ List.mem_singleton_self s
    exact fun r hr => Option.some.inj hr ▸ hmerged s (List.mem_filter.mp hmem).1
  · have hcanonical := hlevel.simplify hcan
    rcases hcases with ⟨-, rfl⟩ | ⟨t₂, left₂, hex₂, rfl⟩
    · exact fun r hr => Option.some.inj hr ▸ hcanonical
    · have hleft₂ := Term.shallow_extract hlevel (Expr.rootDepth_operands_lt hcanonical) hex₂
      exact fun r hr => rootDepth_chain?_lt hleft₂ hr

theorem shallow_normalize (hfs : ∀ f ∈ fs, f.rootDepth ≤ n) (hok : normalize level fs = .ok t) :
    t.Shallow n := by
  have hroots : ∀ f ∈ fs, ∀ r, .root r ∈ f.factors → r.rootDepth < n := fun f hf r hr =>
    Expr.rootDepth_operands_le.mpr (hfs f hf) (.root r) hr
  exact normalize_induction (P := fun radical => ∀ r, radical = some r → r.rootDepth < n) hok nofun
    fun f hf r hr s _ hs hs' => Term.shallow_mulRoot hlevel (t := s) hs (hroots f hf r hr) hs'

theorem rootDepth_collect (hes : ∀ f ∈ es, f.rootDepth ≤ n) (hok : collect level es = .ok e) :
    e.rootDepth ≤ n := by
  obtain ⟨terms, hterms, rfl⟩ := collect_eq_ok hok
  refine Term.rootDepth_combine fun t ht => ?_
  obtain ⟨a, ha, hat⟩ := exists_of_forall₂ hterms ht
  obtain ⟨f, hf, haf⟩ := List.mem_flatMap.mp ha
  have hdepth : a.rootDepth ≤ n := Expr.rootDepth_operands_le.mpr (hes f hf) a haf
  exact shallow_normalize hlevel (List.forall_mem_singleton.mpr hdepth) hat

theorem rootDepth_multiply (hl : l.rootDepth ≤ n) (hr : r.rootDepth ≤ n)
    (hok : multiply level l r = .ok e) : e.rootDepth ≤ n := by
  rcases multiply_eq_ok hok with ⟨t, ht, rfl⟩ | hok
  · exact (shallow_normalize hlevel (by simp [hl, hr]) ht).toExpr
  · obtain ⟨products, hproducts, hok⟩ := distribute_eq_ok hok
    refine rootDepth_collect hlevel (fun f hf => ?_) hok
    obtain ⟨t, ht, rfl⟩ := List.mem_map.mp hf
    obtain ⟨⟨a, b⟩, hab, hnorm⟩ := exists_of_forall₂ hproducts ht
    obtain ⟨ha, hb⟩ := mem_addendPairs.mp hab
    refine (shallow_normalize hlevel ?_ hnorm).toExpr
    simp [Expr.rootDepth_operands_le.mpr hl a ha, Expr.rootDepth_operands_le.mpr hr b hb]

theorem rootDepth_multiplyAll (hes : ∀ f ∈ es, f.rootDepth ≤ n)
    (hok : multiplyAll level es = .ok e) : e.rootDepth ≤ n := by
  rcases multiplyAll_eq_ok hok with ⟨t, ht, rfl⟩ | ⟨f, fs, rfl, hfold⟩
  · exact (shallow_normalize hlevel hes ht).toExpr
  · refine foldlM_induction (P := fun s => s.rootDepth ≤ n) hfold (hes f List.mem_cons_self)
      fun g hg s s' hs hs' => ?_
    exact rootDepth_multiply hlevel hs (hes g (List.mem_cons_of_mem f hg)) hs'

theorem rootDepth_squareRoot (hr : r.rootDepth < n) (hok : squareRoot level r = .ok e) :
    e.rootDepth ≤ n := by
  obtain ⟨d, rfl⟩ : ∃ d, n = d + 1 := ⟨n - 1, by omega⟩
  cases squareRoot_eq_ok hok with
  | int h | intPow _ h =>
      obtain ⟨s, -, rfl⟩ := rootOfInt_eq_ok h
      exact (Term.shallow_ofSplit s).toExpr
  | var => exact Nat.succ_le_succ (Nat.zero_le d)
  | varPow h =>
      obtain ⟨half, -, rfl⟩ := rootOfVarPow_eq_ok h
      exact (Term.shallow_ofHalf half _ _).toExpr
  | merged h => exact rootDepth_multiply hlevel (l := .num 1) (Nat.zero_le _) (r := .root r) hr h

theorem rootDepth_power {b p : Expr} (hb : b.rootDepth < n) (hp : p.rootDepth < n)
    (hok : power options level b p = .ok e) : e.rootDepth < n := by
  have hpow : (Expr.pow b p).rootDepth < n := Nat.max_lt.mpr ⟨hb, hp⟩
  cases power_eq_ok hok with
  | symbolic | var | kept => exact hpow
  | int | zero => exact hp
  | one => exact hb
  | expanded _ _ h => exact hlevel.simplify h

theorem rootDepth_simplifyAddend {a : Expr.Addend} (hok : simplifyAddend level a = .ok e) :
    e.rootDepth ≤ n := by
  obtain ⟨f, hf, hok⟩ := bind_eq_ok.mp hok
  have hdepth := Nat.le_of_lt (hlevel.simplify hf)
  split at hok
  · exact rootDepth_multiply hlevel (l := .num (-1)) (Nat.zero_le n) hdepth hok
  · exact pure_eq_ok.mp hok ▸ hdepth

theorem rootDepth_simplifyStep (hok : simplifyStep options level e = .ok e') :
    e'.rootDepth ≤ n := by
  cases e with
  | num c => exact Except.ok.inj hok ▸ Nat.zero_le n
  | var x => exact Except.ok.inj hok ▸ Nat.zero_le n
  | pow b p =>
      obtain ⟨b', hb', hok⟩ := bind_eq_ok.mp hok
      obtain ⟨p', hp', hok⟩ := bind_eq_ok.mp hok
      exact Nat.le_of_lt
        (rootDepth_power hlevel (hlevel.simplify hb') (hlevel.simplify hp') hok)
  | root r =>
      obtain ⟨r', hr', hok⟩ := bind_eq_ok.mp hok
      exact rootDepth_squareRoot hlevel (hlevel.simplify hr') hok
  | bin op l r =>
      cases op with
      | add | sub =>
          obtain ⟨fs, hfs, hok⟩ := bind_eq_ok.mp hok
          refine rootDepth_collect hlevel (fun f hf => ?_) hok
          obtain ⟨a, -, haf⟩ := exists_of_forall₂ (mapM_eq_ok.mp hfs) hf
          exact rootDepth_simplifyAddend hlevel haf
      | mul =>
          obtain ⟨fs, hfs, hok⟩ := bind_eq_ok.mp hok
          refine rootDepth_multiplyAll hlevel (fun f hf => ?_) hok
          obtain ⟨a, -, haf⟩ := exists_of_forall₂ (mapM_eq_ok.mp hfs) hf
          exact Nat.le_of_lt (hlevel.simplify haf)
      | div =>
          obtain ⟨l', hl', hok⟩ := bind_eq_ok.mp hok
          obtain ⟨r', hr', hok⟩ := bind_eq_ok.mp hok
          obtain rfl := pure_eq_ok.mp hok
          exact Nat.max_le.mpr
            ⟨Nat.le_of_lt (hlevel.simplify hl'), Nat.le_of_lt (hlevel.simplify hr')⟩

end Step

/-! ## Every level -/

theorem bounds_level (options : Options) (n : Nat) : (Surd.level options n).Bounds n := by
  induction n with
  | zero =>
      refine ⟨fun h => ?_, fun h => ?_⟩
      · cases h
      · cases h
  | succ n ih =>
      refine ⟨fun h => Nat.lt_succ_of_le (rootDepth_simplifyStep ih h), fun h hfs => ?_⟩
      exact ⟨n, rfl, shallow_normalize ih (fun f hf => Nat.le_of_lt_succ (hfs f hf)) h⟩

/-- The roots of a simplified expression are nested less deep than the limit. -/
theorem rootDepth_simplify (h : simplify options e = .ok e') : e'.rootDepth < options.maxDepth :=
  (bounds_level options _).simplify h

end Surd
