import Surd.Proofs.Canonical

/-!
# What multiplies out

Quotients, symbolic exponents and powers that are too large to multiply out
are all that simplification cannot put into terms. An expression without them
(`Multiplies`) is multiplied out until only sums of terms are left
(`Expanded`), and nothing in it is reported as unsupported on the way. Without
roots there are none in the result either, and no integer has to be split.

What is left to fail are limits: of the depth, of the exponents and of the
integers that are split (`simplify_supported`). So the statements here are about
both outcomes, a result that is multiplied out or an error that is a limit. The
normalizer is the exception, since it also gives up at the first sum among its
factors.
-/

namespace Surd

variable {roots sums : Bool} {bound : Nat} {options : Options} {level : Level}
  {e e' l r : Expr} {es fs : List Expr} {t : Term}

/-- Something was too large. Integers are only split where there are roots. -/
def SimplifyError.IsLimit (roots : Bool) : SimplifyError → Prop
  | .unsupported _ _ => False
  | .exponentTooLarge _ => True
  | .radicandTooLarge _ => roots
  | .depthExceeded _ => True

/-- The same for a product, which may also have a sum among its factors. -/
def Obstacle.IsLimit (roots sums : Bool) : Obstacle → Prop
  | .sum => sums
  | .failed e => e.IsLimit roots

theorem Obstacle.IsLimit.toError {o : Obstacle} (h : o.IsLimit roots false) (e : Expr) :
    (o.toError e).IsLimit roots := by
  cases o with
  | sum => cases h
  | failed e => exact h

/-- A number, a variable, or anything made of such by the operations that
multiply out. Exponents are literal, and those of anything compound are at most
`bound`. -/
inductive Expr.Multiplies (roots : Bool) (bound : Nat) : Expr → Prop where
  | num {n : Int} : Multiplies roots bound (.num n)
  | var {x : String} : Multiplies roots bound (.var x)
  | bin {op : Op} {l r : Expr} : op ≠ .div → Multiplies roots bound l → Multiplies roots bound r →
      Multiplies roots bound (.bin op l r)
  | varPow {x : String} {k : Nat} : Multiplies roots bound (.pow (.var x) (.num k))
  | intPow {n : Int} {k : Nat} : Multiplies roots bound (.pow (.num n) (.num k))
  | pow {b : Expr} {k : Nat} : k ≤ bound → Multiplies roots bound b →
      Multiplies roots bound (.pow b (.num k))
  | root {e : Expr} : roots → Multiplies roots bound e → Multiplies roots bound (.root e)

/-- A sum of products of numbers, powers of variables and roots of such sums;
or just a product, unless `sums` are allowed. -/
inductive Expr.Expanded (roots : Bool) : Bool → Expr → Prop where
  | num {sums : Bool} {n : Int} : Expanded roots sums (.num n)
  | var {sums : Bool} {x : String} : Expanded roots sums (.var x)
  | varPow {sums : Bool} {x : String} {k : Nat} : Expanded roots sums (.pow (.var x) (.num k))
  | root {sums : Bool} {e : Expr} : roots → Expanded roots true e → Expanded roots sums (.root e)
  | mul {sums : Bool} {l r : Expr} : Expanded roots false l → Expanded roots false r →
      Expanded roots sums (.bin .mul l r)
  | add {l r : Expr} : Expanded roots true l → Expanded roots true r →
      Expanded roots true (.bin .add l r)

namespace Expr

theorem Multiplies.bin_iff {op : Op} (hop : op ≠ .div) : (Expr.bin op l r).Multiplies roots bound ↔
    l.Multiplies roots bound ∧ r.Multiplies roots bound := by
  constructor
  · intro h
    cases h with
    | bin _ hl hr => exact ⟨hl, hr⟩
  · rintro ⟨hl, hr⟩
    exact .bin hop hl hr

namespace Expanded

theorem mul_iff : Expanded roots sums (.bin .mul l r) ↔
    Expanded roots false l ∧ Expanded roots false r := by
  constructor
  · intro h
    cases h with
    | mul hl hr => exact ⟨hl, hr⟩
  · rintro ⟨hl, hr⟩
    exact .mul hl hr

theorem add_iff : Expanded roots true (.bin .add l r) ↔
    Expanded roots true l ∧ Expanded roots true r := by
  constructor
  · intro h
    cases h with
    | add hl hr => exact ⟨hl, hr⟩
  · rintro ⟨hl, hr⟩
    exact .add hl hr

theorem multiplies (h : e.Expanded roots sums) : e.Multiplies roots bound := by
  induction h with
  | num => exact .num
  | var => exact .var
  | varPow => exact .varPow
  | root hroots _ ih => exact .root hroots ih
  | mul _ _ ihl ihr => exact .bin (by decide) ihl ihr
  | add _ _ ihl ihr => exact .bin (by decide) ihl ihr

/-- Without a sum at the head there is none outside of roots. -/
theorem of_op? (h : e.Expanded roots true) (hop : e.op? ≠ some .add) : e.Expanded roots sums := by
  cases h with
  | num => exact .num
  | var => exact .var
  | varPow => exact .varPow
  | root hroots he => exact .root hroots he
  | mul hl hr => exact .mul hl hr
  | add _ _ => exact absurd rfl hop

theorem of_product (h : e.Expanded roots false) : e.Expanded roots sums := by
  cases h with
  | num => exact .num
  | var => exact .var
  | varPow => exact .varPow
  | root hroots he => exact .root hroots he
  | mul hl hr => exact .mul hl hr

theorem of_not_isSum (h : e.Expanded roots true) (hsum : e.isSum = false) :
    e.Expanded roots sums :=
  h.of_op? fun hop => by simp [isSum, isBin, hop] at hsum

theorem factors (h : e.Expanded roots sums) : ∀ f ∈ e.factors, f.Expanded roots sums := by
  by_cases hop : e.op? = some .mul
  · have hproduct : e.Expanded roots false := by
      cases h with
      | mul hl hr => exact .mul hl hr
      | num | var | varPow | root | add => cases hop
    intro f hf
    exact ((forall_operands_iff fun _ _ => mul_iff).mpr hproduct f hf).of_product
  · intro f hf
    rw [Expr.factors, operands_eq_singleton hop] at hf
    exact List.mem_singleton.mp hf ▸ h

theorem addends (h : e.Expanded roots true) : ∀ a ∈ e.addends, a.Expanded roots false := by
  intro a ha
  exact ((forall_operands_iff fun _ _ => add_iff).mpr h a ha).of_op? (op?_ne_of_mem_operands ha)

theorem of_varPow {x : String} {k : Nat} : (Expr.varPow x k).Expanded roots sums := by
  rw [Expr.varPow]
  split
  · exact .var
  · exact .varPow

end Expanded

end Expr

/-! ## Terms -/

/-- What is under the root of a term, if anything may be, is multiplied out. -/
def Term.Expanded (roots : Bool) (t : Term) : Prop :=
  ∀ r, t.radical = some r → roots ∧ r.Expanded roots true

namespace Term.Expanded

theorem toFactors (h : t.Expanded roots) : ∀ f ∈ t.toFactors, f.Expanded roots false := by
  intro f hf
  rcases mem_toFactors.mp hf with ⟨-, rfl⟩ | ⟨q, -, rfl⟩ | ⟨r, hr, rfl⟩
  · exact .num
  · exact .of_varPow
  · exact .root (h r hr).1 (h r hr).2

theorem toExpr (h : t.Expanded roots) : t.toExpr.Expanded roots false := by
  rw [Term.toExpr]
  split
  · exact .num
  · exact Expr.property_product (fun _ _ => Expr.Expanded.mul_iff) .num h.toFactors

theorem of_none (h : t.radical = none) : t.Expanded roots := by
  intro r hr
  rw [h] at hr
  cases hr

theorem mulVar (h : t.Expanded roots) (x : String) (k : Nat) :
    Yields (SimplifyError.IsLimit roots) (Term.Expanded roots) (t.mulVar x k) := by
  rw [Term.mulVar]
  split
  · exact h
  · trivial

theorem mulPower (h : t.Expanded roots) (x : String) (k : Nat) :
    Yields (SimplifyError.IsLimit roots) (Term.Expanded roots)
      (t.mulPower (.var x) (.num k)) := by
  show Yields _ _ (if k ≤ maxExponent then t.mulVar x k else .error (.exponentTooLarge k))
  split
  · exact h.mulVar x k
  · trivial

theorem mulHalves (h : t.Expanded roots) (vars : Powers) :
    Yields (SimplifyError.IsLimit roots) (Term.Expanded roots) (t.mulHalves vars) :=
  Yields.foldlM h fun q _ _ hs => hs.mulVar q.1 (q.2 / 2)

end Term.Expanded

/-! ## Integers -/

theorem isLimit_power (n : Int) (k : Nat) :
    Yields (SimplifyError.IsLimit roots) (fun _ => True) (Integer.power n k) := by
  rw [Integer.power]
  split <;> trivial

theorem isLimit_squareSplit (hroots : roots) (n : Int) :
    Yields (SimplifyError.IsLimit roots) (fun _ => True) (Integer.squareSplit n) := by
  rw [Integer.squareSplit]
  split
  · trivial
  · exact hroots

/-! ## One step -/

/-- What is asked for at this level is multiplied out when it comes back. -/
structure Level.Expands (roots : Bool) (bound : Nat) (level : Level) : Prop where
  leaf : ∀ {e}, e.isLeaf →
    Yields (SimplifyError.IsLimit roots) (fun e' => e' = e) (level.simplify e)
  simplify : ∀ {e}, e.Multiplies roots bound →
    Yields (SimplifyError.IsLimit roots) (Expr.Expanded roots true) (level.simplify e)
  normalize : ∀ {fs}, (∀ f ∈ fs, f.Expanded roots false) →
    Yields (Obstacle.IsLimit roots false) (Term.Expanded roots) (level.normalize fs)

section Step

variable (hlevel : level.Expands roots bound)
include hlevel

theorem Term.expanded_extract (hroots : roots) {radicand : Expr} (ht : t.Expanded roots)
    (hfs : ∀ f ∈ fs, f.Expanded roots false) :
    Yields (SimplifyError.IsLimit roots)
      (fun p => p.1.Expanded roots ∧ ∀ f ∈ p.2, f.Expanded roots false)
      (Term.extract level radicand t fs) := by
  refine ((hlevel.normalize hfs).mapError fun o ho => ho.toError radicand).bind fun inner hin => ?_
  have hleft (n : Int) : (inner.leftover n).Expanded roots := hin
  refine (isLimit_squareSplit hroots inner.coeff).bind fun s _ => ?_
  refine (Expanded.mulHalves (t := t.mulInt s.outside) ht inner.vars).bind fun t' ht' => ?_
  refine ⟨ht', ?_⟩
  rw [leftovers_eq]
  exact (hleft s.inside).toFactors

omit hlevel in
theorem Term.expanded_merged (ht : t.Expanded roots) (he : e.Expanded roots true) :
    ∀ f ∈ t.merged e, f.Expanded roots true := by
  intro f hf
  rcases mem_merged.mp hf with ⟨r, hr, hf⟩ | hf
  · exact (ht r hr).2.factors f hf
  · exact he.factors f hf

omit hlevel in
theorem Term.expanded_chain? (hroots : roots) (h : ∀ f ∈ fs, f.Expanded roots false) (t : Term) :
    Term.Expanded roots { t with radical := Expr.chain? .mul fs } := by
  intro r hr
  have hproduct : r.Expanded roots false :=
    Expr.property_chain? (fun _ _ => Expr.Expanded.mul_iff) h hr
  exact ⟨hroots, hproduct.of_product⟩

theorem Term.expanded_mulRoot (hroots : roots) (ht : t.Expanded roots)
    (he : e.Expanded roots true) :
    Yields (SimplifyError.IsLimit roots) (Term.Expanded roots) (t.mulRoot level e) := by
  have hmerged := expanded_merged ht he
  have hsums : ∀ f ∈ sortByText ((t.merged e).filter Expr.isSum), f.Expanded roots true := by
    intro f hf
    exact hmerged f (List.mem_filter.mp ((sortByText_perm _).mem_iff.mp hf)).1
  rw [Term.mulRoot, List.partition_eq_filter_filter]
  have hnone : Term.Expanded roots { t with radical := none } := Expanded.of_none rfl
  refine (expanded_extract hlevel hroots hnone fun f hf => ?_).bind ?_
  · obtain ⟨hmem, hsum⟩ := List.mem_filter.mp hf
    exact (hmerged f hmem).of_not_isSum (by simpa using hsum)
  · rintro ⟨t₁, left⟩ ⟨ht₁, hleft⟩
    simp only
    split
    · -- no sums under either root
      exact expanded_chain? hroots hleft t₁
    · -- one sum and nothing beside it
      next s hs =>
        intro r hr
        exact ⟨hroots, Option.some.inj hr ▸ hsums s (hs ▸ List.mem_singleton_self s)⟩
    · -- sums that are multiplied out and may cancel down to a product
      next left _ _ _ _ =>
        have hproduct : (Expr.product (left ++
            sortByText ((t.merged e).filter Expr.isSum))).Multiplies roots bound := by
          refine Expr.property_product (fun _ _ => Expr.Multiplies.bin_iff (by decide)) .num
            fun f hf => ?_
          rcases List.mem_append.mp hf with hf | hf
          · exact (hleft f hf).multiplies
          · exact (hsums f hf).multiplies
        refine (hlevel.simplify hproduct).bind fun canonical hcan => ?_
        split
        · intro r hr
          exact ⟨hroots, Option.some.inj hr ▸ hcan⟩
        · next hsum =>
            have hterm : canonical.Expanded roots false :=
              hcan.of_not_isSum (by simpa using hsum)
            refine (expanded_extract hlevel hroots ht₁ hterm.factors).bind ?_
            rintro ⟨t₂, left₂⟩ ⟨-, hleft₂⟩
            exact expanded_chain? hroots hleft₂ t₂

theorem Term.expanded_absorb (ht : t.Expanded roots) (he : e.Expanded roots sums) :
    Yields (Obstacle.IsLimit roots sums) (Term.Expanded roots) (t.absorb level e) := by
  induction he generalizing t with
  | num => exact ht
  | @var _ x => exact (ht.mulVar x 1).mapError fun _ h => h
  | @varPow _ x k => exact (ht.mulPower x k).mapError fun _ h => h
  | root hroots he _ => exact (expanded_mulRoot hlevel hroots ht he).mapError fun _ h => h
  | mul _ _ ihl ihr =>
      have hproduct : Yields (Obstacle.IsLimit roots false) (Term.Expanded roots)
          (t.absorb level (.bin .mul _ _)) := (ihl ht).bind fun _ hs => ihr hs
      refine hproduct.mono (fun o ho => ?_) fun _ h => h
      cases o with
      | sum => cases ho
      | failed => exact ho
  | add _ _ _ _ => rfl

theorem expanded_normalize (hfs : ∀ f ∈ fs, f.Expanded roots sums) :
    Yields (Obstacle.IsLimit roots sums) (Term.Expanded roots) (normalize level fs) :=
  Yields.foldlM (Term.Expanded.of_none rfl) fun f hf _ hs =>
    Term.expanded_absorb hlevel hs (hfs f hf)

/-- A product of products is one term. -/
theorem expanded_normalize_term (hfs : ∀ f ∈ fs, f.Expanded roots false) (e : Expr) :
    Yields (SimplifyError.IsLimit roots) (Term.Expanded roots)
      ((normalize level fs).mapError (Obstacle.toError e)) :=
  (expanded_normalize hlevel hfs).mapError fun _ ho => ho.toError e

theorem expanded_collect (hes : ∀ f ∈ es, f.Expanded roots true) :
    Yields (SimplifyError.IsLimit roots) (Expr.Expanded roots true) (collect level es) := by
  have haddends : ∀ a ∈ es.flatMap Expr.addends, a.Expanded roots false := by
    intro a ha
    obtain ⟨f, hf, haf⟩ := List.mem_flatMap.mp ha
    exact (hes f hf).addends a haf
  refine Yields.bind (P := fun ts => ∀ t ∈ ts, Term.Expanded roots t) (.mapM fun a ha => ?_) ?_
  · exact expanded_normalize_term hlevel (by simpa using haddends a ha) a
  · intro ts hts
    refine Expr.property_sum (fun _ _ => Expr.Expanded.add_iff) .num fun f hf => ?_
    obtain ⟨t, ht, rfl⟩ := List.mem_map.mp hf
    obtain ⟨s, hs, halike⟩ := Term.exists_alike_of_mem_combine ht
    have hexpanded : t.Expanded roots := fun r hr => hts s hs r (halike.radical ▸ hr)
    exact hexpanded.toExpr.of_product

theorem expanded_distribute (hl : l.Expanded roots true) (hr : r.Expanded roots true) :
    Yields (SimplifyError.IsLimit roots) (Expr.Expanded roots true) (distribute level l r) := by
  refine Yields.bind (P := fun ts => ∀ t ∈ ts, Term.Expanded roots t) (.mapM fun p hp => ?_) ?_
  · obtain ⟨ha, hb⟩ := mem_addendPairs.mp hp
    exact expanded_normalize_term hlevel (by simp [hl.addends _ ha, hr.addends _ hb]) _
  · intro ts hts
    refine expanded_collect hlevel fun f hf => ?_
    obtain ⟨t, ht, rfl⟩ := List.mem_map.mp hf
    exact (hts t ht).toExpr.of_product

theorem expanded_multiply (hl : l.Expanded roots true) (hr : r.Expanded roots true) :
    Yields (SimplifyError.IsLimit roots) (Expr.Expanded roots true) (multiply level l r) := by
  have hfs : ∀ f ∈ [l, r], f.Expanded roots true := by simp [hl, hr]
  have hnorm := expanded_normalize hlevel hfs
  rw [multiply]
  split
  · next t ht =>
      rw [ht] at hnorm
      exact hnorm.toExpr.of_product
  · exact expanded_distribute hlevel hl hr
  · next err herr =>
      rw [herr] at hnorm
      exact hnorm

theorem expanded_multiplyAll (hes : ∀ f ∈ es, f.Expanded roots true) :
    Yields (SimplifyError.IsLimit roots) (Expr.Expanded roots true) (multiplyAll level es) := by
  have hnorm := expanded_normalize hlevel hes
  simp only [multiplyAll]
  split
  · next t ht =>
      rw [ht] at hnorm
      exact hnorm.toExpr.of_product
  · split
    · exact .num
    · next f fs _ =>
        refine Yields.foldlM (hes f List.mem_cons_self) fun g hg s hs => ?_
        exact expanded_multiply hlevel hs (hes g (List.mem_cons_of_mem f hg))
  · next err herr =>
      rw [herr] at hnorm
      exact hnorm

/-! ### Roots and powers -/

omit hlevel in
theorem expanded_rootOfInt (hroots : roots) (n : Int) :
    Yields (SimplifyError.IsLimit roots) (Expr.Expanded roots true) (rootOfInt n) := by
  refine (isLimit_squareSplit hroots n).bind fun s _ => ?_
  split
  · exact .num
  · split
    · exact .num
    · split
      · exact .root hroots .num
      · exact .mul .num (.root hroots .num)

omit hlevel in
theorem expanded_rootOfVarPow (hroots : roots) (x : String) (k : Nat) :
    Yields (SimplifyError.IsLimit roots) (Expr.Expanded roots true) (rootOfVarPow x k) := by
  rw [rootOfVarPow]
  split
  · have hproduct : (Expr.product ((if k / 2 = 0 then [] else [Expr.varPow x (k / 2)])
        ++ (if k % 2 = 1 then [.root (.var x)] else []))).Expanded roots false := by
      refine Expr.property_product (fun _ _ => Expr.Expanded.mul_iff) .num fun f hf => ?_
      rcases List.mem_append.mp hf with hf | hf
      · split at hf
        · cases hf
        · exact List.mem_singleton.mp hf ▸ .of_varPow
      · split at hf
        · exact List.mem_singleton.mp hf ▸ .root hroots .var
        · cases hf
    exact hproduct.of_product
  · trivial

theorem expanded_squareRoot (hroots : roots) (hr : r.Expanded roots true) :
    Yields (SimplifyError.IsLimit roots) (Expr.Expanded roots true) (squareRoot level r) := by
  have hmultiply : Yields (SimplifyError.IsLimit roots) (Expr.Expanded roots true)
      (multiply level (.num 1) (.root r)) := expanded_multiply hlevel .num (.root hroots hr)
  cases hr with
  | num => exact expanded_rootOfInt hroots _
  | var => exact .root hroots .var
  | varPow => exact expanded_rootOfVarPow hroots _ _
  | root _ _ => exact hmultiply
  | mul _ _ => exact hmultiply
  | add _ _ => exact hmultiply

theorem expanded_expand {b : Expr} (hb : b.Expanded roots true) (k : Nat) :
    Yields (SimplifyError.IsLimit roots) (Expr.Expanded roots true) (expand level b k) := by
  have hproduct : (Expr.product (List.replicate k b)).Multiplies roots bound :=
    Expr.property_product (fun _ _ => Expr.Multiplies.bin_iff (by decide)) .num
      fun f hf => List.eq_of_mem_replicate hf ▸ hb.multiplies
  have hsimplify := hlevel.simplify hproduct
  rw [expand]
  split
  · next op x hx =>
      rw [hx] at hsimplify
      cases hsimplify
  · exact hsimplify

theorem expanded_power {b : Expr} {k : Nat} (hb : b.Expanded roots true)
    (hk : k ≤ options.maxExpansion ∨ b.isLeaf) :
    Yields (SimplifyError.IsLimit roots) (Expr.Expanded roots true)
      (power options level b (.num k)) := by
  simp only [power]
  split
  · next hp => cases hp
  · exact (isLimit_power _ _).bind fun _ _ => .num
  · exact .num
  · exact hb
  · exact .varPow
  · next b _ _ _ _ _ hp hnum hvar =>
      obtain rfl := Option.some.inj hp
      split
      · exact expanded_expand hlevel hb _
      · next hgt =>
          rcases hk with hle | hleaf
          · exact absurd hle hgt
          · cases b with
            | num n => exact absurd rfl (hnum n)
            | var x => exact absurd rfl (hvar x)
            | bin | pow | root => cases hleaf

theorem expanded_simplifyAddend {a : Expr.Addend} (ha : a.value.Multiplies roots bound) :
    Yields (SimplifyError.IsLimit roots) (Expr.Expanded roots true) (simplifyAddend level a) := by
  refine (hlevel.simplify ha).bind fun e he => ?_
  split
  · exact expanded_multiply hlevel .num he
  · exact he

theorem expanded_simplifyStep (hbound : bound = options.maxExpansion)
    (he : e.Multiplies roots bound) :
    Yields (SimplifyError.IsLimit roots) (Expr.Expanded roots true)
      (simplifyStep options level e) := by
  cases he with
  | num => exact .num
  | var => exact .var
  | @varPow x k =>
      refine (hlevel.leaf (e := .var x) rfl).bind ?_
      rintro _ rfl
      refine (hlevel.leaf (e := .num k) rfl).bind ?_
      rintro _ rfl
      exact expanded_power hlevel .var (.inr rfl)
  | @intPow n k =>
      refine (hlevel.leaf (e := .num n) rfl).bind ?_
      rintro _ rfl
      refine (hlevel.leaf (e := .num k) rfl).bind ?_
      rintro _ rfl
      exact expanded_power hlevel .num (.inr rfl)
  | @pow b k hk hb =>
      refine (hlevel.simplify hb).bind fun b' hb' => ?_
      refine (hlevel.leaf (e := .num k) rfl).bind ?_
      rintro _ rfl
      exact expanded_power hlevel hb' (.inl (hbound ▸ hk))
  | root hroots hr =>
      exact (hlevel.simplify hr).bind fun r' hr' => expanded_squareRoot hlevel hroots hr'
  | @bin op l r hop hl hr =>
      cases op with
      | add | sub =>
          refine Yields.bind (.mapM fun a ha => ?_) fun es hes => expanded_collect hlevel hes
          refine expanded_simplifyAddend hlevel ?_
          exact (Expr.forall_signedAddends_iff (fun _ _ => Expr.Multiplies.bin_iff (by decide))
            fun _ _ => Expr.Multiplies.bin_iff (by decide)).mpr (.bin hop hl hr) a ha
      | mul =>
          refine Yields.bind (.mapM fun f hf => ?_) fun es hes => expanded_multiplyAll hlevel hes
          exact hlevel.simplify <| (Expr.forall_operands_iff
            fun _ _ => Expr.Multiplies.bin_iff (by decide)).mpr (.bin hop hl hr) f hf
      | div => exact absurd rfl hop

end Step

/-! ## Every level -/

theorem expands_level (roots : Bool) (options : Options) (n : Nat) :
    (Surd.level options n).Expands roots options.maxExpansion := by
  induction n with
  | zero => exact ⟨fun _ => trivial, fun _ => trivial, fun _ => trivial⟩
  | succ n ih =>
      refine ⟨fun {e} he => ?_, expanded_simplifyStep ih rfl, expanded_normalize ih⟩
      cases e with
      | num | var => rfl
      | bin | pow | root => cases he

/-- What multiplies is multiplied out, unless it gets too large. -/
theorem expanded_simplify (he : e.Multiplies roots options.maxExpansion) :
    Yields (SimplifyError.IsLimit roots) (Expr.Expanded roots true) (simplify options e) :=
  (expands_level roots options options.maxDepth).simplify he

/-! ## What is supported -/

/-- Whether an expression has no quotient, and no power but those with a
literal exponent, which is at most `bound` unless the base is an integer or a
variable. -/
def Expr.isSupported (bound : Nat) : Expr → Bool
  | .num _ => true
  | .var _ => true
  | .bin op l r => op != .div && l.isSupported bound && r.isSupported bound
  | .pow b p => b.isSupported bound && p.exponent?.any fun k => b.isLeaf || k ≤ bound
  | .root e => e.isSupported bound

theorem Expr.isSupported_bin {op : Op} : (Expr.bin op l r).isSupported bound ↔
    op ≠ .div ∧ l.isSupported bound ∧ r.isSupported bound := by
  simp [isSupported, and_assoc]

theorem Expr.isSupported_pow {b p : Expr} : (Expr.pow b p).isSupported bound ↔
    ∃ k : Nat, p = .num k ∧ (b.isLeaf ∨ k ≤ bound) ∧ b.isSupported bound := by
  rw [isSupported, Bool.and_eq_true, Option.any_eq_true]
  constructor
  · rintro ⟨hb, k, hk, hle⟩
    exact ⟨k, eq_num_of_exponent? hk, by simpa using hle, hb⟩
  · rintro ⟨k, rfl, hle, hb⟩
    exact ⟨hb, k, rfl, by simpa using hle⟩

theorem Expr.multiplies_of_isSupported (h : e.isSupported bound) : e.Multiplies true bound := by
  induction e with
  | num n => exact .num
  | var x => exact .var
  | root e ih => exact .root rfl (ih h)
  | bin op l r ihl ihr =>
      obtain ⟨hop, hl, hr⟩ := isSupported_bin.mp h
      exact .bin hop (ihl hl) (ihr hr)
  | pow b p ihb _ =>
      obtain ⟨k, rfl, hleaf | hle, hb⟩ := isSupported_pow.mp h
      · cases b with
        | num n => exact .intPow
        | var x => exact .varPow
        | bin | pow | root => cases hleaf
      · exact .pow hle (ihb hb)

/-- Whatever keeps a supported expression from being simplified is a limit. -/
theorem simplify_supported {err : SimplifyError} (he : e.isSupported options.maxExpansion)
    (h : simplify options e = .error err) :
    (∀ operation x, err ≠ .unsupported operation x) ∧
      ((∃ k, err = .exponentTooLarge k) ∨ (∃ n, err = .radicandTooLarge n) ∨
        ∃ limit, err = .depthExceeded limit) := by
  have hlimit := expanded_simplify (Expr.multiplies_of_isSupported he)
  rw [h] at hlimit
  cases err with
  | unsupported operation x => exact hlimit.elim
  | exponentTooLarge k => exact ⟨nofun, .inl ⟨k, rfl⟩⟩
  | radicandTooLarge n => exact ⟨nofun, .inr (.inl ⟨n, rfl⟩)⟩
  | depthExceeded limit => exact ⟨nofun, .inr (.inr ⟨limit, rfl⟩)⟩

/-- The power of a variable is kept, however large it is, and only its square
is too large: `√((x^(2^63))^2) - 1`. -/
theorem simplify_supported_squareOfPower :
    (Expr.bin .sub (.root (.pow (.pow (.var "x") (.num (2 ^ 63))) (.num 2))) (.num 1)).isSupported
        16 ∧
      simplify {} (.bin .sub (.root (.pow (.pow (.var "x") (.num (2 ^ 63))) (.num 2))) (.num 1)) =
        .error (.exponentTooLarge (2 ^ 64)) ∧
      ∀ operation x, SimplifyError.exponentTooLarge (2 ^ 64) ≠ .unsupported operation x := by
  have he : (Expr.bin .sub (.root (.pow (.pow (.var "x") (.num (2 ^ 63))) (.num 2)))
      (.num 1)).isSupported 16 := by
    decide
  have h : simplify {} (.bin .sub (.root (.pow (.pow (.var "x") (.num (2 ^ 63))) (.num 2)))
      (.num 1)) = .error (.exponentTooLarge (2 ^ 64)) := by
    rfl
  exact ⟨he, h, (simplify_supported he h).1⟩

/-! ## The results

A term whose coefficient is zero does not show its root, so the term that a
result is written from can be chosen without one. -/

theorem Term.expanded_of_toExpr (hcoeff : t.coeff ≠ 0) (h : t.toExpr.Expanded roots sums) :
    t.Expanded roots := by
  intro r hr
  cases h.factors _ (root_mem_factors_toExpr hcoeff hr) with
  | root hroots hr => exact ⟨hroots, hr⟩

open Canonical

/-- What comes out where everything multiplies. The exponent of a lone power
may be larger than the exponents in terms. -/
inductive Simplest (roots : Bool) : Expr → Prop where
  | term {t : Term} : FixedTerm t → t.Expanded roots → Simplest roots t.toExpr
  | sum {ts : List Term} : (∀ t ∈ ts, t.Expanded roots) → Unlike ts → Simplest roots (sumOf ts)
  | varPow {x : String} {k : Nat} : 2 ≤ k → Simplest roots (.pow (.var x) (.num k))

theorem simplest_of_fixed (hfixed : Fixed options e) (h : e.Expanded roots true) :
    Simplest roots e := by
  cases hfixed with
  | @term t ht =>
      by_cases hcoeff : t.coeff = 0
      · rw [Term.toExpr_zero hcoeff, ← Term.toExpr_zero (t := ⟨0, .one, none⟩) rfl]
        exact .term (fixedTerm_of_radical rfl) (.of_none rfl)
      · exact .term ht (Term.expanded_of_toExpr hcoeff h)
  | @sum ts _ hunlike =>
      refine .sum (fun t ht => ?_) hunlike
      have hmem : t.toExpr ∈ (sumOf ts).addends :=
        hunlike.addends_sumOf ▸ List.mem_map_of_mem ht
      exact Term.expanded_of_toExpr (hunlike.coeff_ne_zero t ht) (h.addends _ hmem)
  | quotient _ _ => cases h
  | power _ _ hpower _ =>
      cases h with
      | varPow => exact .varPow hpower

theorem simplest_simplify (he : e.Multiplies roots options.maxExpansion)
    (h : simplify options e = .ok e') : Simplest roots e' := by
  have hyields := expanded_simplify he
  rw [h] at hyields
  exact simplest_of_fixed (fixed_simplify h) hyields

end Surd
