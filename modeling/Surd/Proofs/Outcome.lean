import Surd.Expr.Shape
import Surd.Proofs.Sequencing
import Surd.Simplify

/-!
# What a successful simplification has done

One statement for each operation of the simplifier: if it gives a result, then
its parts gave theirs, and the result is put together from them in this way.
Everything proved about results later takes an operation apart by its
statement here and never unfolds it.

Errors do not appear. The only operation that goes on after one is `expand`,
whose statement says that the base could not be multiplied out.
-/

namespace Surd

variable {options : Options} {level : Level} {e l r : Expr} {es factors : List Expr}
  {s t t' : Term}

/-! ## Numbers and variables -/

theorem Integer.power_eq_ok {b n : Int} {k : Nat} :
    Integer.power b k = .ok n ↔ Integer.power? b k = some n := by
  rw [Integer.power]
  cases Integer.power? b k <;> simp

theorem Integer.squareSplit_eq_ok {n : Int} {s : Integer.SquareSplit} :
    Integer.squareSplit n = .ok s ↔ Integer.squareSplit? n = some s := by
  rw [Integer.squareSplit]
  cases Integer.squareSplit? n <;> simp

theorem Term.mulVar_eq_ok {x : String} {k : Nat} :
    t.mulVar x k = .ok t' ↔ ∃ vars, t.vars.mulVar? x k = some vars ∧ t' = { t with vars } := by
  rw [Term.mulVar]
  cases t.vars.mulVar? x k <;> simp [eq_comm]

theorem Term.mulPower_eq_ok {b e : Expr} (h : t.mulPower b e = .ok t') :
    ∃ k, e.exponent? = some k ∧
      ((∃ m n, b = .num m ∧ Integer.power? m k = some n ∧ t' = t.mulInt n) ∨
        ∃ x, b = .var x ∧ k ≤ maxExponent ∧ t.mulVar x k = .ok t') := by
  simp only [Term.mulPower] at h
  split at h
  · next k m he =>
      obtain ⟨n, hn, ht⟩ := bind_eq_ok.mp h
      exact ⟨k, he, .inl ⟨m, n, rfl, Integer.power_eq_ok.mp hn, (pure_eq_ok.mp ht).symm⟩⟩
  · next k x he =>
      split at h
      · next hk => exact ⟨k, he, .inr ⟨x, rfl, hk, h⟩⟩
      · cases h
  · cases h
  · cases h

/-! ## Roots in a term -/

/-- The factors that a root is merged from: those under the root of the term
and those of the radicand that comes in. -/
def Term.merged (t : Term) (incoming : Expr) : List Expr :=
  t.radicalFactors ++ incoming.factors

theorem Term.mem_merged {f : Expr} :
    f ∈ t.merged e ↔ (∃ r, t.radical = some r ∧ f ∈ r.factors) ∨ f ∈ e.factors := by
  rw [Term.merged, List.mem_append, Term.radicalFactors]
  cases t.radical <;> simp

theorem Term.merged_of_radical (ht : t.radical = none) : t.merged e = e.factors := by
  rw [Term.merged, Term.radicalFactors, ht]
  rfl

theorem Term.extract_eq_ok {radicand : Expr} {left : List Expr}
    (h : Term.extract level radicand t factors = .ok (t', left)) :
    ∃ inner split, level.normalize factors = .ok inner ∧
      Integer.squareSplit? inner.coeff = some split ∧
      (t.mulInt split.outside).mulHalves inner.vars = .ok t' ∧
      left = inner.leftovers split.inside := by
  obtain ⟨inner, hinner, h⟩ := bind_eq_ok.mp h
  obtain ⟨split, hsplit, h⟩ := bind_eq_ok.mp h
  obtain ⟨t₁, ht₁, h⟩ := bind_eq_ok.mp h
  obtain ⟨rfl, rfl⟩ : t₁ = t' ∧ inner.leftovers split.inside = left := by
    simpa using pure_eq_ok.mp h
  exact ⟨inner, split, mapError_eq_ok.mp hinner, Integer.squareSplit_eq_ok.mp hsplit, ht₁, rfl⟩

/-- Without sums among the factors, one extraction is all there is to merging
a root. -/
theorem Term.mulRoot_eq_extract (h : ∀ f ∈ t.merged e, f.isSum = false) :
    t.mulRoot level e = do
      let (t, left) ← Term.extract level e { t with radical := none } (t.merged e)
      return { t with radical := Expr.chain? .mul left } := by
  have hsums : (t.merged e).filter Expr.isSum = [] :=
    List.filter_eq_nil_iff.mpr fun f hf => by simp [h f hf]
  have hrest : (t.merged e).filter (not ∘ Expr.isSum) = t.merged e :=
    List.filter_eq_self.mpr fun f hf => by simp [h f hf]
  rw [Term.mulRoot, ← Term.merged]
  rw [List.partition_eq_filter_filter, hsums, hrest]
  refine bind_congr fun p => ?_
  obtain ⟨t₁, left⟩ := p
  cases left <;> rfl

/-- What becomes of the root of a term: a product, a sum that came in whole, a
sum that was multiplied out, or a product that such a sum cancelled down to. -/
theorem Term.mulRoot_eq_ok {incoming : Expr} (h : t.mulRoot level incoming = .ok t') :
    ∃ t₁ left,
      Term.extract level incoming { t with radical := none }
          ((t.merged incoming).filter fun f => !f.isSum) = .ok (t₁, left) ∧
        (((t.merged incoming).filter Expr.isSum = [] ∧
            t' = { t₁ with radical := Expr.chain? .mul left }) ∨
          (∃ s, (t.merged incoming).filter Expr.isSum = [s] ∧ left = [] ∧
            t' = { t₁ with radical := some s }) ∨
          ∃ canonical,
            level.simplify (.product
              (left ++ sortByText ((t.merged incoming).filter Expr.isSum))) = .ok canonical ∧
            ((canonical.isSum ∧ t' = { t₁ with radical := some canonical }) ∨
              ∃ t₂ left₂, Term.extract level canonical t₁ canonical.factors = .ok (t₂, left₂) ∧
                t' = { t₂ with radical := Expr.chain? .mul left₂ })) := by
  rw [Term.mulRoot] at h
  rw [List.partition_eq_filter_filter] at h
  obtain ⟨⟨t₁, left⟩, hex, h⟩ := bind_eq_ok.mp h
  refine ⟨t₁, left, hex, ?_⟩
  simp only at h
  split at h
  · next hsums =>
      refine .inl ⟨?_, (pure_eq_ok.mp h).symm⟩
      exact List.perm_nil.mp (hsums ▸ (sortByText_perm _).symm)
  · next s hsums =>
      refine .inr (.inl ⟨s, ?_, rfl, (pure_eq_ok.mp h).symm⟩)
      exact List.perm_singleton.mp (hsums ▸ (sortByText_perm _).symm)
  · refine .inr (.inr ?_)
    obtain ⟨canonical, hcanonical, h⟩ := bind_eq_ok.mp h
    refine ⟨canonical, hcanonical, ?_⟩
    split at h
    · next hsum => exact .inl ⟨hsum, (pure_eq_ok.mp h).symm⟩
    · obtain ⟨⟨t₂, left₂⟩, hex₂, h⟩ := bind_eq_ok.mp h
      exact .inr ⟨t₂, left₂, hex₂, (pure_eq_ok.mp h).symm⟩

/-! ## Products and sums -/

/-- A product is absorbed factor by factor, whatever its grouping. -/
theorem Term.absorb_eq_foldlM (level : Level) (t : Term) (e : Expr) :
    t.absorb level e = e.factors.foldlM (Term.absorb level) t := by
  induction e generalizing t with
  | num n => simp [Expr.operands]
  | var x => simp [Expr.operands]
  | pow b k => simp [Expr.operands]
  | root e => simp [Expr.operands]
  | bin op l r ihl ihr =>
      cases op with
      | mul =>
          rw [Expr.factors_mul, List.foldlM_append, ← ihl, Term.absorb]
          exact bind_congr fun t' => ihr t'
      | add => simp [Expr.operands]
      | sub => simp [Expr.operands]
      | div => simp [Expr.operands]

/-- Only the roots among its factors change the root of the term that absorbs
an expression. What each of them preserves is preserved. -/
theorem Term.absorb_induction {P : Option Expr → Prop} (h : t.absorb level e = .ok t')
    (ht : P t.radical) (hroot : ∀ r, .root r ∈ e.factors → ∀ s s' : Term, P s.radical →
      s.mulRoot level r = .ok s' → P s'.radical) : P t'.radical := by
  induction e generalizing t t' with
  | num n => exact Except.ok.inj h ▸ ht
  | var x =>
      obtain ⟨vars, -, rfl⟩ := mulVar_eq_ok.mp (mapError_eq_ok.mp h)
      exact ht
  | pow b k =>
      obtain ⟨m, -, ⟨_, n, -, -, rfl⟩ | ⟨x, -, -, hx⟩⟩ := mulPower_eq_ok (mapError_eq_ok.mp h)
      · exact ht
      · obtain ⟨vars, -, rfl⟩ := mulVar_eq_ok.mp hx
        exact ht
  | root r => exact hroot r (List.mem_singleton_self _) t t' ht (mapError_eq_ok.mp h)
  | bin op l r ihl ihr =>
      cases op with
      | mul =>
          rw [Expr.factors_mul] at hroot
          obtain ⟨t₁, ht₁, h⟩ := bind_eq_ok.mp h
          have hl := ihl ht₁ ht fun r hr => hroot r (List.mem_append_left _ hr)
          exact ihr h hl fun r hr => hroot r (List.mem_append_right _ hr)
      | add | sub | div => cases h

/-- Normalizing looks at the factors of each operand only. -/
theorem normalize_eq_flatMap (level : Level) (es : List Expr) :
    normalize level es = normalize level (es.flatMap Expr.factors) := by
  suffices h : ∀ t : Term, es.foldlM (Term.absorb level) t =
      (es.flatMap Expr.factors).foldlM (Term.absorb level) t from h .one
  induction es with
  | nil => intro t; rfl
  | cons e es ih =>
      intro t
      rw [List.foldlM_cons, List.flatMap_cons, List.foldlM_append, Term.absorb_eq_foldlM]
      exact bind_congr fun t' => ih t'

/-- The same for a product: its root comes about in the roots among its factors
alone. -/
theorem normalize_induction {P : Option Expr → Prop} (h : normalize level es = .ok t)
    (hnone : P none) (hroot : ∀ f ∈ es, ∀ r, .root r ∈ f.factors → ∀ s s' : Term, P s.radical →
      s.mulRoot level r = .ok s' → P s'.radical) : P t.radical :=
  foldlM_induction (P := fun s => P s.radical) h hnone fun f hf _ _ hs hs' =>
    Term.absorb_induction hs' hs (hroot f hf)

/-- The groups that terms fall into are summed up in the order of their first
members. -/
theorem collect_eq_ok (h : collect level es = .ok e) :
    ∃ terms, List.Forall₂ (fun a t => normalize level [a] = .ok t)
        (es.flatMap Expr.addends) terms ∧
      e = .sum ((Term.combine terms).map Term.toExpr) := by
  obtain ⟨terms, hterms, h⟩ := bind_eq_ok.mp h
  refine ⟨terms, ?_, (pure_eq_ok.mp h).symm⟩
  exact (mapM_eq_ok.mp hterms).imp fun _ _ hat => mapError_eq_ok.mp hat

/-- The pairs of addends that a product is distributed over. -/
def addendPairs (l r : Expr) : List (Expr × Expr) :=
  l.addends.flatMap fun a => r.addends.map fun b => (a, b)

theorem mem_addendPairs {a b : Expr} :
    (a, b) ∈ addendPairs l r ↔ a ∈ l.addends ∧ b ∈ r.addends := by
  simp [addendPairs]

theorem distribute_eq_ok (h : distribute level l r = .ok e) :
    ∃ products, List.Forall₂ (fun p t => normalize level [p.1, p.2] = .ok t)
        (addendPairs l r) products ∧
      collect level (products.map Term.toExpr) = .ok e := by
  obtain ⟨products, hproducts, h⟩ := bind_eq_ok.mp h
  refine ⟨products, ?_, h⟩
  exact (mapM_eq_ok.mp hproducts).imp fun _ _ hat => mapError_eq_ok.mp hat

theorem multiply_eq_ok (h : multiply level l r = .ok e) :
    (∃ t, normalize level [l, r] = .ok t ∧ e = t.toExpr) ∨ distribute level l r = .ok e := by
  rw [multiply] at h
  split at h
  · next t ht => exact .inl ⟨t, ht, (Except.ok.inj h).symm⟩
  · exact .inr h
  · cases h

theorem multiplyAll_eq_ok (h : multiplyAll level es = .ok e) :
    (∃ t, normalize level es = .ok t ∧ e = t.toExpr) ∨
      ∃ f fs, es = f :: fs ∧ fs.foldlM (multiply level) f = .ok e := by
  simp only [multiplyAll] at h
  split at h
  · next t ht => exact .inl ⟨t, ht, (Except.ok.inj h).symm⟩
  · next hsum =>
      split at h
      · cases hsum
      · next f fs => exact .inr ⟨f, fs, rfl, h⟩
  · cases h

/-! ## Roots

The rules for integers and for powers of variables write down the term that
the root is, so they are read as statements about terms. -/

/-- The root of an integer, given its split. -/
def Term.ofSplit (s : Integer.SquareSplit) : Term :=
  ⟨s.outside, .one, if s.inside = 1 then none else some (.num s.inside)⟩

theorem Term.eq_of_radical_ofSplit {s : Integer.SquareSplit}
    (h : (Term.ofSplit s).radical = some r) : s.inside ≠ 1 ∧ r = .num s.inside := by
  simp only [Term.ofSplit, Option.ite_none_left_eq_some, Option.some.injEq] at h
  exact ⟨h.1, h.2.symm⟩

theorem rootOfInt_eq_ok {n : Int} (h : rootOfInt n = .ok e) :
    ∃ s, Integer.squareSplit? n = some s ∧ e = (Term.ofSplit s).toExpr := by
  obtain ⟨s, hs, h⟩ := bind_eq_ok.mp h
  refine ⟨s, Integer.squareSplit_eq_ok.mp hs, ?_⟩
  rw [← Except.ok.injEq (ε := SimplifyError), ← h]
  unfold Term.toExpr Term.toFactors
  by_cases h0 : s.outside = 0
  · simp [Term.ofSplit, h0, pure, Except.pure]
  · have hone : (s.outside : Int) = 1 ↔ s.outside = 1 := by omega
    by_cases h1 : s.inside = 1 <;> by_cases h2 : s.outside = 1 <;>
      simp [Term.ofSplit, h0, h1, h2, hone, pure, Except.pure, Powers.one, Expr.product,
        Expr.chain?]

/-- The root of `x ^ k`, given the power of `x` that comes out whole. -/
def Term.ofHalf (half : Powers) (x : String) (k : Nat) : Term :=
  ⟨1, half, if k % 2 = 1 then some (.var x) else none⟩

theorem Term.eq_of_radical_ofHalf {half : Powers} {x : String} {k : Nat}
    (h : (Term.ofHalf half x k).radical = some r) : r = .var x := by
  simp only [Term.ofHalf, Option.ite_none_right_eq_some, Option.some.injEq] at h
  exact h.2.symm

theorem rootOfVarPow_eq_ok {x : String} {k : Nat} (h : rootOfVarPow x k = .ok e) :
    ∃ half, Powers.one.mulVar? x (k / 2) = some half ∧ e = (Term.ofHalf half x k).toExpr := by
  rw [rootOfVarPow] at h
  split at h
  · next hk =>
      obtain rfl := Except.ok.inj h
      have hle : Powers.one.exponent x + k / 2 ≤ maxExponent := by
        rw [Powers.exponent_one]
        omega
      rw [Powers.mulVar?]
      by_cases h0 : k / 2 = 0
      · refine ⟨.one, by simp [h0], ?_⟩
        by_cases h1 : k % 2 = 1 <;>
          simp [h0, h1, Term.ofHalf, Term.toExpr, Term.toFactors, Powers.one]
      · refine ⟨_, by rw [dif_neg h0, dif_pos hle], ?_⟩
        by_cases h1 : k % 2 = 1 <;>
          simp [h0, h1, Term.ofHalf, Term.toExpr, Term.toFactors, Powers.one, Powers.raise]
  · cases h

theorem eq_num_of_exponent? {k : Nat} (h : e.exponent? = some k) : e = .num k := by
  simp only [Expr.exponent?] at h
  split at h
  · obtain rfl := Option.some.inj h
    rfl
  · cases h

theorem Expr.exponent?_any_le {bound : Nat} :
    e.exponent?.any (· ≤ bound) ↔ ∃ k : Nat, e = .num k ∧ k ≤ bound := by
  constructor
  · intro h
    obtain ⟨k, hk, hle⟩ := (Option.any_eq_true _ _).mp h
    exact ⟨k, eq_num_of_exponent? hk, decide_eq_true_iff.mp hle⟩
  · rintro ⟨k, rfl, hle⟩
    exact decide_eq_true hle

/-- The ways the root of `r` can come out. -/
inductive RootOutcome (level : Level) : Expr → Expr → Prop where
  | int {n : Int} {e : Expr} : rootOfInt n = .ok e → RootOutcome level (.num n) e
  | var {x : String} : RootOutcome level (.var x) (.root (.var x))
  | intPow {n m : Int} {k : Nat} {e : Expr} : Integer.power? n k = some m →
      rootOfInt m = .ok e → RootOutcome level (.pow (.num n) (.num k)) e
  | varPow {x : String} {k : Nat} {e : Expr} : rootOfVarPow x k = .ok e →
      RootOutcome level (.pow (.var x) (.num k)) e
  | merged {r e : Expr} : multiply level (.num 1) (.root r) = .ok e → RootOutcome level r e

theorem squareRoot_eq_ok (h : squareRoot level r = .ok e) : RootOutcome level r e := by
  simp only [squareRoot] at h
  split at h
  · exact .int h
  · obtain rfl := Except.ok.inj h
    exact .var
  · split at h
    · next n k hk =>
        obtain rfl := eq_num_of_exponent? hk
        obtain ⟨m, hm, h⟩ := bind_eq_ok.mp h
        exact .intPow (Integer.power_eq_ok.mp hm) h
    · next x k hk =>
        obtain rfl := eq_num_of_exponent? hk
        exact .varPow h
    · exact .merged h
  · exact .merged h

/-! ## Powers -/

/-- A base that is neither an integer nor a variable. -/
def Expr.isProper : Expr → Bool
  | .num _ => false
  | .var _ => false
  | _ => true

/-- The product that a power stands for does not fit into terms. -/
def Unmultiplied (level : Level) (b : Expr) (k : Nat) : Prop :=
  ∃ op x, level.simplify (.product (List.replicate k b)) = .error (.unsupported op x)

/-- The ways the power `b ^ p` can come out. -/
inductive PowerOutcome (options : Options) (level : Level) : Expr → Expr → Expr → Prop where
  | symbolic {b p : Expr} : p.exponent? = none → PowerOutcome options level b p (.pow b p)
  | int {n m : Int} {k : Nat} : Integer.power? n k = some m →
      PowerOutcome options level (.num n) (.num k) (.num m)
  | zero {b : Expr} : PowerOutcome options level b (.num (0 : Nat)) (.num 1)
  | one {b : Expr} : PowerOutcome options level b (.num (1 : Nat)) b
  | var {x : String} {k : Nat} : 2 ≤ k →
      PowerOutcome options level (.var x) (.num k) (.pow (.var x) (.num k))
  | expanded {b e : Expr} {k : Nat} : 2 ≤ k → b.isProper →
      level.simplify (.product (List.replicate k b)) = .ok e →
      PowerOutcome options level b (.num k) e
  | kept {b : Expr} {k : Nat} : 2 ≤ k → b.isProper →
      (k ≤ options.maxExpansion → Unmultiplied level b k) →
      PowerOutcome options level b (.num k) (.pow b (.num k))

theorem expand_eq_ok {b : Expr} {k : Nat} (h : expand level b k = .ok e) :
    level.simplify (.product (List.replicate k b)) = .ok e ∨
      (Unmultiplied level b k ∧ e = .pow b (.num k)) := by
  rw [expand] at h
  split at h
  · next op x hx => exact .inr ⟨⟨op, x, hx⟩, (Except.ok.inj h).symm⟩
  · exact .inl h

theorem power_eq_ok {b p : Expr} (h : power options level b p = .ok e) :
    PowerOutcome options level b p e := by
  simp only [power] at h
  split at h
  · next hp =>
      obtain rfl := Except.ok.inj h
      exact .symbolic hp
  · next k n hp =>
      obtain rfl := eq_num_of_exponent? hp
      obtain ⟨m, hm, h⟩ := bind_eq_ok.mp h
      obtain rfl := pure_eq_ok.mp h
      exact .int (Integer.power_eq_ok.mp hm)
  · next hp _ =>
      obtain rfl := eq_num_of_exponent? hp
      obtain rfl := Except.ok.inj h
      exact .zero
  · next hp _ =>
      obtain rfl := eq_num_of_exponent? hp
      obtain rfl := Except.ok.inj h
      exact .one
  · next k x h0 h1 hp =>
      obtain rfl := eq_num_of_exponent? hp
      obtain rfl := Except.ok.inj h
      have h0 : k ≠ 0 := h0
      have h1 : k ≠ 1 := h1
      exact .var (by omega)
  · next b _ _ k h0 h1 hp hnum hvar =>
      obtain rfl := eq_num_of_exponent? hp
      have h0 : k ≠ 0 := h0
      have h1 : k ≠ 1 := h1
      have hk : 2 ≤ k := by omega
      have hb : b.isProper := by
        cases b with
        | num n => exact (hnum n rfl).elim
        | var x => exact (hvar x rfl).elim
        | _ => rfl
      split at h
      · next hle =>
          rcases expand_eq_ok h with he | ⟨hun, rfl⟩
          · exact .expanded hk hb he
          · exact .kept hk hb fun _ => hun
      · next hgt =>
          obtain rfl := Except.ok.inj h
          exact .kept hk hb fun hle => absurd hle hgt

end Surd
