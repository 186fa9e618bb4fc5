import Mathlib.Algebra.Order.BigOperators.GroupWithZero.List
import Mathlib.Tactic.Ring
import Surd.Proofs.Keys
import Surd.Proofs.Meaning

/-!
# What terms mean

A term is the product of its coefficient, its powers and its root. Where roots
are merged, the powers of variables are halved: a product of powers is the
square of its halves times the variables with odd exponents
(`Powers.value_eq_halves`). That is all that pulling squares out of a root
needs, since the coefficient is split the same way.

Adding up like terms keeps the value because like terms have the same factor
beside their coefficients, which is what their keys are for.
-/

namespace Surd

variable {F : Type _} [Field F] {A : Arithmetic F} {env : String → F} {s t t' : Term}
  {ts : List Term} {e : Expr}

/-! ## Powers -/

namespace Powers

def value (env : String → F) (p : Powers) : F :=
  (p.entries.map fun q => env q.1 ^ q.2).prod

/-- The part of the root of the product that comes out whole. -/
def halves (env : String → F) (p : Powers) : F :=
  (p.entries.map fun q => env q.1 ^ (q.2 / 2)).prod

theorem value_one : Powers.one.value env = 1 := rfl

theorem prod_raise (x : String) (k : Nat) (ps : List (String × Nat)) :
    ((raise x k ps).map fun q => env q.1 ^ q.2).prod =
      (ps.map fun q => env q.1 ^ q.2).prod * env x ^ k := by
  induction ps with
  | nil => simp [raise]
  | cons q ps ih =>
      obtain ⟨y, m⟩ := q
      rw [raise]
      split
      · next hxy =>
          subst hxy
          simp only [List.map_cons, List.prod_cons, pow_add]
          ring
      · split
        · simp only [List.map_cons, List.prod_cons]
          ring
        · simp only [List.map_cons, List.prod_cons, ih]
          ring

theorem value_mulVar? {p q : Powers} {x : String} {k : Nat} (h : p.mulVar? x k = some q) :
    q.value env = p.value env * env x ^ k := by
  rw [mulVar?] at h
  split at h
  · next hk =>
      obtain rfl := Option.some.inj h
      rw [hk, pow_zero, mul_one]
  · split at h
    · obtain rfl := Option.some.inj h
      exact prod_raise x k p.entries
    · cases h

/-- A product of powers is the square of its halves, times what is odd. -/
theorem value_eq_halves (p : Powers) :
    p.value env = p.halves env ^ 2 * p.odd.value env := by
  suffices h : ∀ ps : List (String × Nat), (ps.map fun q => env q.1 ^ q.2).prod =
      (ps.map fun q => env q.1 ^ (q.2 / 2)).prod ^ 2 *
        (((ps.filter fun q => q.2 % 2 = 1).map fun q => (q.1, 1)).map
          fun q => env q.1 ^ q.2).prod from h p.entries
  intro ps
  induction ps with
  | nil => simp
  | cons q ps ih =>
      have hq : env q.1 ^ q.2 = (env q.1 ^ (q.2 / 2)) ^ 2 * env q.1 ^ (q.2 % 2) := by
        rw [← pow_mul, ← pow_add, Nat.div_add_mod']
      rw [List.map_cons, List.prod_cons, ih, hq, List.map_cons, List.prod_cons]
      by_cases hodd : q.2 % 2 = 1
      · rw [List.filter_cons_of_pos (by simpa using hodd), List.map_cons, List.map_cons,
          List.prod_cons, hodd]
        ring
      · rw [List.filter_cons_of_neg (by simpa using hodd), show q.2 % 2 = 0 by omega]
        ring

theorem halves_pos [LinearOrder F] [IsStrictOrderedRing F] (henv : ∀ x, 0 < env x)
    (p : Powers) : 0 < p.halves env := by
  refine List.prod_pos fun v hv => ?_
  obtain ⟨q, -, rfl⟩ := List.mem_map.mp hv
  exact pow_pos (henv q.1) (q.2 / 2)

end Powers

/-! ## Terms -/

namespace Term

/-- What a term multiplies its root with. -/
def scale (env : String → F) (t : Term) : F :=
  t.coeff * t.vars.value env

def rootValue (A : Arithmetic F) (env : String → F) (t : Term) : F :=
  (t.radical.map fun r => A.sqrt (r.value A env)).getD 1

def value (A : Arithmetic F) (env : String → F) (t : Term) : F :=
  t.scale env * t.rootValue A env

theorem value_of_coeff_eq_zero (h : t.coeff = 0) : t.value A env = 0 := by
  rw [value, scale, h, Int.cast_zero, zero_mul, zero_mul]

variable [LinearOrder F]

theorem prod_value_toFactors (hA : A.Lawful) :
    (t.toFactors.map (Expr.value A env)).prod = t.value A env := by
  have hcoeff : ((if t.coeff = 1 then [] else [Expr.num t.coeff]).map (Expr.value A env)).prod =
      t.coeff := by
    split
    · next hone => rw [hone, Int.cast_one]; rfl
    · rw [List.map_singleton, List.prod_singleton, Expr.value, hA.int]
  have hvars : ((t.vars.entries.map fun q => Expr.varPow q.1 q.2).map (Expr.value A env)).prod =
      t.vars.value env := by
    rw [List.map_map]
    exact congrArg List.prod (List.map_congr_left fun q _ => Expr.value_varPow hA)
  have hroot : ((t.radical.map Expr.root).toList.map (Expr.value A env)).prod =
      t.rootValue A env := by
    rw [rootValue]
    cases t.radical with
    | none => rfl
    | some r => exact List.prod_singleton
  rw [toFactors, List.map_append, List.map_append, List.prod_append, List.prod_append, hcoeff,
    hvars, hroot, value, scale]

theorem value_toExpr (hA : A.Lawful) : t.toExpr.value A env = t.value A env := by
  by_cases hcoeff : t.coeff = 0
  · rw [toExpr_zero hcoeff, value_of_coeff_eq_zero hcoeff, Expr.value, hA.int, Int.cast_zero]
  · rw [toExpr, if_neg hcoeff, Expr.value_product hA, prod_value_toFactors hA]

/-- The names are letters, and unless the term is zero its root is defined. -/
structure Defined (A : Arithmetic F) (env : String → F) (t : Term) : Prop where
  names : t.Names Expr.isLetter
  root : t.coeff ≠ 0 → ∀ r, t.radical = some r → (Expr.root r).Defined A env

theorem defined_one : Term.one.Defined A env :=
  ⟨names_one, nofun⟩

theorem Defined.toFactors (h : t.Defined A env) (hcoeff : t.coeff ≠ 0) :
    ∀ f ∈ t.toFactors, f.Defined A env := by
  intro f hf
  rcases mem_toFactors.mp hf with ⟨-, rfl⟩ | ⟨q, hq, rfl⟩ | ⟨r, hr, rfl⟩
  · exact Expr.defined_num t.coeff
  · exact Expr.defined_varPow (h.names.vars q hq)
  · exact h.root hcoeff r hr

theorem Defined.toExpr (h : t.Defined A env) : t.toExpr.Defined A env := by
  by_cases hcoeff : t.coeff = 0
  · rw [toExpr_zero hcoeff]
    exact Expr.defined_num 0
  · rw [Term.toExpr, if_neg hcoeff]
    exact Expr.defined_product (h.toFactors hcoeff)

/-- The term is defined and has the value `v`. -/
structure Means (A : Arithmetic F) (env : String → F) (t : Term) (v : F) : Prop where
  defined : t.Defined A env
  value : t.value A env = v

/-! ## Like terms -/

/-- Terms with the same key multiply their coefficients with the same value,
and the one is defined where the other is. -/
theorem value_of_key_eq (hA : A.Lawful) (hs : s.Names Expr.isLetter) (ht : t.Names Expr.isLetter)
    (h : s.key = t.key) : s.vars.value env = t.vars.value env ∧
      s.rootValue A env = t.rootValue A env ∧
      ((∀ r, t.radical = some r → (Expr.root r).Defined A env) →
        ∀ r, s.radical = some r → (Expr.root r).Defined A env) := by
  obtain ⟨hvars, hradical⟩ := eq_of_key_eq hs ht h
  refine ⟨by rw [hvars], ?_⟩
  cases hs' : s.radical with
  | none =>
      cases ht' : t.radical with
      | none => exact ⟨by rw [rootValue, rootValue, hs', ht'], fun _ => by simp⟩
      | some r =>
          rw [hs', ht'] at hradical
          cases hradical
  | some r =>
      cases ht' : t.radical with
      | none =>
          rw [hs', ht'] at hradical
          cases hradical
      | some r' =>
          rw [hs', ht'] at hradical
          have hleft : r.leftProducts = r'.leftProducts := Option.some.inj hradical
          have hvalue : r.value A env = r'.value A env := by
            rw [← Expr.value_leftProducts hA r, hleft, Expr.value_leftProducts hA r']
          have hradicands : r.radicandValues A env = r'.radicandValues A env := by
            rw [← Expr.radicandValues_leftProducts hA r, hleft,
              Expr.radicandValues_leftProducts hA r']
          refine ⟨by rw [rootValue, rootValue, hs', ht']; exact congrArg A.sqrt hvalue, ?_⟩
          intro hdefined u hu
          obtain rfl := Option.some.inj hu
          obtain ⟨hr', hnonneg⟩ := Expr.defined_root.mp (hdefined r' rfl)
          refine Expr.defined_root.mpr ⟨⟨hs.radical r hs', ?_⟩, hvalue ▸ hnonneg⟩
          rw [hradicands]
          exact hr'.radicands

theorem Defined.addLike (hA : A.Lawful) (hs : s.Defined A env) (ht : t.Defined A env)
    (h : s.key = t.key) :
    ({ s with coeff := s.coeff + t.coeff } : Term).Means A env
      (s.value A env + t.value A env) := by
  obtain ⟨hvars, hroot, hdefined⟩ := value_of_key_eq hA hs.names ht.names h
  refine ⟨⟨⟨hs.names.vars, hs.names.radical⟩, fun hcoeff => ?_⟩, ?_⟩
  · by_cases hzero : s.coeff = 0
    · have hne : t.coeff ≠ 0 := fun h0 => hcoeff (by rw [hzero, h0]; rfl)
      exact hdefined (ht.root hne)
    · exact hs.root hzero
  · show ((s.coeff + t.coeff : Int) * s.vars.value env) * s.rootValue A env = _
    rw [Term.value, Term.value, scale, scale, ← hvars, ← hroot, Int.cast_add]
    ring

/-- The groups hold defined terms under their own keys. -/
def Labelled (A : Arithmetic F) (env : String → F) (groups : List (String × Term)) : Prop :=
  ∀ g ∈ groups, g.1 = g.2.key ∧ g.2.Defined A env

theorem Labelled.addLike (hA : A.Lawful) {groups : List (String × Term)}
    (h : Labelled A env groups) (ht : t.Defined A env) :
    Labelled A env (addLike t.key t groups) ∧
      ((addLike t.key t groups).map fun g => g.2.value A env).sum =
        (groups.map fun g => g.2.value A env).sum + t.value A env := by
  induction groups with
  | nil =>
      refine ⟨fun g hg => ?_, by simp [Term.addLike]⟩
      obtain rfl := List.mem_singleton.mp hg
      exact ⟨rfl, ht⟩
  | cons g groups ih =>
      obtain ⟨key, s⟩ := g
      obtain ⟨hkey, hs⟩ := h _ List.mem_cons_self
      have htail : Labelled A env groups := fun g hg => h g (List.mem_cons_of_mem _ hg)
      rw [Term.addLike]
      split
      · next heq =>
          have hmeans := hs.addLike hA ht (hkey.symm.trans heq)
          refine ⟨fun g hg => ?_, ?_⟩
          · rcases List.mem_cons.mp hg with rfl | hg
            · exact ⟨hkey, hmeans.defined⟩
            · exact htail g hg
          · rw [List.map_cons, List.sum_cons, hmeans.value, List.map_cons, List.sum_cons]
            ring
      · obtain ⟨hlabelled, hsum⟩ := ih htail
        refine ⟨fun g hg => ?_, ?_⟩
        · rcases List.mem_cons.mp hg with rfl | hg
          · exact ⟨hkey, hs⟩
          · exact hlabelled g hg
        · rw [List.map_cons, List.sum_cons, hsum, List.map_cons, List.sum_cons, add_assoc]

theorem Labelled.addAll (hA : A.Lawful) {groups : List (String × Term)}
    (h : Labelled A env groups) (hts : ∀ t ∈ ts, t.Defined A env) :
    Labelled A env (addAll groups ts) ∧
      ((addAll groups ts).map fun g => g.2.value A env).sum =
        (groups.map fun g => g.2.value A env).sum + (ts.map (Term.value A env)).sum := by
  induction ts generalizing groups with
  | nil => exact ⟨h, (add_zero _).symm⟩
  | cons t ts ih =>
      obtain ⟨hnext, hsum⟩ := h.addLike hA (hts t List.mem_cons_self)
      obtain ⟨hall, hsum'⟩ := ih hnext fun t' ht' => hts t' (List.mem_cons_of_mem t ht')
      refine ⟨hall, hsum'.trans ?_⟩
      rw [hsum, List.map_cons, List.sum_cons, add_assoc]

omit [LinearOrder F] in
theorem sum_value_filter (us : List Term) :
    ((us.filter fun t => t.coeff ≠ 0).map (Term.value A env)).sum =
      (us.map (Term.value A env)).sum := by
  induction us with
  | nil => rfl
  | cons u us ih =>
      by_cases hu : u.coeff = 0
      · rw [List.filter_cons_of_neg (by simpa using hu), ih, List.map_cons, List.sum_cons,
          value_of_coeff_eq_zero hu, zero_add]
      · rw [List.filter_cons_of_pos (by simpa using hu), List.map_cons, List.sum_cons, ih,
          List.map_cons, List.sum_cons]

/-- Combining like terms keeps their sum. -/
theorem defined_combine (hA : A.Lawful) (hts : ∀ t ∈ ts, t.Defined A env) :
    (∀ t ∈ combine ts, t.Defined A env) ∧
      ((combine ts).map (Term.value A env)).sum = (ts.map (Term.value A env)).sum := by
  obtain ⟨hlabelled, hsum⟩ := Labelled.addAll hA (List.forall_mem_nil _) hts
  rw [combine_eq]
  refine ⟨fun t ht => ?_, ?_⟩
  · obtain ⟨g, hg, rfl⟩ := List.mem_map.mp (List.mem_filter.mp ht).1
    exact (hlabelled g hg).2
  · rw [sum_value_filter, List.map_map]
    rw [List.map_nil, List.sum_nil, zero_add] at hsum
    exact hsum

end Term

end Surd
