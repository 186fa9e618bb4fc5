import Surd.Proofs.Operands

/-!
# Products can be found in stages

A product is handed from one operation to the next as an expression, and each of
them reads its factors again. Nothing is lost on the way: the factors of a
written term multiply back to the term, with the levels that were there to find
it. So it makes no difference whether a product is found all at once or in
stages (`normalize_inStages`).

What stands in front of a root is put back at any level. The root is another
matter, because putting it back looks at what is under it, one level deeper. It
was put together at this level, and there are two ways in which that can have
happened. A sum was put under it as a whole, and is again. Or it holds what was
left of a product that the level below has found; then what is left has the root
of that product, and the level below can put this one back (`Level.Rebuilds`).
How deep the roots of the factors are nested plays no part, and the factors need
not have been simplified.

A coefficient of `0` is written without the rest of its term, so the expression
of a product that vanishes does not show which root it had.
-/

namespace Surd

open Canonical

variable {options : Options} {lv : Level} {e r : Expr} {fs left : List Expr} {t t' : Term} {n : Nat}

/-- When the level has found a product, it finds every other term that has the
same root or none from its factors. -/
def Level.Rebuilds (lv : Level) : Prop :=
  ∀ {fs t}, lv.normalize fs = .ok t → ∀ s : Term,
    (∀ r, s.radical = some r → t.radical = some r) → lv.normalize s.toFactors = .ok s

/-- A root over the expression can be put back where there is none. -/
def Level.PutsBack (lv : Level) (e : Expr) : Prop :=
  ∀ t : Term, t.radical = none → t.mulRoot lv e = .ok { t with radical := some e }

/-! ## One step -/

section Step

variable (hlevel : lv.Rebuilds)
include hlevel

theorem putsBack_chain? (hex : Term.extract lv e t fs = .ok (t', left))
    (hr : Expr.chain? .mul left = some r) : lv.PutsBack r := by
  obtain ⟨inner, split, hinner, hsplit, -, rfl⟩ := Term.extract_eq_ok hex
  have hinside := Integer.squareSplit?_inside hsplit
  obtain ⟨hone, rfl⟩ := Term.chain?_leftovers (squareFree_of_split hinside).ne_zero hr
  -- what is left has the root of `inner`
  have hleftover := hlevel hinner (inner.leftover split.inside) fun _ hr => hr
  exact fun s hs =>
    mulRoot_toExpr hleftover hinside (fun _ hq => Powers.snd_of_mem_odd hq) hone hs

theorem putsBack_of_isSum (hex : Term.extract lv e t fs = .ok (t', left)) (hr : r.isSum) :
    lv.PutsBack r := by
  obtain ⟨inner, _, hinner, -⟩ := Term.extract_eq_ok hex
  have hempty : lv.normalize [] = .ok .one := hlevel hinner .one nofun
  exact fun s hs => mulRoot_of_isSum hempty hr hs

theorem putsBack_mulRoot (hok : t.mulRoot lv e = .ok t') :
    ∀ r, t'.radical = some r → lv.PutsBack r := by
  obtain ⟨t₁, left, hex, hcases⟩ := Term.mulRoot_eq_ok hok
  rcases hcases with ⟨-, rfl⟩ | ⟨a, ha, -, rfl⟩ | ⟨canonical, -, hcases⟩
  · exact fun r hr => putsBack_chain? hlevel hex hr
  · have hmem : a ∈ (t.merged e).filter Expr.isSum := ha ▸ List.mem_singleton_self a
    have hsum := putsBack_of_isSum hlevel hex (List.mem_filter.mp hmem).2
    exact fun r hr => Option.some.inj hr ▸ hsum
  · rcases hcases with ⟨hsum, rfl⟩ | ⟨t₂, left₂, hex₂, rfl⟩
    · exact fun r hr => Option.some.inj hr ▸ putsBack_of_isSum hlevel hex hsum
    · exact fun r hr => putsBack_chain? hlevel hex₂ hr

theorem putsBack_normalize (hok : normalize lv fs = .ok t) :
    ∀ r, t.radical = some r → lv.PutsBack r :=
  normalize_induction (P := fun radical => ∀ r, radical = some r → lv.PutsBack r) hok nofun
    fun _ _ _ _ _ _ _ hs => putsBack_mulRoot hlevel hs

end Step

/-! ## Every level -/

theorem rebuilds_level (options : Options) (n : Nat) : (level options n).Rebuilds := by
  induction n with
  | zero =>
      intro fs t h
      cases h
  | succ n ih =>
      intro fs t h s hs
      exact Term.normalize_toFactors fun r hr => putsBack_normalize ih h r (hs r hr) _ rfl

/-- A product is found again from the factors of its expression. -/
theorem normalize_factors_toExpr (h : normalize (level options n) fs = .ok t)
    (hcoeff : t.coeff ≠ 0) : normalize (level options n) t.toExpr.factors = .ok t := by
  have hput := putsBack_normalize (rebuilds_level options n) h
  rw [normalize, ← Term.absorb_eq_foldlM, Term.absorb_toExpr _ _ hcoeff]
  exact Term.normalize_toFactors fun r hr => hput r hr _ rfl

/-- A product that was found can be written down before it is multiplied
further: the outcome is the same, whether it is a term, a sum to distribute over
or an error. -/
theorem normalize_inStages (h : normalize (level options n) fs = .ok t) (hcoeff : t.coeff ≠ 0) :
    normalize (level options n) t.toExpr.factors = .ok t ∧
      ∀ gs, normalize (level options n) (t.toExpr.factors ++ gs) =
        normalize (level options n) (fs ++ gs) := by
  have hagain := normalize_factors_toExpr h hcoeff
  have happend (es gs : List Expr) : normalize (level options n) (es ++ gs) =
      normalize (level options n) es >>= fun t => gs.foldlM (Term.absorb _) t :=
    List.foldlM_append
  exact ⟨hagain, fun gs => by rw [happend, happend, hagain, h]⟩

/-- `0√2` is written `0`. -/
example : normalize (level {} 1) [.num 0, .root (.num 2)] = .ok ⟨0, .one, some (.num 2)⟩ ∧
    normalize (level {} 1) (Term.mk 0 .one (some (.num 2))).toExpr.factors =
      .ok ⟨0, .one, none⟩ :=
  ⟨rfl, rfl⟩

/-- `√(c√3)`. -/
def rootOver (c : Int) : Expr :=
  .root (.bin .mul (.num c) (.root (.num 3)))

/-- The factors of `2x√(2√3)√6`. -/
def twoRoots : List Expr :=
  [.bin .mul (.num 2) (.var "x"), rootOver 2, .root (.num 6)]

/-- `4x√(3√3)`. -/
def mergedRoots : Term :=
  ⟨4, .var "x", some (.bin .mul (.num 3) (.root (.num 3)))⟩

/-- Two levels are just enough to merge the roots and to put the merged one back.
Multiplied by `√(3√3)`, both stages lead to `12x√3`. -/
theorem normalize_inStages_nestedRoots :
    (∀ f ∈ twoRoots, simplify {} f = .ok f) ∧
      normalize (level {} 2) twoRoots = .ok mergedRoots ∧ mergedRoots.coeff ≠ 0 ∧
      mergedRoots.toExpr.factors = [.num 4, .var "x", rootOver 3] ∧
      normalize (level {} 2) mergedRoots.toExpr.factors = .ok mergedRoots ∧
      normalize (level {} 2) (mergedRoots.toExpr.factors ++ [rootOver 3]) =
        normalize (level {} 2) (twoRoots ++ [rootOver 3]) ∧
      normalize (level {} 2) (twoRoots ++ [rootOver 3]) =
        .ok ⟨12, .var "x", some (.num 3)⟩ := by
  have hfs : ∀ f ∈ twoRoots, simplify {} f = .ok f := by
    simp only [twoRoots, List.forall_mem_cons, List.not_mem_nil, false_implies, implies_true,
      and_true]
    exact ⟨by rfl, by rfl, by rfl⟩
  have h : normalize (level {} 2) twoRoots = .ok mergedRoots := by rfl
  have hcoeff : mergedRoots.coeff ≠ 0 := by decide
  obtain ⟨hagain, hstages⟩ := normalize_inStages h hcoeff
  exact ⟨hfs, h, hcoeff, by rfl, hagain, hstages [rootOver 3], by rfl⟩

end Surd
