import Surd.Proofs.Commuting
import Surd.Proofs.Preservation

/-!
# The order of roots over sums

Roots are merged one after the other. When a sum is merged with a sum, the two
are put in the order of their texts and multiplied out, so it makes no
difference which of the first two roots comes first
(`normalize_firstRoots_comm`).

Sorting does not reach further than that. What has been multiplied out is one
sum, and with a third sum it is that sum's text which is compared, not
the texts of the two it was made from. The order of the addends under the merged root
then shows which two were merged first. So three roots in another order can
give terms that are not alike (`normalize_threeRoots`).

Nor is the order of the addends all that can differ. Two sums can cancel down
to a square, which moves out of the root. If a third sum has been multiplied in
before, the square is a factor of each addend of what comes out, and nothing
moves out of a sum. Then the coefficients differ as well: `2√(x + 1)` in one
order is `√(4x + 4)` in another.

The terms have the same value all the same, whatever the factors and their
order are (`value_eq_of_perm`).
-/

namespace Surd

variable {options : Options} {fs gs : List Expr} {t u : Term} {n : Nat}

/-- The order of factors does not change the value of their product, wherever
the variables are positive and no radicand in a factor is negative. -/
theorem value_eq_of_perm {F : Type _} [Field F] [LinearOrder F] [IsStrictOrderedRing F]
    {A : Arithmetic F} {env : String → F} (hA : A.Lawful) (henv : ∀ x, 0 < env x)
    (hperm : fs.Perm gs) (hfs : ∀ f ∈ fs, f.Defined A env)
    (hf : normalize (level options n) fs = .ok t) (hg : normalize (level options n) gs = .ok u) :
    t.value A env = u.value A env := by
  have hlevel := preserves_level hA henv options n
  have hgs : ∀ g ∈ gs, g.Defined A env := fun g hg => hfs g (hperm.mem_iff.mpr hg)
  rw [(means_normalize hA henv hlevel hfs hf).value, (means_normalize hA henv hlevel hgs hg).value]
  exact (hperm.map _).prod_eq

namespace Canonical

variable {a b e₁ e₂ : Expr}

theorem Fixed.fixedRadicand (h : Fixed options a) (ha : a.isSum) : FixedRadicand a := by
  refine h.fixedRadicand_of_isSum ?_ ha
  rw [Expr.factors_of_isSum ha]
  exact List.mem_singleton_self a

/-- Merging two roots over sums depends on the sums in order alone, up to the
errors too. -/
theorem mulRoot_sums_comm (ha : FixedRadicand a) (hb : FixedRadicand b) (hasum : a.isSum)
    (hbsum : b.isSum) (hanames : a.allVars Expr.isLetter) (hbnames : b.allVars Expr.isLetter) :
    Term.mulRoot (level options (n + 1)) ⟨1, .one, some a⟩ b =
      Term.mulRoot (level options (n + 1)) ⟨1, .one, some b⟩ a := by
  have hrest {c : Expr} (hc : c.isSum) : Term.rest c = [] := by
    rw [Term.rest, Expr.factors_of_isSum hc]
    simp [hc]
  rw [Term.mulRoot_bare, Term.mulRoot_bare, sortByText_sums_comm ha hb hanames hbnames,
    hrest hasum, hrest hbsum]
  rfl

/-- The first two roots over sums can change places: the outcome is the same
term, or the same error. -/
theorem normalize_firstRoots_comm (h₁ : simplify options e₁ = .ok a)
    (h₂ : simplify options e₂ = .ok b) (ha : a.isSum) (hb : b.isSum)
    (hanames : a.allVars Expr.isLetter) (hbnames : b.allVars Expr.isLetter) (n : Nat)
    (fs : List Expr) : normalize (level options n) (.root a :: .root b :: fs) =
      normalize (level options n) (.root b :: .root a :: fs) := by
  suffices hpair : normalize (level options n) [.root a, .root b] =
      normalize (level options n) [.root b, .root a] by
    have hsplit (c d : Expr) : normalize (level options n) (c :: d :: fs) =
        normalize (level options n) [c, d] >>= fun t => fs.foldlM (Term.absorb _) t :=
      List.foldlM_append (l := [c, d])
    rw [hsplit, hsplit, hpair]
  rw [normalize_pair, normalize_pair]
  cases n with
  | zero =>
      -- no root is looked under without a level to do it
      have hfail (c : Expr) : Term.one.absorb (level options 0) (.root c) =
          .error (.failed (.depthExceeded options.maxDepth)) := by
        rw [Term.absorb, Term.mulRoot_eq_mergeFactors]
        rfl
      rw [hfail, hfail]
      rfl
  | succ n =>
      have hroot {c : Expr} (hc : c.isSum) : Term.one.absorb (level options (n + 1)) (.root c) =
          .ok ⟨1, .one, some c⟩ := by
        rw [Term.absorb, mulRoot_of_isSum rfl hc rfl]
        rfl
      rw [hroot ha, hroot hb]
      exact congrArg (Except.mapError Obstacle.failed) <|
        mulRoot_sums_comm ((fixed_simplify h₁).fixedRadicand ha)
          ((fixed_simplify h₂).fixedRadicand hb) ha hb hanames hbnames

/-- `x + 1`. -/
def next (x : String) : Expr :=
  .bin .add (.var x) (.num 1)

/-- A sum that `(x + 1)(y + 1)(z + 1)` is multiplied out to when `x` comes
first. -/
def productOfNext (x y z : String) : Expr :=
  .sum [.product [.var "x", .var "y", .var "z"], .product [.var "x", .var y],
    .product [.var "x", .var z], .var x, .product [.var "y", .var "z"], .var y, .var z, .num 1]

/-- Both products are `√(xyz + xy + xz + x + yz + y + z + 1)`. -/
theorem normalize_firstRoots_comm_next :
    simplify {} (next "x") = .ok (next "x") ∧ simplify {} (next "y") = .ok (next "y") ∧
      (next "x").isSum ∧ (next "y").isSum ∧ (next "x").allVars Expr.isLetter ∧
      (next "y").allVars Expr.isLetter ∧
      normalize (level {} 5) [.root (next "y"), .root (next "x"), .root (next "z")] =
        .ok ⟨1, .one, some (productOfNext "x" "y" "z")⟩ := by
  have h₁ : simplify {} (next "x") = .ok (next "x") := by rfl
  have h₂ : simplify {} (next "y") = .ok (next "y") := by rfl
  have ha : (next "x").isSum := by rfl
  have hb : (next "y").isSum := by rfl
  have hanames : (next "x").allVars Expr.isLetter := by decide
  have hbnames : (next "y").allVars Expr.isLetter := by decide
  refine ⟨h₁, h₂, ha, hb, hanames, hbnames, ?_⟩
  rw [← normalize_firstRoots_comm h₁ h₂ ha hb hanames hbnames]
  rfl

/-- With the last two of three roots in another order the addends under the
merged root are in another order, and the terms have different keys. Here the
coefficients are the same. They need not be, because in one order a square can
stay under the root that moves out in the other (the example below). -/
theorem normalize_threeRoots :
    (∀ x ∈ ["x", "y", "z"], simplify {} (next x) = .ok (next x) ∧ (next x).isSum ∧
      (next x).allVars Expr.isLetter) ∧
    ∃ t u, normalize (level {} 5) [.root (next "x"), .root (next "y"), .root (next "z")] = .ok t ∧
      normalize (level {} 5) [.root (next "x"), .root (next "z"), .root (next "y")] = .ok u ∧
      t ≠ u ∧ t.key ≠ u.key := by
  refine ⟨?_, ⟨1, .one, some (productOfNext "x" "y" "z")⟩,
    ⟨1, .one, some (productOfNext "x" "z" "y")⟩, by rfl, by rfl, by decide, by decide⟩
  simp only [List.forall_mem_cons, List.not_mem_nil, false_implies, implies_true, and_true]
  exact ⟨⟨by rfl, by rfl, by decide⟩, ⟨by rfl, by rfl, by decide⟩, ⟨by rfl, by rfl, by decide⟩⟩

/-- `2√2 + n`. -/
def twoRootsPlus (n : Int) : Expr :=
  .bin .add (.product [.num 2, .root (.num 2)]) (.num n)

/-- `√(2√2 + 2)√(2√2 - 2)` is `2`, but a third root in between keeps the `4`
under the root. -/
example :
    normalize (level {} 5)
        [.root (twoRootsPlus 2), .root (twoRootsPlus (-2)), .root (.sum [.var "x", .num 1])] =
      .ok ⟨2, .one, some (.sum [.var "x", .num 1])⟩ ∧
    normalize (level {} 5)
        [.root (twoRootsPlus 2), .root (.sum [.var "x", .num 1]), .root (twoRootsPlus (-2))] =
      .ok ⟨1, .one, some (.sum [.product [.num 4, .var "x"], .num 4])⟩ := by
  exact ⟨rfl, rfl⟩

end Canonical

end Surd
