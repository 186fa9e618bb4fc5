import Surd.Proofs.Written
import Surd.Simplify

/-!
# The grouping of sums and products does not matter

A chain of sums and differences is simplified operand by operand, and so is a
chain of products. The operands do not show how the chain was grouped, so two
expressions that differ in grouping alone simplify to the same result, or fail
with the same error.

The grouping may change at any depth, and an operand at one level is an
expression with a grouping of its own at the next. The induction is therefore
on the levels: if the levels below do not see the grouping, then expressions
that differ in it have operands that are answered alike (`AnswersAlike`), and
nothing but these answers goes into the level above. The order in which the
operands are met is the same on both sides, so even the first error is.
-/

namespace Surd

/-- Two expressions differ in the grouping of sums, differences and products
only. What is subtracted keeps its parentheses, but a difference on the right
of a sum does not need any. -/
inductive Expr.Reassociates : Expr → Expr → Prop where
  | add (a b c : Expr) :
      Reassociates (.bin .add (.bin .add a b) c) (.bin .add a (.bin .add b c))
  | sub (a b c : Expr) :
      Reassociates (.bin .sub (.bin .add a b) c) (.bin .add a (.bin .sub b c))
  | mul (a b c : Expr) :
      Reassociates (.bin .mul (.bin .mul a b) c) (.bin .mul a (.bin .mul b c))
  | refl (e : Expr) : Reassociates e e
  | symm {e f : Expr} : Reassociates e f → Reassociates f e
  | trans {e f g : Expr} : Reassociates e f → Reassociates f g → Reassociates e g
  | bin {op : Op} {l l' r r' : Expr} :
      Reassociates l l' → Reassociates r r' → Reassociates (.bin op l r) (.bin op l' r')
  | pow {b b' k k' : Expr} :
      Reassociates b b' → Reassociates k k' → Reassociates (.pow b k) (.pow b' k')
  | root {e f : Expr} : Reassociates e f → Reassociates (.root e) (.root f)

open Surd.Expr (Addend Reassociates)

variable {options : Options} {level : Level} {e f : Expr}

/-! ## What a level sees of the operands -/

/-- What a level sees of an operand of a sum: its sign and its simplified
form. -/
def Level.answer (level : Level) (a : Addend) : Bool × Except SimplifyError Expr :=
  (a.negated, level.simplify a.value)

/-- A level does not see the grouping of what it is asked about. -/
def Level.IgnoresGrouping (level : Level) : Prop :=
  ∀ {e f : Expr}, e.Reassociates f → level.simplify e = level.simplify f

/-- The operands of two expressions get the same answers, one by one, and the
expressions themselves get the same answer one level up. -/
structure AnswersAlike (options : Options) (level : Level) (e f : Expr) : Prop where
  addends : e.signedAddends.map level.answer = f.signedAddends.map level.answer
  factors : e.factors.map level.simplify = f.factors.map level.simplify
  step : simplifyStep options level e = simplifyStep options level f

/-- What is done to an operand of a sum when it is simplified already. -/
def applySign (level : Level) (a : Bool × Except SimplifyError Expr) :
    Except SimplifyError Expr := do
  let e ← a.2
  if a.1 then multiply level (.num (-1)) e else return e

/-- A sum is simplified from the answers to its operands. -/
theorem simplifyStep_of_isSum (h : e.isSum) : simplifyStep options level e =
    (e.signedAddends.map level.answer).mapM (applySign level) >>= collect level := by
  rw [List.mapM_map]
  cases e with
  | bin op l r =>
      cases op with
      | add | sub => rfl
      | mul | div => cases h
  | num | var | pow | root => cases h

/-- A product is simplified from the answers to its factors. -/
theorem simplifyStep_mul (l r : Expr) : simplifyStep options level (.bin .mul l r) =
    ((Expr.bin .mul l r).factors.map level.simplify).mapM id >>= multiplyAll level := by
  rw [List.mapM_map]
  rfl

namespace AnswersAlike

variable {l l' r r' : Expr}

theorem refl (e : Expr) : AnswersAlike options level e e :=
  ⟨rfl, rfl, rfl⟩

theorem symm (h : AnswersAlike options level e f) : AnswersAlike options level f e :=
  ⟨h.addends.symm, h.factors.symm, h.step.symm⟩

theorem trans {g : Expr} (h : AnswersAlike options level e f)
    (h' : AnswersAlike options level f g) : AnswersAlike options level e g :=
  ⟨h.addends.trans h'.addends, h.factors.trans h'.factors, h.step.trans h'.step⟩

/-- Two sums are simplified from their operands. As factors they are single
ones. -/
theorem of_isSum (he : e.isSum) (hf : f.isSum) (h : level.simplify e = level.simplify f)
    (haddends : e.signedAddends.map level.answer = f.signedAddends.map level.answer) :
    AnswersAlike options level e f where
  addends := haddends
  factors := by
    rw [Expr.factors_of_isSum he, Expr.factors_of_isSum hf, List.map_singleton,
      List.map_singleton, h]
  step := by rw [simplifyStep_of_isSum he, simplifyStep_of_isSum hf, haddends]

/-- Two products are simplified from their factors. As addends they are single
ones. -/
theorem of_mul (h : level.simplify (.bin .mul l r) = level.simplify (.bin .mul l' r'))
    (hfactors : (Expr.bin .mul l r).factors.map level.simplify =
      (Expr.bin .mul l' r').factors.map level.simplify) :
    AnswersAlike options level (.bin .mul l r) (.bin .mul l' r') where
  addends := by simp only [Expr.signedAddends, List.map_singleton, Level.answer, h]
  factors := hfactors
  step := by rw [simplifyStep_mul, simplifyStep_mul, hfactors]

/-- Anything else is a single addend and a single factor. -/
theorem of_single (h : level.simplify e = level.simplify f)
    (he : e.signedAddends = [⟨false, e⟩] ∧ e.factors = [e])
    (hf : f.signedAddends = [⟨false, f⟩] ∧ f.factors = [f])
    (hstep : simplifyStep options level e = simplifyStep options level f) :
    AnswersAlike options level e f where
  addends := by simp only [he.1, hf.1, List.map_singleton, Level.answer, h]
  factors := by simp only [he.2, hf.2, List.map_singleton, h]
  step := hstep

end AnswersAlike

/-- If a level does not see the grouping, then operands are answered alike. -/
theorem answersAlike_of_reassociates (hlevel : level.IgnoresGrouping) (h : e.Reassociates f) :
    AnswersAlike options level e f := by
  induction h with
  | add a b c =>
      refine .of_isSum rfl rfl (hlevel (.add a b c)) ?_
      simp only [Expr.signedAddends, List.append_assoc]
  | sub a b c =>
      refine .of_isSum rfl rfl (hlevel (.sub a b c)) ?_
      simp only [Expr.signedAddends, List.append_assoc]
  | mul a b c =>
      refine .of_mul (hlevel (.mul a b c)) ?_
      simp only [Expr.factors_mul, List.append_assoc]
  | refl e => exact .refl e
  | symm _ ih => exact ih.symm
  | trans _ _ ih ih' => exact ih.trans ih'
  | @bin op l l' r r' hl hr ihl ihr =>
      have hwhole : level.simplify (.bin op l r) = level.simplify (.bin op l' r') :=
        hlevel (.bin hl hr)
      cases op with
      | add =>
          refine .of_isSum rfl rfl hwhole ?_
          simp only [Expr.signedAddends, List.map_append, ihl.addends, ihr.addends]
      | sub =>
          -- the right operand is only looked at as a whole
          refine .of_isSum rfl rfl hwhole ?_
          simp only [Expr.signedAddends, List.map_append, ihl.addends, List.map_singleton,
            Level.answer, hlevel hr]
      | mul =>
          refine .of_mul hwhole ?_
          simp only [Expr.factors_mul, List.map_append, ihl.factors, ihr.factors]
      | div =>
          refine .of_single hwhole ⟨rfl, rfl⟩ ⟨rfl, rfl⟩ ?_
          simp only [simplifyStep, hlevel hl, hlevel hr]
  | pow hb hk _ _ =>
      refine .of_single (hlevel (.pow hb hk)) ⟨rfl, rfl⟩ ⟨rfl, rfl⟩ ?_
      simp only [simplifyStep, hlevel hb, hlevel hk]
  | root he _ =>
      refine .of_single (hlevel (.root he)) ⟨rfl, rfl⟩ ⟨rfl, rfl⟩ ?_
      simp only [simplifyStep, hlevel he]

/-! ## Every level -/

theorem level_ignoresGrouping (options : Options) (n : Nat) :
    (Surd.level options n).IgnoresGrouping := by
  induction n with
  | zero => exact fun _ => rfl
  | succ n ih => exact fun h => (answersAlike_of_reassociates ih h).step

/-- Expressions that differ in the grouping of sums and products simplify to
the same result or fail with the same error, whatever the options are. -/
theorem simplify_eq_of_reassociates (options : Options) (h : e.Reassociates f) :
    simplify options e = simplify options f :=
  level_ignoresGrouping options options.maxDepth h

/-- `(√((xy)x) + x) - ((x + y) - z)`, with a grouping to change in three
places. -/
def groupedLeft : Expr :=
  .bin .sub
    (.bin .add (.root (.bin .mul (.bin .mul (.var "x") (.var "y")) (.var "x"))) (.var "x"))
    (.bin .sub (.bin .add (.var "x") (.var "y")) (.var "z"))

/-- `√(x(yx)) + (x - (x + (y - z)))`. -/
def groupedRight : Expr :=
  .bin .add (.root (.bin .mul (.var "x") (.bin .mul (.var "y") (.var "x"))))
    (.bin .sub (.var "x") (.bin .add (.var "x") (.bin .sub (.var "y") (.var "z"))))

/-- Both become `x√y + -1y + z`, and both run out of two levels. -/
theorem simplify_eq_groupedLeft_groupedRight :
    groupedLeft.Reassociates groupedRight ∧
      simplify {} groupedLeft = simplify {} groupedRight ∧
      simplify {} groupedRight = .ok (.sum [.product [.var "x", .root (.var "y")],
        .product [.num (-1), .var "y"], .var "z"]) ∧
      simplify ⟨2, 16⟩ groupedLeft = simplify ⟨2, 16⟩ groupedRight ∧
      simplify ⟨2, 16⟩ groupedRight = .error (.depthExceeded 2) := by
  have h : groupedLeft.Reassociates groupedRight :=
    .trans (.bin (.bin (.root (.mul _ _ _)) (.refl _)) (.sub _ _ _)) (.sub _ _ _)
  exact ⟨h, simplify_eq_of_reassociates {} h, rfl, simplify_eq_of_reassociates ⟨2, 16⟩ h, rfl⟩

end Surd
