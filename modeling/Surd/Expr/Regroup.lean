import Surd.Expr.Shape
import Surd.Expr.Text

/-!
# Expressions up to the grouping of products

Products are associative, and the text of an expression does not show how its
products are grouped. `Regroups` is what associativity alone says of two
expressions. It holds exactly if both are the same with their products leaning
left (`regroups_iff`), and expressions that are related have the same text
(`Regroups.chars_eq`).
-/

namespace Surd.Expr

/-- Two expressions differ in the grouping of products only. -/
inductive Regroups : Expr → Expr → Prop where
  | assoc (a b c : Expr) :
      Regroups (.bin .mul (.bin .mul a b) c) (.bin .mul a (.bin .mul b c))
  | refl (e : Expr) : Regroups e e
  | symm {e f : Expr} : Regroups e f → Regroups f e
  | trans {e f g : Expr} : Regroups e f → Regroups f g → Regroups e g
  | bin {op : Op} {l l' r r' : Expr} :
      Regroups l l' → Regroups r r' → Regroups (.bin op l r) (.bin op l' r')
  | pow {b b' k k' : Expr} : Regroups b b' → Regroups k k' → Regroups (.pow b k) (.pow b' k')
  | root {e f : Expr} : Regroups e f → Regroups (.root e) (.root f)

variable {l r e f : Expr}

/-! ## Leaning left -/

theorem regroups_mulFactors (l r : Expr) : Regroups (.bin .mul l r) (mulFactors l r) := by
  fun_induction mulFactors l r with
  | case1 r f ih => exact (Regroups.assoc l r f).symm.trans (.bin ih (.refl f))
  | case2 f => exact .refl _

theorem regroups_leftProducts (e : Expr) : Regroups e e.leftProducts := by
  fun_induction leftProducts e with
  | case1 n => exact .refl _
  | case2 x => exact .refl _
  | case3 l r ihl ihr => exact (Regroups.bin ihl ihr).trans (regroups_mulFactors _ _)
  | case4 op l r hop ihl ihr => exact .bin ihl ihr
  | case5 b k ihb ihk => exact .pow ihb ihk
  | case6 e ih => exact .root ih

theorem Regroups.leftProducts_eq (h : Regroups l r) : l.leftProducts = r.leftProducts := by
  induction h with
  | assoc a b c => simp only [leftProducts, mulFactors_mulFactors]
  | refl e => rfl
  | symm _ ih => exact ih.symm
  | trans _ _ ih ih' => exact ih.trans ih'
  | @bin op _ _ _ _ _ _ ihl ihr => cases op <;> simp only [leftProducts, ihl, ihr]
  | pow _ _ ihb ihk => simp only [leftProducts, ihb, ihk]
  | root _ ih => simp only [leftProducts, ih]

theorem regroups_iff : Regroups l r ↔ l.leftProducts = r.leftProducts := by
  refine ⟨Regroups.leftProducts_eq, fun h => ?_⟩
  exact (regroups_leftProducts l).trans (h ▸ (regroups_leftProducts r).symm)

/-! ## Text -/

/-- Two expressions are written alike, in front of and behind any operation. -/
structure WrittenAlike (e f : Expr) : Prop where
  chars : e.chars = f.chars
  op? : e.op? = f.op?
  startsWithNumber : e.startsWithNumber = f.startsWithNumber
  isCompound : e.isCompound = f.isCompound

theorem WrittenAlike.isSum (h : WrittenAlike e f) : e.isSum = f.isSum := by
  simp only [Expr.isSum, isBin, h.op?]

theorem WrittenAlike.isSumOrQuotient (h : WrittenAlike e f) :
    e.isSumOrQuotient = f.isSumOrQuotient := by
  simp only [Expr.isSumOrQuotient, h.isSum, isBin, h.op?]

theorem writtenAlike_bin {op : Op} {l' r' : Expr} (hl : WrittenAlike l l')
    (hr : WrittenAlike r r') : WrittenAlike (.bin op l r) (.bin op l' r') where
  chars := by
    have hsub : l.isBin .sub = l'.isBin .sub := by simp only [isBin, hl.op?]
    cases op <;> simp only [Expr.chars, hl.chars, hr.chars, hl.isSum, hr.isSum,
      hl.isSumOrQuotient, hr.isSumOrQuotient, hr.startsWithNumber, hsub]
  op? := rfl
  startsWithNumber := by
    simp only [Expr.startsWithNumber, hl.isSumOrQuotient, hl.startsWithNumber]
  isCompound := rfl

theorem writtenAlike_assoc (a b c : Expr) :
    WrittenAlike (.bin .mul (.bin .mul a b) c) (.bin .mul a (.bin .mul b c)) where
  chars := by
    simp [Expr.chars, Expr.isSumOrQuotient, Expr.isSum, isBin, Expr.op?, wrapChars,
      Expr.startsWithNumber]
  op? := rfl
  startsWithNumber := by
    simp [Expr.startsWithNumber, Expr.isSumOrQuotient, Expr.isSum, isBin, Expr.op?]
  isCompound := rfl

theorem Regroups.writtenAlike (h : Regroups e f) : WrittenAlike e f := by
  induction h with
  | assoc a b c => exact writtenAlike_assoc a b c
  | refl e => exact ⟨rfl, rfl, rfl, rfl⟩
  | symm _ ih =>
      exact ⟨ih.chars.symm, ih.op?.symm, ih.startsWithNumber.symm, ih.isCompound.symm⟩
  | trans _ _ ih ih' =>
      exact ⟨ih.chars.trans ih'.chars, ih.op?.trans ih'.op?,
        ih.startsWithNumber.trans ih'.startsWithNumber, ih.isCompound.trans ih'.isCompound⟩
  | bin _ _ ihl ihr => exact writtenAlike_bin ihl ihr
  | pow _ _ ihb ihk =>
      refine ⟨?_, rfl, ?_, rfl⟩
      · simp only [Expr.chars, ihb.chars, ihb.isCompound, ihk.chars, ihk.isCompound]
      · simp only [Expr.startsWithNumber, ihb.isCompound, ihb.startsWithNumber]
  | root _ ih => exact ⟨by simp only [Expr.chars, ih.chars], rfl, rfl, rfl⟩

/-- The text does not show how products are grouped. -/
theorem Regroups.chars_eq (h : Regroups e f) : e.chars = f.chars :=
  h.writtenAlike.chars

end Surd.Expr
