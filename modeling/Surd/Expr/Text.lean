import Surd.Expr.Basic
import Surd.Numeral

/-!
# The text of an expression

Products are written without a sign between their factors, so a sign is only
spent where two factors would run together (`2*3`). Operands are wrapped in
parentheses exactly where the reader would otherwise attach them to another
operation: `-` binds loosest, then `+`, `/` and products, and a difference on
the left of a `+` is therefore wrapped. The operands of a power are wrapped
unless they are variables or integers without a sign.
-/

namespace Surd.Expr

/-- The operands a product cannot take bare. -/
def isSumOrQuotient (e : Expr) : Bool :=
  e.isSum || e.isBin .div

/-- The operands a power cannot take bare. The sign of a negative integer
would read as a sign in front of the whole power. -/
def isCompound : Expr → Bool
  | .num n => n < 0
  | .var _ => false
  | _ => true

/-- Whether the text starts with a digit or a sign. -/
def startsWithNumber : Expr → Bool
  | .num _ => true
  | .var _ => false
  | .bin op l _ => !(op = .mul && l.isSumOrQuotient) && l.startsWithNumber
  | .pow b _ => !b.isCompound && b.startsWithNumber
  | .root _ => false

/-- Text in parentheses, if `parens` asks for them. -/
def wrap (parens : Bool) (s : String) : String :=
  if parens then "(" ++ s ++ ")" else s

def text : Expr → String
  | .num n => Numeral.write n
  | .var x => x
  | .bin .sub l r => l.text ++ " - " ++ wrap r.isSum r.text
  | .bin .add l r => wrap (l.isBin .sub) l.text ++ " + " ++ wrap r.isSum r.text
  | .bin .div l r => wrap l.isSum l.text ++ "/" ++ wrap r.isSumOrQuotient r.text
  | .bin .mul l r =>
    wrap l.isSumOrQuotient l.text
      ++ (if !r.isSumOrQuotient && r.startsWithNumber then "*" else "")
      ++ wrap r.isSumOrQuotient r.text
  | .pow b k => wrap b.isCompound b.text ++ "^" ++ wrap k.isCompound k.text
  | .root e => "√" ++ wrap true e.text

/-! ## The same, by characters -/

def wrapChars (parens : Bool) (cs : List Char) : List Char :=
  if parens then '(' :: (cs ++ [')']) else cs

def chars : Expr → List Char
  | .num n => Numeral.chars n
  | .var x => x.toList
  | .bin .sub l r => l.chars ++ ' ' :: '-' :: ' ' :: wrapChars r.isSum r.chars
  | .bin .add l r =>
    wrapChars (l.isBin .sub) l.chars ++ ' ' :: '+' :: ' ' :: wrapChars r.isSum r.chars
  | .bin .div l r => wrapChars l.isSum l.chars ++ '/' :: wrapChars r.isSumOrQuotient r.chars
  | .bin .mul l r =>
    wrapChars l.isSumOrQuotient l.chars
      ++ ((if !r.isSumOrQuotient && r.startsWithNumber then ['*'] else [])
        ++ wrapChars r.isSumOrQuotient r.chars)
  | .pow b k => wrapChars b.isCompound b.chars ++ '^' :: wrapChars k.isCompound k.chars
  | .root e => '√' :: wrapChars true e.chars

theorem toList_wrap (parens : Bool) (s : String) :
    (wrap parens s).toList = wrapChars parens s.toList := by
  cases parens <;> simp [wrap, wrapChars]

/-- The text is made of these characters. -/
theorem toList_text (e : Expr) : e.text.toList = e.chars := by
  fun_induction chars e with
  | case1 n => exact Numeral.toList_write n
  | case2 x => rfl
  | case3 l r ihl ihr => simp [text, toList_wrap, ihl, ihr]
  | case4 l r ihl ihr => simp [text, toList_wrap, ihl, ihr]
  | case5 l r ihl ihr => simp [text, toList_wrap, ihl, ihr]
  | case6 l r ihl ihr =>
    simp only [text, String.toList_append, toList_wrap, ihl, ihr, List.append_assoc]
    split <;> rfl
  | case7 b k ihb ihk => simp [text, toList_wrap, ihb, ihk]
  | case8 e ih => simp [text, toList_wrap, ih]

end Surd.Expr
