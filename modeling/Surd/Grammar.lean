import Surd.Expr.Basic
import Surd.Numeral
import Surd.Token

/-!
# The grammar of expressions

Which tokens make up which expression, without saying how to find out:

    difference := sum ("-" sum)*
    sum        := quotient ("+" quotient)*
    quotient   := product ("/" product)*
    product    := root (("*")? root)*
    root       := "√" root | power
    power      := primary "^" power | primary
    primary    := number | name | "(" difference ")"

The sign of a product can only be left out in front of a name, a parenthesis
or a root. Each rule also counts levels of nesting: a group is one more than
what it encloses, a root one more than its radicand and a power one more than
its exponent.
-/

namespace Surd.Grammar

/-- The kinds of phrases, from the loosest to the tightest. -/
inductive Phrase where
  | difference
  | sum
  | quotient
  | product
  | root
  | power
  | primary
deriving DecidableEq, Repr

/-- The tokens in front of which the sign of a product can be left out. -/
def startsFactor : Token.Kind → Bool
  | .identifier => true
  | .openParen => true
  | .root => true
  | _ => false

/-- The tokens that an operand can end with. -/
def endsOperand : Token.Kind → Bool
  | .number => true
  | .identifier => true
  | .closeParen => true
  | _ => false

/-- The groups that are open after a token, if these were open before it. -/
def openAfter (opened : List Token) (t : Token) : List Token :=
  match t.kind with
  | .openParen => t :: opened
  | .closeParen => opened.tail
  | _ => opened

/-- The opening parentheses that have no closing one, the last of them first. -/
def unclosed (ts : List Token) : List Token :=
  ts.foldl openAfter []

/-- `Derives p ts e d`: the tokens `ts` are a phrase of kind `p`, they stand
for the expression `e`, and they are nested `d` levels deep. -/
inductive Derives : Phrase → List Token → Expr → Nat → Prop where
  | number {t : Token} {n : Int} : t.kind = .number → Numeral.read? t.text = some n →
      Derives .primary [t] (.num n) 0
  | name {t : Token} : t.kind = .identifier → Derives .primary [t] (.var t.text) 0
  | group {opening closing : Token} {ts : List Token} {e : Expr} {d : Nat} :
      opening.kind = .openParen → closing.kind = .closeParen → Derives .difference ts e d →
      Derives .primary (opening :: ts ++ [closing]) e (d + 1)
  | primary {ts : List Token} {e : Expr} {d : Nat} :
      Derives .primary ts e d → Derives .power ts e d
  | caret {t : Token} {ts us : List Token} {b k : Expr} {d d' : Nat} :
      Derives .primary ts b d → t.kind = .caret → Derives .power us k d' →
      Derives .power (ts ++ t :: us) (.pow b k) (max d (d' + 1))
  | power {ts : List Token} {e : Expr} {d : Nat} :
      Derives .power ts e d → Derives .root ts e d
  | sign {t : Token} {ts : List Token} {e : Expr} {d : Nat} :
      t.kind = .root → Derives .root ts e d → Derives .root (t :: ts) (.root e) (d + 1)
  | factor {ts : List Token} {e : Expr} {d : Nat} :
      Derives .root ts e d → Derives .product ts e d
  | times {t : Token} {ts us : List Token} {l r : Expr} {d d' : Nat} :
      Derives .product ts l d → t.kind = .times → Derives .root us r d' →
      Derives .product (ts ++ t :: us) (.bin .mul l r) (max d d')
  | juxtapose {u : Token} {ts us : List Token} {l r : Expr} {d d' : Nat} :
      Derives .product ts l d → startsFactor u.kind → Derives .root (u :: us) r d' →
      Derives .product (ts ++ u :: us) (.bin .mul l r) (max d d')
  | product {ts : List Token} {e : Expr} {d : Nat} :
      Derives .product ts e d → Derives .quotient ts e d
  | divide {t : Token} {ts us : List Token} {l r : Expr} {d d' : Nat} :
      Derives .quotient ts l d → t.kind = .divide → Derives .product us r d' →
      Derives .quotient (ts ++ t :: us) (.bin .div l r) (max d d')
  | quotient {ts : List Token} {e : Expr} {d : Nat} :
      Derives .quotient ts e d → Derives .sum ts e d
  | plus {t : Token} {ts us : List Token} {l r : Expr} {d d' : Nat} :
      Derives .sum ts l d → t.kind = .plus → Derives .quotient us r d' →
      Derives .sum (ts ++ t :: us) (.bin .add l r) (max d d')
  | sum {ts : List Token} {e : Expr} {d : Nat} :
      Derives .sum ts e d → Derives .difference ts e d
  | minus {t : Token} {ts us : List Token} {l r : Expr} {d d' : Nat} :
      Derives .difference ts l d → t.kind = .minus → Derives .sum us r d' →
      Derives .difference (ts ++ t :: us) (.bin .sub l r) (max d d')

/-- The tokens `ts` are an input that stands for `e` and is `d` levels deep,
the input itself being the first of them. -/
def Accepts (ts : List Token) (e : Expr) (d : Nat) : Prop :=
  ∃ inner, Derives .difference ts e inner ∧ d = inner + 1

/-- Some tokens can be continued to an input that is accepted. -/
def Viable (ts : List Token) : Prop :=
  ∃ rest e d, Accepts (ts ++ rest) e d

theorem Derives.ne_nil {p : Phrase} {ts : List Token} {e : Expr} {d : Nat}
    (h : Derives p ts e d) : ts ≠ [] := by
  induction h <;> simp_all

end Surd.Grammar
