import Mathlib.Logic.Function.Iterate
import Surd.Proofs.Derivations
import Surd.Proofs.Lexemes

/-!
# What is written is read back

The lexemes of an expression are a phrase of the grammar, of the kind that its
head asks for: a sum is a sum, and a power is a power. Parentheses make every
operand a primary, so an operand that stands bare only has to be tight enough
for its place. Products are the exception. The factors of a product on the
right of another are read as factors of the whole, one by one, which is what
`mulFactors` says of the trees.

Each operation uses two levels of nesting at most, one for itself and one for
the parentheses around an operand.
-/

namespace Surd

open Grammar

variable {signed : Bool} {p q : Phrase} {e l r : Expr} {ls rs : List Lexeme} {n m d : Nat}
  {ts : List Token}

/-! ## Loosening phrases -/

/-- The kind of phrase that a phrase of a kind is, too. -/
def Grammar.Phrase.looser : Phrase → Phrase
  | .primary => .power
  | .power => .root
  | .root => .product
  | .product => .quotient
  | .quotient => .sum
  | .sum => .difference
  | .difference => .difference

theorem Grammar.Derives.looser (h : Derives p ts e d) : Derives p.looser ts e d := by
  cases p with
  | primary => exact .primary h
  | power => exact .power h
  | root => exact .factor h
  | product => exact .product h
  | quotient => exact .quotient h
  | sum => exact .sum h
  | difference => exact h

theorem Grammar.Phrase.iterate_looser (h : q.tightness ≤ p.tightness) :
    looser^[p.tightness - q.tightness] p = q := by
  revert h
  cases p <;> cases q <;> decide

/-- A phrase is a phrase of every looser kind. -/
theorem Grammar.Derives.loosen (h : Derives p ts e d) (hpq : q.tightness ≤ p.tightness) :
    Derives q ts e d := by
  rw [← Phrase.iterate_looser hpq]
  generalize p.tightness - q.tightness = k
  induction k with
  | zero => exact h
  | succ k ih =>
      rw [Function.iterate_succ_apply']
      exact ih.looser

/-! ## Spelled phrases -/

/-- Tokens with the lexemes `ls` are a phrase of kind `p` that stands for `e`
and is nested at most `n` levels deep. -/
def Spelled (p : Phrase) (ls : List Lexeme) (e : Expr) (n : Nat) : Prop :=
  ∀ ts : List Token, ts.map Token.lexeme = ls → ∃ d, d ≤ n ∧ Derives p ts e d

theorem Spelled.loosen (h : Spelled p ls e n) (hpq : q.tightness ≤ p.tightness) :
    Spelled q ls e n := by
  intro ts hts
  obtain ⟨d, hd, hderives⟩ := h ts hts
  exact ⟨d, hd, hderives.loosen hpq⟩

theorem Spelled.mono (h : Spelled p ls e n) (hnm : n ≤ m) : Spelled p ls e m := by
  intro ts hts
  obtain ⟨d, hd, hderives⟩ := h ts hts
  exact ⟨d, Nat.le_trans hd hnm, hderives⟩

/-- Parentheses make a phrase of any kind a primary. -/
theorem Spelled.group (h : Spelled p ls e n) :
    Spelled .primary (Expr.wrapLexemes true ls) e (n + 1) := by
  intro ts hts
  obtain ⟨opening, us, rfl, hopening, hus⟩ := List.map_eq_cons_iff.mp hts
  obtain ⟨inner, vs, rfl, hinner, hvs⟩ := List.map_eq_append_iff.mp hus
  obtain ⟨closing, ws, rfl, hclosing, hws⟩ := List.map_eq_cons_iff.mp hvs
  obtain rfl := List.map_eq_nil_iff.mp hws
  obtain ⟨d, hd, hderives⟩ := h inner hinner
  refine ⟨d + 1, Nat.succ_le_succ hd, ?_⟩
  exact .group (congrArg Lexeme.kind hopening) (congrArg Lexeme.kind hclosing)
    (hderives.loosen p.tightness_pos)

/-- An operand that is tight enough, or else in parentheses. -/
theorem Spelled.operand {parens : Bool} (h : Spelled p ls e n)
    (hpq : parens = false → q.tightness ≤ p.tightness) :
    Spelled q (Expr.wrapLexemes parens ls) e (n + 1) := by
  cases parens with
  | false => exact (h.loosen (hpq rfl)).mono (Nat.le_succ n)
  | true => exact h.group.loosen (by cases q <;> decide)

theorem Spelled.sign {k : Token.Kind} {text : String} {p' : Phrase} {c : Nat}
    (hl : Spelled p ls l n) (hr : Spelled q rs r m)
    (hrule : ∀ {t : Token} {ts us : List Token} {d d' : Nat}, Derives p ts l d → t.kind = k →
      Derives q us r d' → Derives p' (ts ++ t :: us) e (max d (d' + c))) :
    Spelled p' (ls ++ ⟨k, text⟩ :: rs) e (max n (m + c)) := by
  intro ts hts
  obtain ⟨us, vs, rfl, hus, hvs⟩ := List.map_eq_append_iff.mp hts
  obtain ⟨t, ws, rfl, ht, hws⟩ := List.map_eq_cons_iff.mp hvs
  obtain ⟨d, hd, hleft⟩ := hl us hus
  obtain ⟨d', hd', hright⟩ := hr ws hws
  exact ⟨max d (d' + c), by omega, hrule hleft (congrArg Lexeme.kind ht) hright⟩

theorem Spelled.juxtapose {s : Lexeme} (hl : Spelled .product ls l n)
    (hr : Spelled .root (s :: rs) r m) (hs : startsFactor s.kind) :
    Spelled .product (ls ++ s :: rs) (.bin .mul l r) (max n m) := by
  intro ts hts
  obtain ⟨us, vs, rfl, hus, hvs⟩ := List.map_eq_append_iff.mp hts
  obtain ⟨d, hd, hleft⟩ := hl us hus
  obtain ⟨d', hd', hright⟩ := hr vs hvs
  obtain ⟨t, ws, rfl, ht, hws⟩ := List.map_eq_cons_iff.mp hvs
  refine ⟨max d d', by omega, .juxtapose hleft ?_ hright⟩
  rw [show t.kind = s.kind from congrArg Lexeme.kind ht]
  exact hs

theorem Spelled.root (h : Spelled .root ls e n) :
    Spelled .root (⟨.root, "√"⟩ :: ls) (.root e) (n + 1) := by
  intro ts hts
  obtain ⟨t, us, rfl, ht, hus⟩ := List.map_eq_cons_iff.mp hts
  obtain ⟨d, hd, hderives⟩ := h us hus
  exact ⟨d + 1, Nat.succ_le_succ hd, .sign (congrArg Lexeme.kind ht) hderives⟩

theorem spelled_num (k : Int) : Spelled .primary (Lexeme.ofInt true k) (.num k) 0 := by
  intro ts hts
  rw [Lexeme.ofInt, if_neg fun h => h.2 rfl] at hts
  obtain ⟨t, us, rfl, ht, hus⟩ := List.map_eq_cons_iff.mp hts
  obtain rfl := List.map_eq_nil_iff.mp hus
  refine ⟨0, Nat.le_refl 0, .number (congrArg Lexeme.kind ht) ?_⟩
  rw [show t.text = Numeral.write k from congrArg Lexeme.text ht, Numeral.read?_write]

theorem spelled_var (x : String) : Spelled .primary [⟨.identifier, x⟩] (.var x) 0 := by
  intro ts hts
  obtain ⟨t, us, rfl, ht, hus⟩ := List.map_eq_cons_iff.mp hts
  obtain rfl := List.map_eq_nil_iff.mp hus
  obtain rfl : t.text = x := congrArg Lexeme.text ht
  exact ⟨0, Nat.le_refl 0, .name (congrArg Lexeme.kind ht)⟩

/-! ## The phrase of an expression -/

namespace Expr

/-- The kind of phrase an expression is written as. -/
def phrase : Expr → Phrase
  | .num _ => .primary
  | .var _ => .primary
  | .bin .sub _ _ => .difference
  | .bin .add _ _ => .sum
  | .bin .div _ _ => .quotient
  | .bin .mul _ _ => .product
  | .pow _ _ => .power
  | .root _ => .root

/-- An expression is as tight as the operation at its head. -/
theorem le_tightness_phrase {k : Nat} (hk : k ≤ 5)
    (h : ∀ op, e.op? = some op → k ≤ op.precedence) : k ≤ e.phrase.tightness := by
  cases e with
  | bin op l r =>
      have hop := h op rfl
      cases op <;> exact hop
  | num | var => exact Nat.le_trans hk (show 5 ≤ 7 by decide)
  | pow => exact Nat.le_trans hk (show 5 ≤ 6 by decide)
  | root => exact hk

theorem sum_le_phrase (h : e.isBin .sub = false) : 2 ≤ e.phrase.tightness := by
  refine le_tightness_phrase (by decide) fun op hop => ?_
  cases op with
  | sub => simp [isBin, hop] at h
  | add | mul | div => decide

theorem quotient_le_phrase (h : e.isSum = false) : 3 ≤ e.phrase.tightness := by
  refine le_tightness_phrase (by decide) fun op hop => ?_
  cases op with
  | add | sub => simp [isSum, isBin, hop] at h
  | mul | div => decide

theorem product_le_phrase (h : e.isSumOrQuotient = false) : 4 ≤ e.phrase.tightness := by
  refine le_tightness_phrase (by decide) fun op hop => ?_
  cases op with
  | add | sub | div => simp [isSumOrQuotient, isSum, isBin, hop] at h
  | mul => decide

theorem root_le_phrase (h : e.isSumOrQuotient = false) (hmul : e.op? ≠ some .mul) :
    5 ≤ e.phrase.tightness := by
  refine le_tightness_phrase (by decide) fun op hop => ?_
  cases op with
  | add | sub | div => simp [isSumOrQuotient, isSum, isBin, hop] at h
  | mul => exact absurd hop hmul

theorem phrase_of_isCompound (h : e.isCompound = false) : e.phrase = .primary := by
  cases e with
  | num | var => rfl
  | bin | pow | root => cases h

/-! ## Factors -/

/-- Some lexemes start with one that can follow a factor without a sign. -/
def StartsFactor (ls : List Lexeme) : Prop :=
  ∃ s rs, ls = s :: rs ∧ startsFactor s.kind

theorem StartsFactor.append (h : StartsFactor ls) (rs : List Lexeme) : StartsFactor (ls ++ rs) := by
  obtain ⟨s, us, rfl, hs⟩ := h
  exact ⟨s, us ++ rs, rfl, hs⟩

theorem startsFactor_wrapLexemes {parens : Bool} (h : parens = false → StartsFactor ls) :
    StartsFactor (wrapLexemes parens ls) := by
  cases parens with
  | true => exact ⟨_, _, rfl, rfl⟩
  | false => exact h rfl

/-- What does not start with an integer starts with a name, a parenthesis or a
root. -/
theorem startsFactor_lexemes (h : e.startsWithNumber = false) :
    StartsFactor (e.lexemes signed) := by
  fun_induction lexemes signed e with
  | case1 n => cases h
  | case2 x => exact ⟨_, _, rfl, rfl⟩
  | case3 l r ihl ihr =>
      exact (ihl (by simpa [startsWithNumber] using h)).append _
  | case4 l r ihl ihr =>
      refine (startsFactor_wrapLexemes fun _ => ihl ?_).append _
      simpa [startsWithNumber] using h
  | case5 l r ihl ihr =>
      refine (startsFactor_wrapLexemes fun _ => ihl ?_).append _
      simpa [startsWithNumber] using h
  | case6 l r ihl ihr =>
      refine (startsFactor_wrapLexemes fun hwrap => ihl ?_).append _
      simpa [startsWithNumber, hwrap] using h
  | case7 b k ihb ihk =>
      refine (startsFactor_wrapLexemes fun hwrap => ihb ?_).append _
      simpa [startsWithNumber, hwrap] using h
  | case8 e ih => exact ⟨_, _, rfl, rfl⟩

/-- The lexemes of a factor that follows another one. -/
def factorLexemes (signed : Bool) (e : Expr) : List Lexeme :=
  (if !e.isSumOrQuotient && e.startsWithNumber then [⟨.times, "*"⟩] else [])
    ++ wrapLexemes e.isSumOrQuotient (e.lexemes signed)

end Expr

/-! ## Every expression -/

namespace Expr

variable {b k : Expr}

/-- The lexemes of an expression stand for it, with its products leaning
left. -/
def IsSpelled (e : Expr) : Prop :=
  Spelled e.phrase (e.lexemes true) e.leftProducts (2 * e.height)

/-- Behind a product, they continue it. -/
def Continues (e : Expr) : Prop :=
  ∀ {ls : List Lexeme} {l : Expr} {n : Nat}, Spelled .product ls l n →
    Spelled .product (ls ++ e.factorLexemes true) (mulFactors l e.leftProducts)
      (max n (2 * e.height + 1))

/-- What is no product itself continues one as a single factor. -/
theorem IsSpelled.continues (h : e.IsSpelled) (hop : e.op? ≠ some .mul) : e.Continues := by
  intro ls l n hl
  have hroot : Spelled .root (wrapLexemes e.isSumOrQuotient (e.lexemes true)) e.leftProducts
      (2 * e.height + 1) := h.operand fun hwrap => root_le_phrase hwrap hop
  rw [mulFactors_of_op? fun h => hop (op?_leftProducts ▸ h)]
  rw [factorLexemes]
  split
  · exact hl.sign (c := 0) hroot fun h1 h2 h3 => .times h1 h2 h3
  · next hstart =>
      have hfirst : StartsFactor (wrapLexemes e.isSumOrQuotient (e.lexemes true)) :=
        startsFactor_wrapLexemes fun hwrap =>
          startsFactor_lexemes (by simpa [hwrap] using hstart)
      obtain ⟨s, rs, heq, hs⟩ := hfirst
      rw [heq] at hroot ⊢
      exact hl.juxtapose hroot hs

theorem isSpelled_pow (hb : b.IsSpelled) (hk : k.IsSpelled) : (Expr.pow b k).IsSpelled := by
  have hb : Spelled .primary (wrapLexemes b.isCompound (b.lexemes true)) b.leftProducts
      (2 * b.height + 1) := hb.operand fun hwrap => (phrase_of_isCompound hwrap ▸ Nat.le_refl _)
  have hk : Spelled .power (wrapLexemes k.isCompound (k.lexemes true)) k.leftProducts
      (2 * k.height + 1) := hk.operand fun hwrap => phrase_of_isCompound hwrap ▸ (by decide)
  refine (hb.sign hk fun h1 h2 h3 => .caret h1 h2 h3).mono ?_
  rw [height]
  omega

theorem isSpelled_root (he : e.IsSpelled) : (Expr.root e).IsSpelled :=
  Spelled.root (Spelled.loosen (Spelled.group he) (by decide))

theorem isSpelled_sub (hl : l.IsSpelled) (hr : r.IsSpelled) : (Expr.bin .sub l r).IsSpelled := by
  have hl : Spelled .difference (l.lexemes true) l.leftProducts (2 * l.height) :=
    Spelled.loosen hl (Phrase.tightness_pos _)
  have hr : Spelled .sum (wrapLexemes r.isSum (r.lexemes true)) r.leftProducts
      (2 * r.height + 1) := hr.operand fun hwrap => Nat.le_of_succ_le (quotient_le_phrase hwrap)
  refine (hl.sign (c := 0) hr fun h1 h2 h3 => .minus h1 h2 h3).mono ?_
  rw [height]
  omega

theorem isSpelled_add (hl : l.IsSpelled) (hr : r.IsSpelled) : (Expr.bin .add l r).IsSpelled := by
  have hl : Spelled .sum (wrapLexemes (l.isBin .sub) (l.lexemes true)) l.leftProducts
      (2 * l.height + 1) := hl.operand sum_le_phrase
  have hr : Spelled .quotient (wrapLexemes r.isSum (r.lexemes true)) r.leftProducts
      (2 * r.height + 1) := hr.operand quotient_le_phrase
  refine (hl.sign (c := 0) hr fun h1 h2 h3 => .plus h1 h2 h3).mono ?_
  rw [height]
  omega

theorem isSpelled_div (hl : l.IsSpelled) (hr : r.IsSpelled) : (Expr.bin .div l r).IsSpelled := by
  have hl : Spelled .quotient (wrapLexemes l.isSum (l.lexemes true)) l.leftProducts
      (2 * l.height + 1) := hl.operand quotient_le_phrase
  have hr : Spelled .product (wrapLexemes r.isSumOrQuotient (r.lexemes true)) r.leftProducts
      (2 * r.height + 1) := hr.operand product_le_phrase
  refine (hl.sign (c := 0) hr fun h1 h2 h3 => .divide h1 h2 h3).mono ?_
  rw [height]
  omega

theorem isSpelled_mul (hl : l.IsSpelled) (hr : r.Continues) : (Expr.bin .mul l r).IsSpelled := by
  have hl : Spelled .product (wrapLexemes l.isSumOrQuotient (l.lexemes true)) l.leftProducts
      (2 * l.height + 1) := hl.operand product_le_phrase
  refine (hr hl).mono ?_
  rw [height]
  omega

/-- A product continues another one factor by factor. -/
theorem continues_mul (hl : l.Continues) (hr : r.Continues) : (Expr.bin .mul l r).Continues := by
  intro ls l' n hl'
  have heq : (Expr.bin .mul l r).factorLexemes true =
      l.factorLexemes true ++ r.factorLexemes true := by
    simp [factorLexemes, isSumOrQuotient, isSum, isBin, op?, startsWithNumber, lexemes,
      wrapLexemes]
  rw [heq, ← List.append_assoc, leftProducts, ← mulFactors_mulFactors]
  refine (hr (hl hl')).mono ?_
  rw [height]
  omega

theorem isSpelled_and_continues (e : Expr) : e.IsSpelled ∧ e.Continues := by
  induction e with
  | num n =>
      have h : (Expr.num n).IsSpelled := spelled_num n
      exact ⟨h, h.continues (by simp [op?])⟩
  | var x =>
      have h : (Expr.var x).IsSpelled := spelled_var x
      exact ⟨h, h.continues (by simp [op?])⟩
  | pow b k ihb ihk =>
      have h := isSpelled_pow ihb.1 ihk.1
      exact ⟨h, h.continues (by simp [op?])⟩
  | root e ih =>
      have h := isSpelled_root ih.1
      exact ⟨h, h.continues (by simp [op?])⟩
  | bin op l r ihl ihr =>
      cases op with
      | mul => exact ⟨isSpelled_mul ihl.1 ihr.2, continues_mul ihl.2 ihr.2⟩
      | add =>
          have h := isSpelled_add ihl.1 ihr.1
          exact ⟨h, h.continues (by simp [op?])⟩
      | sub =>
          have h := isSpelled_sub ihl.1 ihr.1
          exact ⟨h, h.continues (by simp [op?])⟩
      | div =>
          have h := isSpelled_div ihl.1 ihr.1
          exact ⟨h, h.continues (by simp [op?])⟩

theorem isSpelled (e : Expr) : e.IsSpelled :=
  e.isSpelled_and_continues.1

/-- Tokens with the lexemes of an expression are an input that stands for
it. -/
theorem accepts_of_lexemes (h : ts.map Token.lexeme = e.lexemes true) :
    ∃ d, d ≤ 1 + 2 * e.height ∧ Accepts ts e.leftProducts d := by
  obtain ⟨d, hd, hderives⟩ := e.isSpelled ts h
  exact ⟨d + 1, by omega, d, hderives.loosen (Phrase.tightness_pos _), rfl⟩

end Expr

/-! ## Reading back -/

/-- The text of an expression without negative integers is read back as the
expression, with its products leaning left. -/
theorem parse_text {limit : Nat} (hnums : e.allNums (0 ≤ ·)) (hvars : e.allVars Expr.isLetter)
    (hlimit : 1 + 2 * e.height ≤ limit) :
    parse limit e.text = .ok (some e.leftProducts) := by
  have htokens : (tokenize e.text).map Token.lexeme = e.lexemes true := by
    rw [tokenize, Expr.toList_text, Token.map_lexeme_scan, Expr.scan_chars false hvars,
      Expr.lexemes_of_nonneg hnums]
  obtain ⟨d, hd, haccepts⟩ := Expr.accepts_of_lexemes htokens
  exact parseTokens_of_accepts haccepts (Nat.le_trans hd hlimit)

/-- `(a - (b + 1))/2*3x^2`, with the product `3x^2` as one of the factors. -/
def productUnderQuotient : Expr :=
  .bin .div (.bin .sub (.var "a") (.bin .add (.var "b") (.num 1)))
    (.bin .mul (.num 2) (.bin .mul (.num 3) (.pow (.var "x") (.num 2))))

theorem parse_text_productUnderQuotient :
    productUnderQuotient.allNums (0 ≤ ·) ∧ productUnderQuotient.allVars Expr.isLetter ∧
      1 + 2 * productUnderQuotient.height ≤ 9 ∧
      productUnderQuotient.text = "(a - (b + 1))/2*3x^2" ∧
      parse 9 productUnderQuotient.text =
        .ok (some (.bin .div (.bin .sub (.var "a") (.bin .add (.var "b") (.num 1)))
          (.bin .mul (.bin .mul (.num 2) (.num 3)) (.pow (.var "x") (.num 2))))) := by
  have hnums : productUnderQuotient.allNums (0 ≤ ·) := rfl
  have hvars : productUnderQuotient.allVars Expr.isLetter := by decide
  have hlimit : 1 + 2 * productUnderQuotient.height ≤ 9 := by decide
  exact ⟨hnums, hvars, hlimit, by decide, parse_text hnums hvars hlimit⟩

/-! ## What a text shows -/

theorem Lexeme.exists_tokens (ls : List Lexeme) : ∃ ts : List Token, ts.map Token.lexeme = ls := by
  refine ⟨ls.map fun s => ⟨s.kind, s.text, ⟨0, 0⟩⟩, ?_⟩
  rw [List.map_map]
  exact List.map_id _

theorem Expr.chars_ne_nil (he : e.allVars Expr.isLetter) : e.chars ≠ [] := by
  intro hnil
  have hlexemes : e.lexemes true = [] := by
    rw [← Expr.scan_chars true he, hnil, Lexeme.scan]
  have htokens : ([] : List Token).map Token.lexeme = e.lexemes true := hlexemes.symm
  obtain ⟨d, -, inner, hderives, -⟩ := Expr.accepts_of_lexemes htokens
  exact hderives.ne_nil rfl

/-- Expressions with the same text differ in the grouping of products only,
even where a negative integer keeps the text from being read. -/
theorem leftProducts_eq_of_chars_eq (hl : l.allVars Expr.isLetter) (hr : r.allVars Expr.isLetter)
    (h : l.chars = r.chars) : l.leftProducts = r.leftProducts := by
  have hlexemes : l.lexemes true = r.lexemes true := by
    rw [← Expr.scan_chars true hl, ← Expr.scan_chars true hr, h]
  -- taken as signed lexemes, both texts are the same input, and reading has one result
  obtain ⟨ts, hts⟩ := Lexeme.exists_tokens (l.lexemes true)
  obtain ⟨d, -, hld⟩ := Expr.accepts_of_lexemes hts
  obtain ⟨d', -, hrd⟩ := Expr.accepts_of_lexemes (hts.trans hlexemes)
  have hleft := parseTokens_of_accepts hld (Nat.le_max_left d d')
  have hright := parseTokens_of_accepts hrd (Nat.le_max_right d d')
  exact Option.some.inj (Except.ok.inj (hleft.symm.trans hright))

end Surd
