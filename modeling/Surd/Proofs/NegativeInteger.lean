import Surd.Proofs.Acceptance

/-!
# A negative integer is refused at its sign

Negative integers are written with a sign that the grammar does not have, so
the text of an expression with a negative integer is no input. What has to be
shown is that the sign is never taken for a subtraction: the reader is always
in need of an operand where the text has a negative integer.

The lexemes with signs kept in the numbers tell. They are an input for every
expression, and up to the first negative integer they are the lexemes of the
text itself. So the reader gets that far, and since it would take up the number
there it is waiting for an operand. What comes instead is a sign, which is
refused (`parse_text_of_negative`).
-/

namespace Surd

open Grammar Lexeme

namespace Expr

variable {op : Op} {e l r b k : Expr} {cs ds front : List Char} {ls rs : List Lexeme}

/-! ## The operands of an operation in its text -/

def leftParens : Op → Expr → Bool
  | .sub, _ => false
  | .add, l => l.isBin .sub
  | .div, l => l.isSum
  | .mul, l => l.isSumOrQuotient

def rightParens : Op → Expr → Bool
  | .sub, r => r.isSum
  | .add, r => r.isSum
  | .div, r => r.isSumOrQuotient
  | .mul, r => r.isSumOrQuotient

/-- What stands between the operands of an operation. -/
def infixChars : Op → Expr → List Char
  | .sub, _ => [' ', '-', ' ']
  | .add, _ => [' ', '+', ' ']
  | .div, _ => ['/']
  | .mul, r => if !r.isSumOrQuotient && r.startsWithNumber then ['*'] else []

theorem chars_bin (op : Op) (l r : Expr) : (Expr.bin op l r).chars =
    wrapChars (leftParens op l) l.chars
      ++ (infixChars op r ++ wrapChars (rightParens op r) r.chars) := by
  cases op <;> rfl

theorem lexemes_bin (signed : Bool) (op : Op) (l r : Expr) : (Expr.bin op l r).lexemes signed =
    wrapLexemes (leftParens op l) (l.lexemes signed)
      ++ (scan false (infixChars op r) ++ wrapLexemes (rightParens op r) (r.lexemes signed)) := by
  cases op with
  | mul =>
      rw [lexemes, infixChars]
      split <;> rfl
  | sub | add | div => rfl

/-! ## The first negative integer -/

/-- What an operand's text begins with, behind the parenthesis that it may
have. -/
def openChars (parens : Bool) (cs : List Char) : List Char :=
  if parens then '(' :: cs else cs

/-- What the text of an expression has in front of its first negative integer,
if it has one. The operands are looked at in the order they are written in. -/
def beforeSign? : Expr → Option (List Char)
  | .num n => if n < 0 then some [] else none
  | .var _ => none
  | .bin op l r =>
    match l.beforeSign? with
    | some cs => some (openChars (leftParens op l) cs)
    | none => r.beforeSign?.map fun cs =>
      wrapChars (leftParens op l) l.chars ++ (infixChars op r ++ openChars (rightParens op r) cs)
  | .pow b k =>
    match b.beforeSign? with
    | some cs => some (openChars b.isCompound cs)
    | none => k.beforeSign?.map fun cs =>
      wrapChars b.isCompound b.chars ++ (['^'] ++ openChars k.isCompound cs)
  | .root e => e.beforeSign?.map fun cs => '√' :: openChars true cs

/-- The bytes that the sign of the first negative integer takes up in the
text. -/
def signSpan (e : Expr) : Span :=
  let start := (String.ofList (e.beforeSign?.getD [])).utf8ByteSize
  ⟨start, start + 1⟩

theorem beforeSign?_eq_none_iff : e.beforeSign? = none ↔ e.allNums (0 ≤ ·) := by
  induction e with
  | num n => simp [beforeSign?, allNums]
  | var x => simp [beforeSign?, allNums]
  | bin op l r ihl ihr =>
      rw [allNums, Bool.and_eq_true, ← ihl, ← ihr, beforeSign?]
      cases l.beforeSign? <;> simp
  | pow b k ihb ihk =>
      rw [allNums, Bool.and_eq_true, ← ihb, ← ihk, beforeSign?]
      cases b.beforeSign? <;> simp
  | root e ih => rw [allNums, ← ih, beforeSign?, Option.map_eq_none_iff]

/-- A text has `front` in front of a negative integer, and the lexemes `ls`, of
which the integer is one. -/
def SignAt (cs : List Char) (ls : List Lexeme) (front : List Char) : Prop :=
  ∃ n back after, n < 0 ∧ cs = front ++ (Numeral.chars n ++ back) ∧
    ls = scan false front ++ ⟨.number, Numeral.write n⟩ :: after

theorem signAt_num {n : Int} (hn : n < 0) : SignAt (Numeral.chars n) (ofInt true n) [] := by
  refine ⟨n, [], [], hn, by simp, ?_⟩
  rw [ofInt, if_neg fun h => h.2 rfl]
  rfl

namespace SignAt

theorem append (h : SignAt cs ls front) (ds : List Char) (rs : List Lexeme) :
    SignAt (cs ++ ds) (ls ++ rs) front := by
  obtain ⟨n, back, after, hn, rfl, rfl⟩ := h
  exact ⟨n, back ++ ds, after ++ rs, hn, by simp, by simp⟩

theorem behind (h : SignAt cs ls front)
    (hds : scan false (ds ++ front) = rs ++ scan false front) :
    SignAt (ds ++ cs) (rs ++ ls) (ds ++ front) := by
  obtain ⟨n, back, after, hn, rfl, rfl⟩ := h
  exact ⟨n, back, after, hn, by simp, by rw [hds, List.append_assoc]⟩

theorem wrap (h : SignAt cs ls front) (parens : Bool) :
    SignAt (wrapChars parens cs) (wrapLexemes parens ls) (openChars parens front) := by
  cases parens with
  | false => exact h
  | true =>
      have hopen : scan false (['('] ++ front) = [⟨.openParen, "("⟩] ++ scan false front :=
        scan_char rfl (.inl (by decide))
      exact (h.append [')'] [⟨.closeParen, ")"⟩]).behind hopen

theorem startsDigit_front (h : SignAt cs ls front) (hcs : startsDigit cs = false) :
    startsDigit front = false := by
  obtain ⟨n, back, after, -, rfl, -⟩ := h
  cases front with
  | nil => rfl
  | cons c cs => exact hcs

end SignAt

/-- Nothing in front of a text is part of its first lexeme, unless it is a
digit. -/
theorem scan_append_of_not_isDigit (hds : ∀ c ∈ ds, c.isDigit = false) (cs : List Char) :
    scan false (ds ++ cs) = scan false ds ++ scan false cs := by
  induction ds with
  | nil => rfl
  | cons c ds ih =>
      have hc : c.isDigit = false := hds c List.mem_cons_self
      have hds' := ih fun d hd => hds d (List.mem_cons_of_mem c hd)
      rw [List.cons_append, scan, scan, if_neg (by simp [hc]), if_neg (by simp [hc]),
        if_neg (by simp [hc]), if_neg (by simp [hc]), hds']
      cases Token.Kind.ofChar? c <;> rfl

theorem isDigit_infixChars : ∀ c ∈ infixChars op r, c.isDigit = false := by
  cases op with
  | mul =>
      simp only [infixChars]
      split <;> simp
  | sub | add | div =>
      simp [infixChars]

/-- Behind an operand without negative integers. -/
theorem SignAt.operand {p q : Bool} (h : SignAt cs ls front) (hvars : l.allVars isLetter)
    (hnums : l.allNums (0 ≤ ·)) (hds : ∀ c ∈ ds, c.isDigit = false)
    (hstart : startsDigit (ds ++ wrapChars q cs) = false) :
    SignAt (wrapChars p l.chars ++ (ds ++ wrapChars q cs))
      (wrapLexemes p (l.lexemes true) ++ (scan false ds ++ wrapLexemes q ls))
      (wrapChars p l.chars ++ (ds ++ openChars q front)) := by
  have hright := (h.wrap q).behind (scan_append_of_not_isDigit hds _)
  refine hright.behind ?_
  rw [← lexemes_of_nonneg hnums]
  exact (scansAs_chars hvars).wrap p _ (hright.startsDigit_front hstart)

theorem signAt_of_beforeSign? (he : e.allVars isLetter) (h : e.beforeSign? = some front) :
    SignAt e.chars (e.lexemes true) front := by
  induction e generalizing front with
  | num n =>
      rw [beforeSign?] at h
      split at h
      · next hn =>
          obtain rfl := Option.some.inj h
          exact signAt_num hn
      · cases h
  | var x => cases h
  | bin op l r ihl ihr =>
      obtain ⟨hl, hr⟩ := (Bool.and_eq_true _ _).mp he
      rw [beforeSign?] at h
      rw [chars_bin, lexemes_bin]
      split at h
      · next cs hcs =>
          obtain rfl := Option.some.inj h
          exact ((ihl hl hcs).wrap _).append _ _
      · next hnone =>
          obtain ⟨cs, hcs, rfl⟩ := Option.map_eq_some_iff.mp h
          refine (ihr hr hcs).operand hl (beforeSign?_eq_none_iff.mp hnone) isDigit_infixChars ?_
          cases op with
          | mul => exact List.append_nil (_ ++ _) ▸ startsDigit_factor hr []
          | sub | add | div => rfl
  | pow b k ihb ihk =>
      obtain ⟨hb, hk⟩ := (Bool.and_eq_true _ _).mp he
      rw [beforeSign?] at h
      split at h
      · next cs hcs =>
          obtain rfl := Option.some.inj h
          exact ((ihb hb hcs).wrap _).append _ _
      · next hnone =>
          obtain ⟨cs, hcs, rfl⟩ := Option.map_eq_some_iff.mp h
          have hcaret : ∀ c ∈ ['^'], c.isDigit = false := by simp
          exact (ihk hk hcs).operand hb (beforeSign?_eq_none_iff.mp hnone) hcaret rfl
  | root e ih =>
      obtain ⟨cs, hcs, rfl⟩ := Option.map_eq_some_iff.mp h
      have hroot : scan false (['√'] ++ openChars true cs) =
          [⟨.root, "√"⟩] ++ scan false (openChars true cs) :=
        scan_char rfl (.inl (by decide))
      exact ((ih he hcs).wrap true).behind hroot

end Expr

/-! ## Tokens -/

namespace Token

variable {cs ds : List Char} {pos : Nat} {ts us : List Token}

theorem consDigit_append (c : Char)
    (hus : ∀ t ∈ us.head?, ¬ (t.kind = .number ∧ t.span.start = pos + 1)) :
    consDigit pos c (ts ++ us) = consDigit pos c ts ++ us := by
  cases ts with
  | nil =>
      cases us with
      | nil => rfl
      | cons u us =>
          rw [List.nil_append, consDigit]
          exact if_neg (hus u rfl)
  | cons t ts =>
      rw [List.cons_append, consDigit, consDigit]
      split <;> rfl

/-- A text can be scanned in two parts, unless the second one starts with a
digit. -/
theorem scan_append (hds : startsDigit ds = false) : scan pos (cs ++ ds) =
    scan pos cs ++ scan (pos + (String.ofList cs).utf8ByteSize) ds := by
  induction cs generalizing pos with
  | nil => simp [scan]
  | cons c cs ih =>
      have hsize : pos + (String.ofList (c :: cs)).utf8ByteSize =
          pos + c.utf8Size + (String.ofList cs).utf8ByteSize := by
        simp [Nat.add_assoc]
      rw [List.cons_append, scan, scan, ih, hsize]
      split
      · next hc =>
          refine consDigit_append c fun t ht => ?_
          obtain ⟨ts, hts⟩ := List.head?_eq_some_iff.mp ht
          rintro ⟨hkind, hstart⟩
          -- the number would begin where the second part does
          have hle := le_start_of_mem_scan (hts ▸ List.mem_cons_self)
          rw [utf8Size_of_isDigit hc] at hle hts
          have hdigit := (isNumberAt_iff hts).mp ⟨hkind, by omega⟩
          rw [hds] at hdigit
          cases hdigit
      · cases Kind.ofChar? c <;> rfl

/-- The tokens of a text with a negative integer in it. -/
theorem scan_negative {n : Int} (hn : n < 0) (front back : List Char) :
    ∃ ts, scan 0 (front ++ (Numeral.chars n ++ back)) = scan 0 front ++
      ⟨.minus, "-", ⟨(String.ofList front).utf8ByteSize,
        (String.ofList front).utf8ByteSize + 1⟩⟩ :: ts := by
  rw [Numeral.chars, if_pos hn, List.cons_append, scan_append rfl, Nat.zero_add]
  exact ⟨_, rfl⟩

end Token

/-! ## Reading up to the sign -/

open Reading

variable {e : Expr} {limit : Nat} {t : Token}

namespace Reading

/-- Where a number can be taken up, an operand is waited for. -/
theorem exists_awaiting {reading reading' : Reading} (ht : t.kind = .number)
    (h : step limit reading t = .ok reading') : ∃ fs, reading = .awaiting fs := by
  cases reading with
  | awaiting fs => exact ⟨fs, rfl⟩
  | holding fs v =>
      simp only [step, continuation, ht] at h
      cases h

theorem step_minus (fs : List Frame) (ht : t.kind = .minus) :
    step limit (.awaiting fs) t = .error (.unexpectedToken .minus t.span operandKinds) := by
  simp only [step, operand, ht, unexpected]

/-- Reading stops at the first token that is refused. -/
theorem parseTokens_of_refused {front back : List Token} {reading : Reading} {err : ParseError}
    (hlimit : 0 < limit) (hfront : front.foldlM (step limit) (.awaiting []) = .ok reading)
    (ht : step limit reading t = .error err) :
    parseTokens limit (front ++ t :: back) = .error err := by
  have hne : (front ++ t :: back).isEmpty = false := by simp
  rw [parseTokens, hne, if_neg Bool.false_ne_true, if_neg (Nat.ne_of_gt hlimit),
    List.foldlM_append, hfront]
  show ((t :: back).foldlM (step limit) reading >>= _) = _
  rw [List.foldlM_cons, ht]
  rfl

/-- Some tokens that a number can follow in an input leave the reader waiting
for an operand. -/
theorem exists_awaiting_of_parseTokens {front back : List Token} (ht : t.kind = .number)
    (h : parseTokens limit (front ++ t :: back) = .ok (some e)) :
    ∃ fs, front.foldlM (step limit) (.awaiting []) = .ok (.awaiting fs) := by
  obtain ⟨-, reading, hrun, -⟩ := parseTokens_eq_ok h
  rw [List.foldlM_append] at hrun
  obtain ⟨reached, hfront, hrun⟩ := bind_eq_ok.mp hrun
  obtain ⟨next, hstep, -⟩ := bind_eq_ok.mp hrun
  obtain ⟨fs, rfl⟩ := exists_awaiting ht hstep
  exact ⟨fs, hfront⟩

end Reading

/-- A negative integer anywhere in an expression makes its text unreadable.
Reading stops at the sign of the first one, which is found in the place of an
operand. -/
theorem parse_text_of_negative (hvars : e.allVars Expr.isLetter)
    (hnums : e.allNums (0 ≤ ·) = false) (hlimit : 1 + 2 * e.height ≤ limit) :
    parse limit e.text = .error (.unexpectedToken .minus e.signSpan operandKinds) ∧
      ∃ front n back, n < 0 ∧ e.text = front ++ Numeral.write n ++ back ∧
        e.signSpan = ⟨front.utf8ByteSize, front.utf8ByteSize + 1⟩ := by
  obtain ⟨front, hfront⟩ : ∃ front, e.beforeSign? = some front :=
    Option.ne_none_iff_exists'.mp fun hnone => by
      rw [Expr.beforeSign?_eq_none_iff, hnums] at hnone
      cases hnone
  have hspan : e.signSpan = ⟨(String.ofList front).utf8ByteSize,
      (String.ofList front).utf8ByteSize + 1⟩ := by
    rw [Expr.signSpan, hfront, Option.getD_some]
  obtain ⟨n, back, after, hn, hchars, hlexemes⟩ := Expr.signAt_of_beforeSign? hvars hfront
  refine ⟨?_, String.ofList front, n, String.ofList back, hn, String.toList_injective ?_, hspan⟩
  · -- an input that agrees with the text up to the sign, and has a number there
    obtain ⟨us, hus⟩ := Lexeme.exists_tokens (⟨.number, Numeral.write n⟩ :: after)
    obtain ⟨t, us, rfl, ht, -⟩ := List.map_eq_cons_iff.mp hus
    have hinput : (Token.scan 0 front ++ t :: us).map Token.lexeme = e.lexemes true := by
      rw [List.map_append, Token.map_lexeme_scan, hus, hlexemes]
    obtain ⟨d, hd, haccepts⟩ := Expr.accepts_of_lexemes hinput
    obtain ⟨fs, hrun⟩ := exists_awaiting_of_parseTokens (congrArg Lexeme.kind ht)
      (parseTokens_of_accepts haccepts (Nat.le_trans hd hlimit))
    obtain ⟨ts, hts⟩ := Token.scan_negative hn front back
    rw [parse, tokenize, Expr.toList_text, hchars, hts, hspan]
    exact parseTokens_of_refused (by omega) hrun (step_minus fs rfl)
  · rw [Expr.toList_text, hchars]
    simp [Numeral.toList_write]

/-- `√(x)*3 - (y + -2)^(-1)`. -/
def twoNegatives : Expr :=
  .bin .sub (.bin .mul (.root (.var "x")) (.num 3))
    (.pow (.bin .add (.var "y") (.num (-2))) (.num (-1)))

/-- The root sign takes up three bytes, and the sign of `-2` is the first of the
two. -/
theorem parse_text_twoNegatives :
    twoNegatives.allVars Expr.isLetter ∧ twoNegatives.allNums (0 ≤ ·) = false ∧
      1 + 2 * twoNegatives.height ≤ 7 ∧
      twoNegatives.text = "√(x)*3 - (y + -2)^(-1)" ∧ twoNegatives.signSpan = ⟨16, 17⟩ ∧
      parse 7 twoNegatives.text =
        .error (.unexpectedToken .minus twoNegatives.signSpan operandKinds) := by
  have hvars : twoNegatives.allVars Expr.isLetter := by decide
  have hnums : twoNegatives.allNums (0 ≤ ·) = false := rfl
  have hlimit : 1 + 2 * twoNegatives.height ≤ 7 := by decide
  exact ⟨hvars, hnums, hlimit, by decide, by decide,
    (parse_text_of_negative hvars hnums hlimit).1⟩

end Surd
