import Surd.Expr.Shape
import Surd.Expr.Text
import Surd.Token

/-!
# The lexemes of a text

A lexeme is a token without its place, and which lexemes a text has does not
depend on where the text stands. This file computes those of a written
expression: a sign for each operation, a name for each variable and a number
for each integer, with parentheses where the text has them.

What a sign in front of a digit means is a matter of choice. The tokenizer
leaves it alone, so a negative integer is two lexemes to it. Taken as one, the
lexemes still show which integer they were, and everything the text shows of
an expression can be read back from them. Both readings are the same function
here, `scan signed`.
-/

namespace Surd

/-- A token without its place. -/
structure Lexeme where
  kind : Token.Kind
  text : String
deriving DecidableEq

/-- The lexeme of a token. -/
def Token.lexeme (t : Token) : Lexeme :=
  ⟨t.kind, t.text⟩

namespace Lexeme

/-- Whether a text starts with a digit. -/
def startsDigit (cs : List Char) : Bool :=
  cs.head?.any Char.isDigit

/-- Puts a character in front of the first lexeme. -/
def prepend (c : Char) : List Lexeme → List Lexeme
  | [] => []
  | l :: ls => ⟨l.kind, c.toString ++ l.text⟩ :: ls

/-- The lexemes of a text. A sign right in front of a digit is part of the
number if `signed` says so. -/
def scan (signed : Bool) : List Char → List Lexeme
  | [] => []
  | c :: cs =>
    if startsDigit cs ∧ (c.isDigit ∨ signed ∧ c = '-') then prepend c (scan signed cs)
    else if c.isDigit then ⟨.number, c.toString⟩ :: scan signed cs
    else match Token.Kind.ofChar? c with
      | some kind => ⟨kind, c.toString⟩ :: scan signed cs
      | none => scan signed cs

/-- The lexemes of an integer. -/
def ofInt (signed : Bool) (n : Int) : List Lexeme :=
  if n < 0 ∧ ¬ signed then [⟨.minus, "-"⟩, ⟨.number, Numeral.write n.natAbs⟩]
  else [⟨.number, Numeral.write n⟩]

variable {signed : Bool} {c : Char} {cs : List Char} {kind : Token.Kind}

/-! ## Characters -/

theorem not_isDigit_of_isAlpha (h : c.isAlpha) : ¬ c.isDigit := by
  intro hdigit
  have hle : c.toNat ≤ '9'.toNat := (Char.isDigit_iff_toNat.mp hdigit).2
  have hletter : 'A'.toNat ≤ c.toNat := by
    rcases (Bool.or_eq_true _ _).mp h with hupper | hlower
    · exact UInt32.le_iff_toNat_le.mp (of_decide_eq_true hupper).1
    · have ha : 'a'.toNat ≤ c.toNat :=
        UInt32.le_iff_toNat_le.mp (of_decide_eq_true ((Bool.and_eq_true _ _).mp hlower).1)
      exact Nat.le_trans (by decide) ha
  exact absurd (Nat.le_trans hletter hle) (by decide)

/-- What is no sign is a name or nothing. -/
theorem ofChar?_of_class {p : Char → Bool}
    (hp : ['(', ')', '+', '-', '*', '/', '^', '√'].all fun d => !p d) (h : p c) :
    Token.Kind.ofChar? c = if c.isAlpha then some .identifier else none := by
  have hne : ∀ d ∈ ['(', ')', '+', '-', '*', '/', '^', '√'], c ≠ d := by
    rintro d hd rfl
    have hnot := List.all_eq_true.mp hp c hd
    rw [h] at hnot
    cases hnot
  simp only [List.forall_mem_cons] at hne
  simp [Token.Kind.ofChar?, hne]

theorem ofChar?_of_isDigit (h : c.isDigit) : Token.Kind.ofChar? c = none := by
  rw [ofChar?_of_class (p := Char.isDigit) (by decide) h,
    if_neg fun halpha => not_isDigit_of_isAlpha halpha h]

theorem ofChar?_of_isAlpha (h : c.isAlpha) : Token.Kind.ofChar? c = some .identifier := by
  rw [ofChar?_of_class (p := Char.isAlpha) (by decide) h, if_pos h]

theorem scan_space : scan signed (' ' :: cs) = scan signed cs := by
  rw [scan, if_neg (by simp), if_neg (by decide)]
  rfl

theorem scan_char (hc : Token.Kind.ofChar? c = some kind)
    (hcs : c ≠ '-' ∨ startsDigit cs = false) :
    scan signed (c :: cs) = ⟨kind, c.toString⟩ :: scan signed cs := by
  have hdigit : ¬ c.isDigit := fun hd => by
    rw [ofChar?_of_isDigit hd] at hc
    cases hc
  have hjoin : ¬ (startsDigit cs ∧ (c.isDigit ∨ signed ∧ c = '-')) := by
    rintro ⟨hstart, hd | ⟨-, hminus⟩⟩
    · exact hdigit hd
    · rw [hcs.resolve_left (not_not_intro hminus)] at hstart
      cases hstart
  rw [scan, if_neg hjoin, if_neg hdigit, hc]

theorem startsDigit_append {ds : List Char} (hds : ∀ d ∈ ds, d.isDigit) (hne : ds ≠ []) :
    startsDigit (ds ++ cs) := by
  cases ds with
  | nil => exact absurd rfl hne
  | cons d ds => exact hds d List.mem_cons_self

theorem scan_digits {ds : List Char} (hds : ∀ d ∈ ds, d.isDigit) (hne : ds ≠ [])
    (hcs : startsDigit cs = false) :
    scan signed (ds ++ cs) = ⟨.number, String.ofList ds⟩ :: scan signed cs := by
  induction ds with
  | nil => exact absurd rfl hne
  | cons d ds ih =>
      have hd := hds d List.mem_cons_self
      have htail := fun c hc => hds c (List.mem_cons_of_mem d hc)
      by_cases hds' : ds = []
      · subst hds'
        rw [List.singleton_append, scan, if_neg (by simp [hcs]), if_pos hd]
        rfl
      · rw [List.cons_append, scan, if_pos ⟨startsDigit_append htail hds', .inl hd⟩,
          ih htail hds', prepend]
        simp

theorem scan_int (n : Int) (hcs : startsDigit cs = false) :
    scan signed (Numeral.chars n ++ cs) = ofInt signed n ++ scan signed cs := by
  have hdigits : ∀ d ∈ Numeral.digits n.natAbs, d.isDigit := fun d hd =>
    Numeral.isDigit_of_mem_digits hd
  have hne := Numeral.digits_ne_nil n.natAbs
  have hscan : scan signed (Numeral.digits n.natAbs ++ cs) = _ := scan_digits hdigits hne hcs
  have hwrite : Numeral.write n.natAbs = String.ofList (Numeral.digits n.natAbs) := by
    rw [Numeral.write, if_neg (by omega)]
    rfl
  by_cases hn : n < 0
  · rw [Numeral.chars, if_pos hn, List.cons_append]
    cases signed with
    | true =>
        have hsign : Numeral.write n = '-'.toString ++ String.ofList (Numeral.digits n.natAbs) := by
          rw [Numeral.write, if_pos hn]
          rfl
        rw [scan, if_pos ⟨startsDigit_append hdigits hne, .inr ⟨rfl, rfl⟩⟩, hscan, ofInt,
          if_neg fun h => h.2 rfl, hsign]
        rfl
    | false =>
        rw [scan, if_neg (by simp), if_neg (by decide), hscan, ← hwrite, ofInt,
          if_pos ⟨hn, Bool.false_ne_true⟩]
        rfl
  · have habs : (n.natAbs : Int) = n := by omega
    rw [Numeral.chars, if_neg hn, hscan, ← hwrite, habs, ofInt, if_neg fun h => hn h.1]
    rfl

end Lexeme

/-! ## Tokens -/

namespace Token

variable {c : Char} {cs : List Char} {pos : Nat} {t : Token} {ts : List Token}

theorem utf8Size_of_isDigit (h : c.isDigit) : c.utf8Size = 1 := by
  simp only [Char.isDigit, Bool.and_eq_true, decide_eq_true_eq] at h
  have h9 : '9'.val ≤ 127 := by decide
  unfold Char.utf8Size
  exact if_pos (UInt32.le_trans h.2 h9)

theorem mem_consDigit (h : t ∈ consDigit pos c ts) : t.span.start = pos ∨ t ∈ ts := by
  simp only [consDigit] at h
  split at h
  · exact .inl (by rw [List.mem_singleton.mp h])
  · split at h
    · rcases List.mem_cons.mp h with rfl | h
      · exact .inl rfl
      · exact .inr (List.mem_cons_of_mem _ h)
    · rcases List.mem_cons.mp h with rfl | h
      · exact .inl rfl
      · exact .inr h

theorem le_start_of_mem_scan (h : t ∈ scan pos cs) : pos ≤ t.span.start := by
  induction cs generalizing pos with
  | nil => cases h
  | cons c cs ih =>
      have htail : t ∈ scan (pos + c.utf8Size) cs → pos ≤ t.span.start := fun h =>
        Nat.le_trans (Nat.le_add_right _ _) (ih h)
      rw [scan] at h
      split at h
      · exact (mem_consDigit h).elim (fun hstart => Nat.le_of_eq hstart.symm) htail
      · split at h
        · rcases List.mem_cons.mp h with rfl | h
          · exact Nat.le_refl _
          · exact htail h
        · exact htail h

theorem consDigit_eq_cons (pos : Nat) (c : Char) (ts : List Token) :
    ∃ text stop us, consDigit pos c ts = ⟨.number, text, ⟨pos, stop⟩⟩ :: us := by
  simp only [consDigit]
  split
  · exact ⟨_, _, _, rfl⟩
  · split
    · exact ⟨_, _, _, rfl⟩
    · exact ⟨_, _, _, rfl⟩

theorem ofChar?_ne_number (c : Char) : Kind.ofChar? c ≠ some .number := by
  grind [Kind.ofChar?]

theorem scan_ne_nil (h : Lexeme.startsDigit cs) : scan pos cs ≠ [] := by
  cases cs with
  | nil => cases h
  | cons c cs =>
      have hc : c.isDigit := h
      obtain ⟨text, stop, us, heq⟩ := consDigit_eq_cons pos c (scan (pos + c.utf8Size) cs)
      rw [scan, if_pos hc, heq]
      exact List.cons_ne_nil _ _

/-- A number begins right at the start of a text that starts with a digit, and
of no other. -/
theorem isNumberAt_iff (h : scan pos cs = t :: ts) :
    t.kind = .number ∧ t.span.start = pos ↔ Lexeme.startsDigit cs := by
  cases cs with
  | nil => cases h
  | cons c cs =>
      show _ ↔ c.isDigit
      rw [scan] at h
      split at h
      · next hc =>
          obtain ⟨text, stop, us, heq⟩ := consDigit_eq_cons pos c (scan (pos + c.utf8Size) cs)
          obtain ⟨rfl, -⟩ := List.cons.inj (heq.symm.trans h)
          exact iff_of_true ⟨rfl, rfl⟩ hc
      · next hc =>
          refine iff_of_false ?_ hc
          rintro ⟨hkind, hstart⟩
          split at h
          · next kind hk =>
              obtain ⟨rfl, -⟩ := List.cons.inj h
              exact ofChar?_ne_number c (hkind ▸ hk)
          · have hle := le_start_of_mem_scan (h ▸ List.mem_cons_self)
            have := c.utf8Size_pos
            omega

/-- The lexemes of a text's tokens do not depend on where the text stands. -/
theorem map_lexeme_scan (pos : Nat) (cs : List Char) :
    (scan pos cs).map lexeme = Lexeme.scan false cs := by
  induction cs generalizing pos with
  | nil => rfl
  | cons c cs ih =>
      have hrest := ih (pos + c.utf8Size)
      rw [scan, Lexeme.scan]
      by_cases hc : c.isDigit
      · rw [utf8Size_of_isDigit hc] at hrest ⊢
        rw [if_pos hc, if_pos hc, ← hrest]
        cases hts : scan (pos + 1) cs with
        | nil =>
            rw [if_neg fun h => scan_ne_nil h.1 hts]
            rfl
        | cons t ts =>
            have hiff := isNumberAt_iff hts
            by_cases hs : Lexeme.startsDigit cs
            · obtain ⟨hkind, hstart⟩ := hiff.mpr hs
              rw [consDigit, if_pos ⟨hkind, hstart⟩, if_pos ⟨hs, .inl hc⟩, List.map_cons,
                List.map_cons, Lexeme.prepend, lexeme, lexeme, hkind]
            · rw [consDigit, if_neg (mt hiff.mp hs), if_neg fun h => hs h.1]
              rfl
      · have hsigned : ¬ (Lexeme.startsDigit cs ∧ (c.isDigit ∨ false ∧ c = '-')) := by simp [hc]
        rw [if_neg hc, if_neg hsigned, if_neg hc]
        cases Kind.ofChar? c with
        | none => exact hrest
        | some kind =>
            rw [List.map_cons, hrest]
            rfl

end Token

/-! ## Expressions -/

namespace Expr

open Lexeme

/-- Lexemes in parentheses, if `parens` asks for them. -/
def wrapLexemes (parens : Bool) (ls : List Lexeme) : List Lexeme :=
  if parens then ⟨.openParen, "("⟩ :: (ls ++ [⟨.closeParen, ")"⟩]) else ls

/-- The lexemes of an expression's text. -/
def lexemes (signed : Bool) : Expr → List Lexeme
  | .num n => ofInt signed n
  | .var x => [⟨.identifier, x⟩]
  | .bin .sub l r => l.lexemes signed ++ ⟨.minus, "-"⟩ :: wrapLexemes r.isSum (r.lexemes signed)
  | .bin .add l r =>
    wrapLexemes (l.isBin .sub) (l.lexemes signed)
      ++ ⟨.plus, "+"⟩ :: wrapLexemes r.isSum (r.lexemes signed)
  | .bin .div l r =>
    wrapLexemes l.isSum (l.lexemes signed)
      ++ ⟨.divide, "/"⟩ :: wrapLexemes r.isSumOrQuotient (r.lexemes signed)
  | .bin .mul l r =>
    wrapLexemes l.isSumOrQuotient (l.lexemes signed)
      ++ ((if !r.isSumOrQuotient && r.startsWithNumber then [⟨.times, "*"⟩] else [])
        ++ wrapLexemes r.isSumOrQuotient (r.lexemes signed))
  | .pow b k =>
    wrapLexemes b.isCompound (b.lexemes signed)
      ++ ⟨.caret, "^"⟩ :: wrapLexemes k.isCompound (k.lexemes signed)
  | .root e => ⟨.root, "√"⟩ :: wrapLexemes true (e.lexemes signed)

variable {signed : Bool} {e : Expr} {cs : List Char}

theorem toList_toString (c : Char) : c.toString.toList = [c] := by
  simp

theorem exists_char_of_isLetter {x : String} (h : isLetter x) :
    ∃ c : Char, c.isAlpha ∧ x = c.toString := by
  rw [isLetter] at h
  split at h
  · next c hc => exact ⟨c, h, String.toList_injective (by simp [hc])⟩
  · cases h

/-- What can be scanned as `ls` in front of anything but a digit. -/
def ScansAs (signed : Bool) (cs : List Char) (ls : List Lexeme) : Prop :=
  ∀ rest, startsDigit rest = false → scan signed (cs ++ rest) = ls ++ scan signed rest

theorem scansAs_nil : ScansAs signed [] [] := by
  intro rest _
  rfl

theorem ScansAs.wrap {ls : List Lexeme} (h : ScansAs signed cs ls) (parens : Bool) :
    ScansAs signed (wrapChars parens cs) (wrapLexemes parens ls) := by
  cases parens with
  | false => exact h
  | true =>
      intro rest hrest
      have hclose : scan signed (')' :: rest) = ⟨.closeParen, ")"⟩ :: scan signed rest :=
        scan_char rfl (.inl (by decide))
      show scan signed ('(' :: ((cs ++ [')']) ++ rest)) = _
      rw [scan_char rfl (.inl (by decide)), List.append_assoc, List.singleton_append, h _ rfl,
        hclose]
      simp [wrapLexemes]

theorem startsDigit_sign {c : Char} {kind : Token.Kind} (hc : Token.Kind.ofChar? c = some kind) :
    startsDigit (c :: cs) = false := by
  cases hd : c.isDigit with
  | false => exact hd
  | true =>
      rw [ofChar?_of_isDigit hd] at hc
      cases hc

theorem ScansAs.append {ds : List Char} {ls rs : List Lexeme} (hl : ScansAs signed cs ls)
    (hr : ScansAs signed ds rs) (hds : ∀ rest, startsDigit (ds ++ rest) = false) :
    ScansAs signed (cs ++ ds) (ls ++ rs) := by
  intro rest hrest
  rw [List.append_assoc, hl _ (hds rest), hr rest hrest, List.append_assoc]

theorem ScansAs.sign {c : Char} {kind : Token.Kind} {ds : List Char} {ls rs : List Lexeme}
    (hl : ScansAs signed cs ls) (hr : ScansAs signed ds rs)
    (hc : Token.Kind.ofChar? c = some kind) (hne : c ≠ '-') :
    ScansAs signed (cs ++ c :: ds) (ls ++ ⟨kind, c.toString⟩ :: rs) := by
  have hright : ScansAs signed (c :: ds) (⟨kind, c.toString⟩ :: rs) := by
    intro rest hrest
    rw [List.cons_append, scan_char hc (.inl hne), hr rest hrest]
    rfl
  exact hl.append hright fun rest => startsDigit_sign hc

theorem ScansAs.spaced {c : Char} {kind : Token.Kind} {ds : List Char} {ls rs : List Lexeme}
    (hl : ScansAs signed cs ls) (hr : ScansAs signed ds rs)
    (hc : Token.Kind.ofChar? c = some kind) :
    ScansAs signed (cs ++ ' ' :: c :: ' ' :: ds) (ls ++ ⟨kind, c.toString⟩ :: rs) := by
  have hright : ScansAs signed (' ' :: c :: ' ' :: ds) (⟨kind, c.toString⟩ :: rs) := by
    intro rest hrest
    rw [List.cons_append, List.cons_append, List.cons_append, scan_space, scan_char hc (.inr rfl),
      scan_space, hr rest hrest]
    rfl
  exact hl.append hright fun rest => rfl

theorem startsDigit_wrapChars {parens : Bool}
    (h : parens = false → ∀ rest, startsDigit (cs ++ rest) = false) (rest : List Char) :
    startsDigit (wrapChars parens cs ++ rest) = false := by
  cases parens with
  | true => rfl
  | false => exact h rfl rest

/-- Only what starts with an integer starts with a digit. -/
theorem startsDigit_chars (he : e.allVars isLetter) (h : e.startsWithNumber = false)
    (rest : List Char) : startsDigit (e.chars ++ rest) = false := by
  fun_induction chars e generalizing rest with
  | case1 n => cases h
  | case2 x =>
      obtain ⟨c, hc, rfl⟩ := exists_char_of_isLetter he
      rw [toList_toString]
      exact startsDigit_sign (ofChar?_of_isAlpha hc)
  | case3 l r ihl ihr =>
      rw [List.append_assoc]
      exact ihl ((Bool.and_eq_true _ _).mp he).1 (by simpa [startsWithNumber] using h) _
  | case4 l r ihl ihr =>
      rw [List.append_assoc]
      refine startsDigit_wrapChars (fun _ => ?_) _
      exact ihl ((Bool.and_eq_true _ _).mp he).1 (by simpa [startsWithNumber] using h)
  | case5 l r ihl ihr =>
      rw [List.append_assoc]
      refine startsDigit_wrapChars (fun _ => ?_) _
      exact ihl ((Bool.and_eq_true _ _).mp he).1 (by simpa [startsWithNumber] using h)
  | case6 l r ihl ihr =>
      rw [List.append_assoc]
      refine startsDigit_wrapChars (fun hwrap => ?_) _
      exact ihl ((Bool.and_eq_true _ _).mp he).1 (by simpa [startsWithNumber, hwrap] using h)
  | case7 b k ihb ihk =>
      rw [List.append_assoc]
      refine startsDigit_wrapChars (fun hwrap => ?_) _
      exact ihb ((Bool.and_eq_true _ _).mp he).1 (by simpa [startsWithNumber, hwrap] using h)
  | case8 e ih => rfl

/-- A right factor starts with a digit only if a sign stands in front of it. -/
theorem startsDigit_factor (he : e.allVars isLetter) (rest : List Char) :
    startsDigit ((if !e.isSumOrQuotient && e.startsWithNumber then ['*'] else [])
      ++ wrapChars e.isSumOrQuotient e.chars ++ rest) = false := by
  split
  · rfl
  · next h =>
      refine startsDigit_wrapChars (fun hwrap => startsDigit_chars he ?_) rest
      simpa [hwrap] using h

theorem scansAs_chars (he : e.allVars isLetter) :
    ScansAs signed e.chars (e.lexemes signed) := by
  fun_induction chars e with
  | case1 n => exact fun rest hrest => scan_int n hrest
  | case2 x =>
      intro rest _
      obtain ⟨c, hc, rfl⟩ := exists_char_of_isLetter he
      rw [toList_toString]
      refine scan_char (ofChar?_of_isAlpha hc) (.inl ?_)
      rintro rfl
      cases hc
  | case3 l r ihl ihr =>
      obtain ⟨hl, hr⟩ := (Bool.and_eq_true _ _).mp he
      exact (ihl hl).spaced ((ihr hr).wrap _) rfl
  | case4 l r ihl ihr =>
      obtain ⟨hl, hr⟩ := (Bool.and_eq_true _ _).mp he
      exact ((ihl hl).wrap _).spaced ((ihr hr).wrap _) rfl
  | case5 l r ihl ihr =>
      obtain ⟨hl, hr⟩ := (Bool.and_eq_true _ _).mp he
      exact ((ihl hl).wrap _).sign ((ihr hr).wrap _) rfl (by decide)
  | case6 l r ihl ihr =>
      obtain ⟨hl, hr⟩ := (Bool.and_eq_true _ _).mp he
      refine ((ihl hl).wrap _).append ?_ (startsDigit_factor hr)
      have hright := (ihr hr).wrap r.isSumOrQuotient
      split
      · exact scansAs_nil.sign hright rfl (by decide)
      · exact hright
  | case7 b k ihb ihk =>
      obtain ⟨hb, hk⟩ := (Bool.and_eq_true _ _).mp he
      exact ((ihb hb).wrap _).sign ((ihk hk).wrap _) rfl (by decide)
  | case8 e ih =>
      exact scansAs_nil.sign ((ih he).wrap true) rfl (by decide)

/-- The lexemes of an expression's text are those of the expression. -/
theorem scan_chars (signed : Bool) (he : e.allVars isLetter) :
    scan signed e.chars = e.lexemes signed := by
  have h : scan signed (e.chars ++ []) = _ := scansAs_chars he [] rfl
  rwa [List.append_nil, scan, List.append_nil] at h

/-- Without negative integers no sign can be part of a number. -/
theorem lexemes_of_nonneg (he : e.allNums (0 ≤ ·)) : e.lexemes false = e.lexemes true := by
  induction e with
  | num n =>
      have hn : ¬ n < 0 := Int.not_lt.mpr (of_decide_eq_true he)
      rw [lexemes, lexemes, ofInt, ofInt, if_neg fun h => hn h.1, if_neg fun h => hn h.1]
  | var x => rfl
  | bin op l r ihl ihr =>
      obtain ⟨hl, hr⟩ := (Bool.and_eq_true _ _).mp he
      cases op <;> rw [lexemes, lexemes, ihl hl, ihr hr]
  | pow b k ihb ihk =>
      obtain ⟨hb, hk⟩ := (Bool.and_eq_true _ _).mp he
      rw [lexemes, lexemes, ihb hb, ihk hk]
  | root e ih => rw [lexemes, lexemes, ih he]

end Expr

end Surd
