import Mathlib.Data.String.Basic
import Surd.Proofs.Lexemes
import Surd.Proofs.Rejection

/-!
# Where the tokens of a text stand

The scanner works from the right, and a number grows by one digit at a time.
Read from the left, the same tokens split the text into pieces: a dropped
character, a single character of some kind, or a run of digits that no digit
follows (`Splits`). Everything about places and bytes is an induction on these
pieces. A run of digits is not preceded by a digit either, since what comes
before it is a piece of its own.

The reader only ever sees the tokens, so an error can point at nothing but one of
them. A number is all digits and is always read, and a text without tokens is no
error.
-/

namespace Surd

open Lexeme (startsDigit)

/-! ## Characters -/

namespace Token

/-- The characters that are tokens of this kind, each by itself. -/
def Kind.IsChar : Kind → Char → Prop
  | .identifier, c => c.isAlpha
  | .number, _ => False
  | .openParen, c => c = '('
  | .closeParen, c => c = ')'
  | .plus, c => c = '+'
  | .minus, c => c = '-'
  | .times, c => c = '*'
  | .divide, c => c = '/'
  | .caret, c => c = '^'
  | .root, c => c = '√'

/-- The characters that are tokens and neither names nor digits. -/
def signs : List Char :=
  ['(', ')', '+', '-', '*', '/', '^', '√']

variable {c : Char} {kind : Kind}

theorem Kind.isChar_of_ofChar? (h : Kind.ofChar? c = some kind) : kind.IsChar c := by
  grind [Kind.ofChar?, Kind.IsChar]

theorem Kind.not_isDigit_of_isChar (h : kind.IsChar c) : c.isDigit = false := by
  cases kind with
  | identifier => exact Bool.eq_false_iff.mpr (Lexeme.not_isDigit_of_isAlpha h)
  | number => exact h.elim
  | openParen | closeParen | plus | minus | times | divide | caret | root =>
      obtain rfl := h
      decide

/-- Every letter and every sign has a kind. -/
theorem Kind.dropped_of_ofChar? (h : Kind.ofChar? c = none) : c.isAlpha = false ∧ c ∉ signs := by
  constructor
  · refine Bool.eq_false_iff.mpr fun halpha => ?_
    rw [Lexeme.ofChar?_of_isAlpha halpha] at h
    cases h
  · intro hc
    have hsigns : signs.all fun d => (Kind.ofChar? d).isSome := by decide
    have hsome := List.all_eq_true.mp hsigns c hc
    rw [h] at hsome
    cases hsome

end Token

/-- Digits are a numeral, if there are any. -/
theorem Numeral.isSome_ofChars? {ds : List Char} (hne : ds ≠ []) (hds : ∀ d ∈ ds, d.isDigit) :
    (ofChars? ds).isSome := by
  cases ds with
  | nil => exact absurd rfl hne
  | cons d ds =>
      have hd : d.isDigit := hds d List.mem_cons_self
      rw [ofChars?_of_isDigit hd, readNat?, if_neg (ne_underscore_of_isDigit hd),
        readDigits_eq_ofDigitChars hds]
      rfl

/-! ## Pieces -/

namespace Token

variable {c : Char} {cs m : List Char} {kind : Kind} {pos : Nat} {ts : List Token}

/-- What a token of this kind is made of. -/
inductive Kind.Covers : Kind → List Char → Prop where
  | digits {ds : List Char} : ds ≠ [] → (∀ d ∈ ds, d.isDigit) → Covers .number ds
  | char {kind : Kind} {c : Char} : kind.IsChar c → Covers kind [c]

/-- A text that begins at byte `pos` consists of these tokens and of characters
that are none. -/
inductive Splits : Nat → List Char → List Token → Prop where
  | nil {pos : Nat} : Splits pos [] []
  | dropped {pos : Nat} {c : Char} {cs : List Char} {ts : List Token} :
      c.isDigit = false → Kind.ofChar? c = none → Splits (pos + c.utf8Size) cs ts →
      Splits pos (c :: cs) ts
  | token {pos : Nat} {kind : Kind} {m cs : List Char} {ts : List Token} :
      kind.Covers m → (kind = .number → startsDigit cs = false) →
      Splits (pos + String.utf8Len m) cs ts →
      Splits pos (m ++ cs) (⟨kind, String.ofList m, ⟨pos, pos + String.utf8Len m⟩⟩ :: ts)

theorem Kind.Covers.ne_nil (h : kind.Covers m) : m ≠ [] := by
  cases h with
  | digits hne _ => exact hne
  | char _ => exact List.cons_ne_nil _ _

theorem Kind.Covers.utf8Len_pos (h : kind.Covers m) : 0 < String.utf8Len m :=
  Nat.pos_of_ne_zero fun hzero => h.ne_nil (String.utf8Len_eq_zero.mp hzero)

theorem Kind.covers_number : Kind.number.Covers m ↔ m ≠ [] ∧ ∀ d ∈ m, d.isDigit := by
  constructor
  · intro h
    cases h with
    | digits hne hds => exact ⟨hne, hds⟩
    | char hc => exact hc.elim
  · rintro ⟨hne, hds⟩
    exact .digits hne hds

/-- A token that starts with a digit is a number. -/
theorem Kind.Covers.eq_number (h : kind.Covers m) (hm : startsDigit (m ++ cs)) :
    kind = .number := by
  cases h with
  | digits _ _ => rfl
  | char hc => simp [startsDigit, Kind.not_isDigit_of_isChar hc] at hm

/-- A digit joins the number that follows it right away, and is a number of its
own if none does. -/
theorem splits_consDigit (hc : c.isDigit) (h : Splits (pos + 1) cs (scan (pos + 1) cs)) :
    Splits pos (c :: cs) (consDigit pos c (scan (pos + 1) cs)) := by
  have hsize := utf8Size_of_isDigit hc
  by_cases hs : startsDigit cs
  · -- a piece that starts with a digit is the number to join
    generalize scan (pos + 1) cs = ts at h
    cases h with
    | nil => cases hs
    | dropped hd _ _ =>
        rw [startsDigit, List.head?_cons, Option.any_some, hd] at hs
        cases hs
    | @token _ kind m cs ts hm hmax hts =>
        obtain rfl := hm.eq_number hs
        have hstop : pos + 1 + String.utf8Len m = pos + String.utf8Len (c :: m) := by
          rw [String.utf8Len_cons, hsize]
          omega
        have htext : c.toString ++ String.ofList m = String.ofList (c :: m) :=
          String.toList_injective (by simp)
        rw [consDigit, if_pos ⟨rfl, rfl⟩, htext, hstop]
        rw [hstop] at hts
        obtain ⟨-, hds⟩ := Kind.covers_number.mp hm
        exact .token (.digits (List.cons_ne_nil c m) (List.forall_mem_cons.mpr ⟨hc, hds⟩)) hmax hts
  · have hnew : consDigit pos c (scan (pos + 1) cs) =
        ⟨.number, c.toString, ⟨pos, pos + 1⟩⟩ :: scan (pos + 1) cs := by
      cases hscan : scan (pos + 1) cs with
      | nil => rfl
      | cons t ts => rw [consDigit, if_neg (mt (isNumberAt_iff hscan).mp hs)]
    have hstop : pos + 1 = pos + String.utf8Len [c] := by
      rw [String.utf8Len_cons, hsize]
      rfl
    have hcovers : Kind.number.Covers [c] :=
      .digits (List.cons_ne_nil c []) (List.forall_mem_singleton.mpr hc)
    rw [hnew, hstop]
    rw [hstop] at h
    exact .token hcovers (fun _ => Bool.eq_false_iff.mpr hs) h

theorem splits_scan (pos : Nat) (cs : List Char) : Splits pos cs (scan pos cs) := by
  induction cs generalizing pos with
  | nil => exact .nil
  | cons c cs ih =>
      have hrest := ih (pos + c.utf8Size)
      rw [scan]
      split
      · next hc =>
          rw [utf8Size_of_isDigit hc] at hrest ⊢
          exact splits_consDigit hc hrest
      · next hc =>
          split
          · next kind hkind =>
              have hstop : pos + c.utf8Size = pos + String.utf8Len [c] := by simp
              rw [hstop] at hrest ⊢
              exact .token (.char (Kind.isChar_of_ofChar? hkind))
                (fun hnumber => absurd (hnumber ▸ hkind) (ofChar?_ne_number c)) hrest
          · next hnone => exact .dropped (Bool.eq_false_iff.mpr hc) hnone hrest

/-! ## Places -/

theorem Splits.le_start (h : Splits pos cs ts) : ∀ t ∈ ts, pos ≤ t.span.start := by
  induction h with
  | nil => exact List.forall_mem_nil _
  | dropped _ _ _ ih => exact fun t ht => Nat.le_trans (Nat.le_add_right _ _) (ih t ht)
  | token _ _ _ ih =>
      refine List.forall_mem_cons.mpr ⟨Nat.le_refl _, fun t ht => ?_⟩
      exact Nat.le_trans (Nat.le_add_right _ _) (ih t ht)

/-- The tokens come one after the other. -/
theorem Splits.pairwise (h : Splits pos cs ts) :
    ts.Pairwise fun t u => t.span.stop ≤ u.span.start := by
  induction h with
  | nil => exact .nil
  | dropped _ _ _ ih => exact ih
  | token _ _ hrest ih => exact .cons hrest.le_start ih

/-- A character outside of every token is no digit and has no kind. -/
theorem Splits.dropped_of_outside {before after : List Char} (h : Splits pos cs ts)
    (hcs : cs = before ++ c :: after)
    (hout : ∀ t ∈ ts, ¬ (t.span.start ≤ pos + String.utf8Len before ∧
      pos + String.utf8Len before + c.utf8Size ≤ t.span.stop)) :
    c.isDigit = false ∧ Kind.ofChar? c = none := by
  induction h generalizing before with
  | nil => cases before <;> cases hcs
  | dropped hdigit hkind _ ih =>
      cases before with
      | nil =>
          obtain ⟨rfl, -⟩ := List.cons.inj hcs
          exact ⟨hdigit, hkind⟩
      | cons b before =>
          obtain ⟨rfl, hrest⟩ := List.cons.inj hcs
          refine ih hrest fun t ht hin => hout t ht ?_
          rw [String.utf8Len_cons]
          omega
  | @token pos kind m cs ts _ _ _ ih =>
      -- the character stands in the token or in what comes after it
      obtain ⟨hhead, htail⟩ := List.forall_mem_cons.mp hout
      have hlater : ∀ bs, before = m ++ bs → cs = bs ++ c :: after →
          c.isDigit = false ∧ Kind.ofChar? c = none := by
        rintro bs rfl hrest
        refine ih hrest fun t ht hin => htail t ht ?_
        rw [String.utf8Len_append]
        omega
      rcases List.append_eq_append_iff.mp hcs with ⟨bs, hbefore, hrest⟩ | ⟨bs, rfl, hrest⟩
      · exact hlater bs hbefore hrest
      · cases bs with
        | nil => exact hlater [] (by simp) hrest.symm
        | cons b bs =>
            obtain ⟨rfl, -⟩ := List.cons.inj hrest
            refine absurd ?_ hhead
            rw [String.utf8Len_append, String.utf8Len_cons]
            dsimp only
            omega

end Token

/-- The part of a text at a span. -/
def Span.slice (s : Span) (src : String) : String :=
  String.Pos.Raw.extract src ⟨s.start⟩ ⟨s.stop⟩

/-- The span is not empty, and both of its ends are places between characters of
the text. -/
structure Span.Within (s : Span) (src : String) : Prop where
  start_lt_stop : s.start < s.stop
  stop_le : s.stop ≤ src.utf8ByteSize
  isValid_start : String.Pos.Raw.IsValid src ⟨s.start⟩
  isValid_stop : String.Pos.Raw.IsValid src ⟨s.stop⟩

namespace Token

/-- Whether a text ends with a digit. -/
def endsDigit (cs : List Char) : Bool :=
  cs.getLast?.any Char.isDigit

/-- A token is in its place and is as long as it can be, if this text comes
before it and this text after it. -/
structure StandsBetween (t : Token) (before after : String) : Prop where
  start : t.span.start = before.utf8ByteSize
  stop : t.span.stop = before.utf8ByteSize + t.text.utf8ByteSize
  covers : t.kind.Covers t.text.toList
  maximal : t.kind = .number →
    endsDigit before.toList = false ∧ startsDigit after.toList = false

/-- Each token of the rest of a text has its place in the whole text. -/
theorem Splits.exists_between (h : Splits pos cs ts) (front : List Char)
    (hpos : pos = String.utf8Len front) (hfront : endsDigit front → startsDigit cs = false) :
    ∀ t ∈ ts, ∃ before after, String.ofList (front ++ cs) = before ++ t.text ++ after ∧
      t.StandsBetween before after := by
  induction h generalizing front with
  | nil => exact List.forall_mem_nil _
  | @dropped _ c cs _ hdigit _ _ ih =>
      have hrest := ih (front ++ [c]) (by simp [hpos]) (by simp [endsDigit, hdigit])
      rwa [List.append_assoc, List.singleton_append] at hrest
  | @token _ kind m cs _ hm hmax _ ih =>
      have hbefore : kind = .number → endsDigit front = false := by
        rintro rfl
        obtain ⟨hne, hds⟩ := Kind.covers_number.mp hm
        refine Bool.eq_false_iff.mpr fun hends => ?_
        rw [Lexeme.startsDigit_append hds hne] at hfront
        cases hfront hends
      have hends : endsDigit (front ++ m) → startsDigit cs = false := by
        cases hm with
        | digits _ _ => exact fun _ => hmax rfl
        | char hc => simp [endsDigit, Kind.not_isDigit_of_isChar hc]
      refine List.forall_mem_cons.mpr ⟨⟨String.ofList front, String.ofList cs, ?_, ?_⟩, ?_⟩
      · rw [String.ofList_append, String.ofList_append, String.append_assoc]
      · exact {
          start := by rw [String.utf8ByteSize_ofList, hpos]
          stop := by rw [String.utf8ByteSize_ofList, String.utf8ByteSize_ofList, hpos]
          covers := by rwa [String.toList_ofList]
          maximal := fun hkind => by
            rw [String.toList_ofList, String.toList_ofList]
            exact ⟨hbefore hkind, hmax hkind⟩ }
      · have hrest := ih (front ++ m) (by rw [String.utf8Len_append, hpos]) hends
        rwa [List.append_assoc] at hrest

section StandsBetween

variable {src before after : String} {t : Token} (h : t.StandsBetween before after)
  (hsrc : src = before ++ t.text ++ after)
include h hsrc

theorem StandsBetween.within : t.span.Within src where
  start_lt_stop := by
    have hpos := h.covers.utf8Len_pos
    rw [String.utf8Len_toList] at hpos
    rw [h.start, h.stop]
    omega
  stop_le := by
    rw [h.stop, hsrc, String.utf8ByteSize_append, String.utf8ByteSize_append]
    omega
  isValid_start := by
    refine String.Pos.Raw.isValid_iff_exists_append.mpr ⟨before, t.text ++ after, ?_, ?_⟩
    · rw [hsrc, String.append_assoc]
    · rw [h.start]
      rfl
  isValid_stop := by
    refine String.Pos.Raw.isValid_iff_exists_append.mpr ⟨before ++ t.text, after, hsrc, ?_⟩
    rw [h.stop, ← String.utf8ByteSize_append]
    rfl

theorem StandsBetween.slice_eq : t.span.slice src = t.text := by
  have hextract := String.extract_of_valid before.toList t.text.toList after.toList
  rw [String.utf8Len_toList, String.utf8Len_toList, ← h.start, h.start, ← h.stop,
    String.ofList_append, String.ofList_append, String.ofList_toList, String.ofList_toList,
    String.ofList_toList, ← hsrc, ← h.start] at hextract
  exact hextract

end StandsBetween

end Token

/-! ## Errors -/

/-- What an error points at, if it points at anything. -/
def ParseError.span? : ParseError → Option Span
  | .unterminatedGroup span => some span
  | .unexpectedToken _ span _ => some span
  | .invalidNumber span => some span
  | .unexpectedEndOfInput => none
  | .depthExceeded _ => none
  | .emptyInput => none

open Grammar Reading

variable {limit : Nat} {err : ParseError} {opened ts : List Token} {t : Token}

theorem mem_of_mem_foldl_openAfter (h : t ∈ ts.foldl openAfter opened) : t ∈ opened ∨ t ∈ ts := by
  induction ts generalizing opened with
  | nil => exact .inl h
  | cons u ts ih =>
      rcases ih h with hopened | hts
      · rw [openAfter] at hopened
        split at hopened
        · rcases List.mem_cons.mp hopened with rfl | hopened
          · exact .inr List.mem_cons_self
          · exact .inl hopened
        · exact .inl (List.mem_of_mem_tail hopened)
        · exact .inl hopened
      · exact .inr (List.mem_cons_of_mem u hts)

theorem mem_of_mem_unclosed (h : t ∈ unclosed ts) : t ∈ ts :=
  (mem_of_mem_foldl_openAfter h).resolve_left List.not_mem_nil

/-- The errors that point at one of these tokens, or at nothing. -/
inductive PointsInto (ts : List Token) : ParseError → Prop where
  | unexpectedToken {t : Token} {expected : List Token.Kind} :
      t ∈ ts → PointsInto ts (.unexpectedToken t.kind t.span expected)
  | unterminatedGroup {t : Token} : t ∈ ts → PointsInto ts (.unterminatedGroup t.span)
  | unexpectedEndOfInput : PointsInto ts .unexpectedEndOfInput
  | depthExceeded {limit : Nat} : PointsInto ts (.depthExceeded limit)

theorem PointsInto.exists_token (h : PointsInto ts err) :
    (∀ span, err ≠ .invalidNumber span) ∧ err ≠ .emptyInput ∧
      ∀ span, err.span? = some span → ∃ t ∈ ts, t.span = span := by
  cases h with
  | unexpectedToken ht | unterminatedGroup ht =>
      exact ⟨by simp, by simp, fun span hspan => ⟨_, ht, Option.some.inj hspan⟩⟩
  | unexpectedEndOfInput | depthExceeded => simp [ParseError.span?]

/-- If the numbers among some tokens can be read, then an error points at one of
the tokens or at nothing. -/
theorem pointsInto_of_parseTokens
    (hnum : ∀ t ∈ ts, t.kind = .number → (Numeral.read? t.text).isSome)
    (h : parseTokens limit ts = .error err) : PointsInto ts err := by
  have hne : ts ≠ [] := by
    rintro rfl
    cases h
  rcases Nat.eq_zero_or_pos limit with rfl | hlimit
  · rw [parseTokens, List.isEmpty_eq_false_iff.mpr hne] at h
    cases h
    exact .depthExceeded
  rcases parseTokens_eq_error hne hlimit h with hrun | ⟨reading, hrun, hfinish⟩
  · obtain ⟨front, t, back, reading, rfl, -, ht⟩ := foldlM_eq_error hrun
    have hmem : t ∈ front ++ t :: back := List.mem_append_right front List.mem_cons_self
    have hrefuses := step_advances limit reading t
    rw [ht] at hrefuses
    cases hrefuses with
    | unexpected => exact .unexpectedToken hmem
    | invalid hkind hread =>
        have hsome := hnum t hmem hkind
        rw [hread] at hsome
        cases hsome
    | deep _ => exact .depthExceeded
  · rcases lacks_of_finish hne hlimit hrun hfinish with ⟨-, -, rfl⟩ | ⟨-, -, t, ht, rfl⟩
    · exact .unexpectedEndOfInput
    · exact .unterminatedGroup (mem_of_mem_unclosed (List.mem_of_head? ht))

/-! ## Every text -/

/-- The tokens of a text are all there is in it. Each of them stands at its span,
one after the other; a number is as long as it can be and any other token is one
character; and what lies outside of all spans is neither a letter, nor a digit,
nor a sign. So a text is never refused for a number in it or for having nothing in
it, and what an error points at is a token. -/
theorem tokenize_exact (src : String) :
    (∀ t ∈ tokenize src, t.span.Within src ∧ t.span.slice src = t.text ∧
      ∃ before after, src = before ++ t.text ++ after ∧ t.StandsBetween before after) ∧
    ((tokenize src).Pairwise fun t u => t.span.stop ≤ u.span.start) ∧
    (∀ before c after, src = before ++ String.singleton c ++ after →
      (∀ t ∈ tokenize src, ¬ (t.span.start ≤ before.utf8ByteSize ∧
        before.utf8ByteSize + c.utf8Size ≤ t.span.stop)) →
      c.isAlpha = false ∧ c.isDigit = false ∧ c ∉ Token.signs) ∧
    ∀ limit err, parse limit src = .error err →
      (∀ span, err ≠ .invalidNumber span) ∧ err ≠ .emptyInput ∧
        ∀ span, err.span? = some span → ∃ t ∈ tokenize src, t.span = span := by
  have hsplits : Token.Splits 0 src.toList (tokenize src) := Token.splits_scan 0 src.toList
  have hbetween : ∀ t ∈ tokenize src, ∃ before after, src = before ++ t.text ++ after ∧
      t.StandsBetween before after := by
    simpa using hsplits.exists_between [] rfl nofun
  refine ⟨fun t ht => ?_, hsplits.pairwise, fun before c after hsrc hout => ?_,
    fun limit err herr => (pointsInto_of_parseTokens (fun t ht hkind => ?_) herr).exists_token⟩
  · obtain ⟨before, after, hsrc, hstands⟩ := hbetween t ht
    exact ⟨hstands.within hsrc, hstands.slice_eq hsrc, before, after, hsrc, hstands⟩
  · have hlist : src.toList = before.toList ++ c :: after.toList := by simp [hsrc]
    obtain ⟨hdigit, hkind⟩ := hsplits.dropped_of_outside hlist
      (by simpa [String.utf8Len_toList] using hout)
    obtain ⟨halpha, hsign⟩ := Token.Kind.dropped_of_ofChar? hkind
    exact ⟨halpha, hdigit, hsign⟩
  · obtain ⟨before, after, -, hstands⟩ := hbetween t ht
    obtain ⟨hne, hdigits⟩ := Token.Kind.covers_number.mp (hkind ▸ hstands.covers)
    exact Numeral.isSome_ofChars? hne hdigits

/-- Bytes are counted, and a dropped character ends a number. -/
example : tokenize "12é3√x" = [⟨.number, "12", ⟨0, 2⟩⟩, ⟨.number, "3", ⟨4, 5⟩⟩,
    ⟨.root, "√", ⟨5, 8⟩⟩, ⟨.identifier, "x", ⟨8, 9⟩⟩] := rfl

end Surd
