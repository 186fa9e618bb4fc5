/-!
# Decimal numerals

How integers are written and read. Writing gives the digits of the absolute
value after a `-` for a negative number. Reading is more liberal: one sign of
either kind, and `_` anywhere but in front to group digits. What is written
reads back as the same integer (`read?_write`).
-/

namespace Surd.Numeral

/-- The decimal digits of a natural number, most significant first. -/
def digits (n : Nat) : List Char :=
  Nat.toDigits 10 n

def chars (n : Int) : List Char :=
  if n < 0 then '-' :: digits n.natAbs else digits n.natAbs

def write (n : Int) : String :=
  if n < 0 then "-" ++ n.natAbs.repr else n.natAbs.repr

/-- Reads digits after the ones that made `acc`, skipping every `_`. -/
def readDigits (acc : Nat) : List Char → Option Nat
  | [] => some acc
  | c :: cs =>
    if c = '_' then readDigits acc cs
    else if c.isDigit then readDigits (10 * acc + (c.toNat - '0'.toNat)) cs
    else none

/-- Reads an unsigned numeral: at least one character, the first of which is
not `_`. -/
def readNat? : List Char → Option Nat
  | [] => none
  | c :: cs => if c = '_' then none else readDigits 0 (c :: cs)

/-- Reads a numeral with at most one sign from its characters. -/
def ofChars? : List Char → Option Int
  | '-' :: cs => (readNat? cs).map fun n => -Int.ofNat n
  | '+' :: cs => (readNat? cs).map Int.ofNat
  | cs => (readNat? cs).map Int.ofNat

def read? (s : String) : Option Int :=
  ofChars? s.toList

/-! ## Reading back -/

theorem toList_write (n : Int) : (write n).toList = chars n := by
  unfold write chars digits
  split <;> simp

theorem isDigit_of_mem_digits {n : Nat} {c : Char} (h : c ∈ digits n) : c.isDigit :=
  Nat.isDigit_of_mem_toDigits (by decide) (by decide) h

theorem ne_underscore_of_isDigit {c : Char} (h : c.isDigit) : c ≠ '_' := by
  rintro rfl
  exact absurd h (by decide)

/-- Digits alone are read in the usual way. -/
theorem readDigits_eq_ofDigitChars {cs : List Char} (h : ∀ c ∈ cs, c.isDigit) (acc : Nat) :
    readDigits acc cs = some (Nat.ofDigitChars 10 cs acc) := by
  induction cs generalizing acc with
  | nil => rfl
  | cons c cs ih =>
    have hc : c.isDigit := h c (by simp)
    rw [readDigits, if_neg (ne_underscore_of_isDigit hc), if_pos hc,
      ih (fun d hd => h d (by simp [hd])), Nat.ofDigitChars_cons]

theorem digits_ne_nil (n : Nat) : digits n ≠ [] :=
  Nat.toDigits_ne_nil

theorem readNat?_digits (n : Nat) : readNat? (digits n) = some n := by
  have hread : readDigits 0 (digits n) = some n := by
    rw [readDigits_eq_ofDigitChars fun c hc => isDigit_of_mem_digits hc, digits,
      Nat.ofDigitChars_toDigits (by decide) (by decide)]
  cases hd : digits n with
  | nil => exact absurd hd (digits_ne_nil n)
  | cons c cs =>
    have hmem : c ∈ digits n := by simp [hd]
    have hc := isDigit_of_mem_digits hmem
    rw [readNat?, if_neg (ne_underscore_of_isDigit hc), ← hd, hread]

theorem ofChars?_of_isDigit {c : Char} {cs : List Char} (hc : c.isDigit) :
    ofChars? (c :: cs) = (readNat? (c :: cs)).map Int.ofNat := by
  unfold ofChars?
  split
  · next h => cases h; exact absurd hc (by decide)
  · next h => cases h; exact absurd hc (by decide)
  · rfl

theorem ofChars?_chars (n : Int) : ofChars? (chars n) = some n := by
  by_cases hn : n < 0
  · have habs : -Int.ofNat n.natAbs = n := by
      have := Int.ofNat_eq_natCast n.natAbs
      omega
    rw [chars, if_pos hn, ofChars?, readNat?_digits, Option.map_some, habs]
  · have habs : Int.ofNat n.natAbs = n := by
      have := Int.ofNat_eq_natCast n.natAbs
      omega
    rw [chars, if_neg hn]
    cases hd : digits n.natAbs with
    | nil => exact absurd hd (digits_ne_nil _)
    | cons c cs =>
      have hmem : c ∈ digits n.natAbs := by simp [hd]
      have hc := isDigit_of_mem_digits hmem
      rw [ofChars?_of_isDigit hc, ← hd, readNat?_digits, Option.map_some, habs]

/-- An integer reads back as it was written. -/
theorem read?_write (n : Int) : read? (write n) = some n := by
  rw [read?, toList_write, ofChars?_chars]

end Surd.Numeral
