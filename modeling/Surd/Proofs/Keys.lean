import Surd.Expr.Regroup
import Surd.Proofs.Names
import Surd.Proofs.RoundTrip

/-!
# What a key shows of a term

A key is the powers of a term, each a letter and a run of digits, then `√` and
the text of the radicand. A letter ends the run in front of it and so does
`√`, so the powers can be read back from the front (`entries_eq_of_append`).
What is left is the radicand's text, which shows the radicand up to the
grouping of its products.
-/

namespace Surd

namespace Numeral

theorem digits_injective {n m : Nat} (h : digits n = digits m) : n = m := by
  have hread := readNat?_digits n
  rw [h, readNat?_digits] at hread
  exact (Option.some.inj hread).symm

theorem append_inj_of_isDigit {ds ds' cs cs' : List Char} (hds : ∀ d ∈ ds, d.isDigit)
    (hds' : ∀ d ∈ ds', d.isDigit) (hcs : Lexeme.startsDigit cs = false)
    (hcs' : Lexeme.startsDigit cs' = false) (h : ds ++ cs = ds' ++ cs') :
    ds = ds' ∧ cs = cs' := by
  induction ds generalizing ds' with
  | nil =>
      cases ds' with
      | nil => exact ⟨rfl, h⟩
      | cons d ds' =>
          have hd : Lexeme.startsDigit cs := by
            rw [show cs = d :: (ds' ++ cs') from h]
            exact hds' d List.mem_cons_self
          rw [hd] at hcs
          cases hcs
  | cons d ds ih =>
      cases ds' with
      | nil =>
          have hd : Lexeme.startsDigit cs' := by
            rw [show cs' = d :: (ds ++ cs) from h.symm]
            exact hds d List.mem_cons_self
          rw [hd] at hcs'
          cases hcs'
      | cons d' ds' =>
          obtain ⟨rfl, htail⟩ := List.cons.inj h
          obtain ⟨rfl, rfl⟩ := ih (fun c hc => hds c (List.mem_cons_of_mem d hc))
            (fun c hc => hds' c (List.mem_cons_of_mem d hc)) htail
          exact ⟨rfl, rfl⟩

end Numeral

namespace Term

variable {s t : Term} {qs qs' : List (String × Nat)} {cs cs' : List Char}

/-- The characters of a power in a key. -/
def powerChars (q : String × Nat) : List Char :=
  q.1.toList ++ '^' :: Numeral.digits q.2

theorem startsDigit_powers (hqs : ∀ q ∈ qs, Expr.isLetter q.1) :
    Lexeme.startsDigit (qs.flatMap powerChars ++ '√' :: cs) = false := by
  cases qs with
  | nil => rfl
  | cons q qs =>
      obtain ⟨c, hc, heq⟩ := Expr.exists_char_of_isLetter (hqs q List.mem_cons_self)
      rw [List.flatMap_cons, powerChars, heq, Expr.toList_toString]
      exact Expr.startsDigit_sign (Lexeme.ofChar?_of_isAlpha hc)

/-- The powers in front of a `√` can be read back. -/
theorem entries_eq_of_append (hqs : ∀ q ∈ qs, Expr.isLetter q.1)
    (hqs' : ∀ q ∈ qs', Expr.isLetter q.1)
    (h : qs.flatMap powerChars ++ '√' :: cs = qs'.flatMap powerChars ++ '√' :: cs') :
    qs = qs' ∧ cs = cs' := by
  have hroot : ∀ {q : String × Nat} {ds es : List Char}, Expr.isLetter q.1 →
      '√' :: ds ≠ powerChars q ++ es := by
    intro q ds es hq heq
    obtain ⟨c, hc, hqc⟩ := Expr.exists_char_of_isLetter hq
    rw [powerChars, hqc, Expr.toList_toString] at heq
    obtain ⟨rfl, -⟩ := List.cons.inj heq
    cases hc
  induction qs generalizing qs' with
  | nil =>
      cases qs' with
      | nil => exact ⟨rfl, (List.cons.inj h).2⟩
      | cons q qs' =>
          rw [List.flatMap_cons, List.append_assoc] at h
          exact absurd h (hroot (hqs' q List.mem_cons_self))
  | cons q qs ih =>
      cases qs' with
      | nil =>
          rw [List.flatMap_cons, List.append_assoc] at h
          exact absurd h.symm (hroot (hqs q List.mem_cons_self))
      | cons q' qs' =>
          obtain ⟨x, k⟩ := q
          obtain ⟨x', k'⟩ := q'
          obtain ⟨c, -, rfl⟩ := Expr.exists_char_of_isLetter (hqs _ List.mem_cons_self)
          obtain ⟨c', -, rfl⟩ := Expr.exists_char_of_isLetter (hqs' _ List.mem_cons_self)
          have htail := fun q hq => hqs q (List.mem_cons_of_mem _ hq)
          have htail' := fun q hq => hqs' q (List.mem_cons_of_mem _ hq)
          simp only [List.flatMap_cons, powerChars, Expr.toList_toString, List.append_assoc,
            List.cons_append, List.nil_append, List.cons.injEq, true_and] at h
          obtain ⟨rfl, h⟩ := h
          obtain ⟨hk, h⟩ := Numeral.append_inj_of_isDigit
            (fun d hd => Numeral.isDigit_of_mem_digits hd)
            (fun d hd => Numeral.isDigit_of_mem_digits hd) (startsDigit_powers htail)
            (startsDigit_powers htail') h
          obtain ⟨rfl, rfl⟩ := ih htail htail' h
          exact ⟨by rw [Numeral.digits_injective hk], rfl⟩

/-- Terms with the same key have the same powers, and the same radicand up to
the grouping of products. -/
theorem eq_of_key_eq (hs : s.Names Expr.isLetter) (ht : t.Names Expr.isLetter)
    (h : s.key = t.key) : s.vars = t.vars ∧
      s.radical.map Expr.leftProducts = t.radical.map Expr.leftProducts := by
  have hchars := congrArg String.toList h
  rw [toList_key, toList_key] at hchars
  obtain ⟨hvars, hradical⟩ := entries_eq_of_append hs.vars ht.vars hchars
  refine ⟨Powers.ext hvars, ?_⟩
  cases hs' : s.radical with
  | none =>
      cases ht' : t.radical with
      | none => rfl
      | some r =>
          rw [hs', ht'] at hradical
          exact absurd hradical.symm (Expr.chars_ne_nil (ht.radical r ht'))
  | some r =>
      cases ht' : t.radical with
      | none =>
          rw [hs', ht'] at hradical
          exact absurd hradical (Expr.chars_ne_nil (hs.radical r hs'))
      | some r' =>
          rw [hs', ht'] at hradical
          exact congrArg some
            (leftProducts_eq_of_chars_eq (hs.radical r hs') (ht.radical r' ht') hradical)

theorem rel_of_map_leftProducts_eq {r r' : Option Expr}
    (h : r.map Expr.leftProducts = r'.map Expr.leftProducts) : Option.Rel Expr.Regroups r r' := by
  cases r with
  | none =>
      cases r' with
      | none => exact .none
      | some _ => cases h
  | some e =>
      cases r' with
      | none => cases h
      | some e' => exact .some (Expr.regroups_iff.mpr (Option.some.inj h))

theorem chars_eq_of_rel {r r' : Option Expr} (h : Option.Rel Expr.Regroups r r') :
    (r.map Expr.chars).getD [] = (r'.map Expr.chars).getD [] := by
  cases h with
  | none => rfl
  | some h => exact h.chars_eq

/-- The key of a term shows its powers and its radicand, up to the grouping of
products there, and nothing else. -/
theorem key_eq_iff (hs : s.Names Expr.isLetter) (ht : t.Names Expr.isLetter) :
    s.key = t.key ↔ s.vars = t.vars ∧ Option.Rel Expr.Regroups s.radical t.radical := by
  constructor
  · intro h
    obtain ⟨hvars, hradical⟩ := eq_of_key_eq hs ht h
    exact ⟨hvars, rel_of_map_leftProducts_eq hradical⟩
  · rintro ⟨hvars, hradical⟩
    refine String.toList_injective ?_
    rw [toList_key, toList_key, hvars, chars_eq_of_rel hradical]

/-- `c * a²b√(p - -1)`. -/
def rootOfDifference (c : Int) (p : Expr) : Term where
  coeff := c
  vars := ⟨[("a", 2), ("b", 1)], by decide, by decide⟩
  radical := some (.bin .sub p (.num (-1)))

/-- `3a²b√(x(y*2) - -1)` and `-a²b√((xy)*2 - -1)` are alike. -/
theorem key_eq_rootOfDifference :
    (rootOfDifference 3 (.bin .mul (.var "x") (.bin .mul (.var "y") (.num 2)))).Names
        Expr.isLetter ∧
      (rootOfDifference (-1) (.bin .mul (.bin .mul (.var "x") (.var "y")) (.num 2))).Names
        Expr.isLetter ∧
      (rootOfDifference 3 (.bin .mul (.var "x") (.bin .mul (.var "y") (.num 2)))).key =
        (rootOfDifference (-1) (.bin .mul (.bin .mul (.var "x") (.var "y")) (.num 2))).key := by
  have hs : (rootOfDifference 3 (.bin .mul (.var "x") (.bin .mul (.var "y") (.num 2)))).Names
      Expr.isLetter := ⟨by decide, by rintro _ ⟨⟩; decide⟩
  have ht : (rootOfDifference (-1) (.bin .mul (.bin .mul (.var "x") (.var "y"))
      (.num 2))).Names Expr.isLetter := ⟨by decide, by rintro _ ⟨⟩; decide⟩
  refine ⟨hs, ht, (key_eq_iff hs ht).mpr ⟨rfl, .some ?_⟩⟩
  exact .bin (Expr.Regroups.assoc _ _ _).symm (.refl _)

end Term

end Surd
