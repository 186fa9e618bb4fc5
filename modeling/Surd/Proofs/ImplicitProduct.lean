import Surd.Proofs.Rejection

/-!
# The sign of a product can be left out

Between a token that an operand can end with and one that a factor can start
with, the sign of a product makes no difference: not to the expression that is
read, and not to the error if reading fails. Nothing is asked of the tokens
around the two. They may stand in a group, in an exponent or under a root, and
what comes before or after may be malformed.

The step that matters is one token long (`step_times`). What is read of the
front ends with an operand, since its last token does, so the reading holds
that operand (`holding_of_run`). The sign makes it the left side of a product
and waits for the right side. The next token does the same before it is read as
the start of the right side.
-/

namespace Surd

open Grammar

variable {limit : Nat} {fs : List Frame} {v : Expr} {t u : Token} {ts us : List Token}
  {reading : Reading}

namespace Reading

/-- With or without the sign, the operand before it becomes the left side of the
product that the next token begins the right side of. -/
theorem step_times (ht : t.kind = .times) (hu : startsFactor u.kind) :
    (step limit (.holding fs v) t >>= fun reading => step limit reading u) =
      step limit (.holding fs v) u := by
  have ht' : t.kind = Op.mul.sign := ht
  have hsign : step limit (.holding fs v) t = .ok (.awaiting (multiply fs v)) :=
    continuation_sign ht' fs v
  have hfactor : step limit (.holding fs v) u = operand limit (multiply fs v) u :=
    operand_of_startsFactor hu fs v
  rw [hsign, hfactor]
  rfl

/-- After a token that an operand can end with, the reading holds an operand. -/
theorem holding_of_run (hrun : ts.foldlM (step limit) (.awaiting []) = .ok reading)
    (ht : ts.getLast? = some t) (hends : endsOperand t.kind) :
    ∃ fs v, reading = .holding fs v := by
  have hholding := (tracks_run hrun).isHolding
  rw [ht, Option.any_some, hends] at hholding
  cases reading with
  | awaiting fs => cases hholding
  | holding fs v => exact ⟨fs, v, rfl⟩

theorem run_times {s : Token} (hs : ts.getLast? = some s) (hends : endsOperand s.kind)
    (ht : t.kind = .times) (hu : startsFactor u.kind) :
    (ts ++ t :: u :: us).foldlM (step limit) (.awaiting []) =
      (ts ++ u :: us).foldlM (step limit) (.awaiting []) := by
  rw [List.foldlM_append, List.foldlM_append]
  cases hrun : ts.foldlM (step limit) (.awaiting []) with
  | error err => rfl
  | ok reading =>
      obtain ⟨fs, v, rfl⟩ := holding_of_run hrun hs hends
      show (step limit (.holding fs v) t >>= fun r => step limit r u >>= us.foldlM (step limit)) =
        step limit (.holding fs v) u >>= us.foldlM (step limit)
      rw [← step_times ht hu, bind_assoc]

end Reading

/-- The outcome of reading depends on the run over the tokens alone, if there are
any. -/
theorem parseTokens_congr (hts : ts ≠ []) (hus : us ≠ [])
    (h : ts.foldlM (Reading.step limit) (.awaiting []) =
      us.foldlM (Reading.step limit) (.awaiting [])) :
    parseTokens limit ts = parseTokens limit us := by
  rw [parseTokens, parseTokens]
  rw [h, List.isEmpty_eq_false_iff.mpr hts, List.isEmpty_eq_false_iff.mpr hus]

/-- A product is read the same with its sign and without: the same expression, or
the same error. -/
theorem parseTokens_insert_times (limit : Nat) {front back : List Token} {last first t : Token}
    (hlast : front.getLast? = some last) (hends : endsOperand last.kind)
    (hfirst : back.head? = some first) (hstarts : startsFactor first.kind)
    (ht : t.kind = .times) :
    parseTokens limit (front ++ [t] ++ back) = parseTokens limit (front ++ back) := by
  obtain ⟨rest, rfl⟩ : ∃ rest, back = first :: rest :=
    ⟨back.tail, (List.cons_head?_tail hfirst).symm⟩
  rw [List.append_assoc]
  exact parseTokens_congr (by simp) (by simp) (Reading.run_times hlast hends ht hstarts)

/-- The tokens of `2((x^3`. -/
def openPower : List Token :=
  [⟨.number, "2", ⟨0, 1⟩⟩, ⟨.openParen, "(", ⟨1, 2⟩⟩, ⟨.openParen, "(", ⟨2, 3⟩⟩,
    ⟨.identifier, "x", ⟨3, 4⟩⟩, ⟨.caret, "^", ⟨4, 5⟩⟩, ⟨.number, "3", ⟨5, 6⟩⟩]

/-- The tokens of `√y)`, further on in the same text. -/
def rootClosing : List Token :=
  [⟨.root, "√", ⟨7, 10⟩⟩, ⟨.identifier, "y", ⟨10, 11⟩⟩, ⟨.closeParen, ")", ⟨11, 12⟩⟩]

/-- In `2((x^3*√y)` and in `2((x^3 √y)` the sign would follow an exponent in the
second group. Either way it is the first group that is not closed. -/
theorem parseTokens_insert_times_inExponent :
    openPower.getLast? = some ⟨.number, "3", ⟨5, 6⟩⟩ ∧ endsOperand .number ∧
      rootClosing.head? = some ⟨.root, "√", ⟨7, 10⟩⟩ ∧ startsFactor .root ∧
      parseTokens 5 (openPower ++ [⟨.times, "*", ⟨6, 7⟩⟩] ++ rootClosing) =
        .error (.unterminatedGroup ⟨1, 2⟩) ∧
      parseTokens 5 (openPower ++ [⟨.times, "*", ⟨6, 7⟩⟩] ++ rootClosing) =
        parseTokens 5 (openPower ++ rootClosing) := by
  have hlast : openPower.getLast? = some ⟨.number, "3", ⟨5, 6⟩⟩ := rfl
  have hfirst : rootClosing.head? = some ⟨.root, "√", ⟨7, 10⟩⟩ := rfl
  exact ⟨hlast, rfl, hfirst, rfl, rfl, parseTokens_insert_times 5 hlast rfl hfirst rfl rfl⟩

end Surd
