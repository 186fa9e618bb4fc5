import Surd.Simplifier.Counting

/-!
# The count of levels is kept

A step that counts levels does the same as the one that is handed them. What
goes wrong inside it makes no difference: the count is put back by the step
down itself, for results and errors alike, so by the time an error is swallowed
the count is that of the level where it is swallowed.

`Keeps s x y` says of a step with a state, whatever the state is, that it has
the outcome `y` and leaves the state as it was; every way of putting steps
together preserves it. With `depth` levels counted there are `maxDepth - depth`
left, and the room on the call stack is never used up, since the count refuses
a step before the stack does (`keeps_level`).
-/

namespace Surd

/-! ## Steps with a state -/

variable {σ ε ε' α β : Type} {s : σ} {x : ExceptT ε (StateT σ Option) α} {y : Except ε α}

/-- Taken in the state `s`, the step has the outcome `y` and leaves the state as
it was. -/
def Keeps (s : σ) (x : ExceptT ε (StateT σ Option) α) (y : Except ε α) : Prop :=
  x.run.run s = some (y, s)

namespace Keeps

theorem pure (a : α) : Keeps s (Pure.pure a) (.ok a : Except ε α) :=
  rfl

theorem throw (e : ε) : Keeps s (MonadExcept.throw e) (.error e : Except ε α) :=
  rfl

/-- A step without a state. -/
theorem lift (y : Except ε α) : Keeps s (liftM y) y := by
  cases y <;> rfl

theorem bind {f : α → ExceptT ε (StateT σ Option) β} {g : α → Except ε β} (h : Keeps s x y)
    (hfg : ∀ a, Keeps s (f a) (g a)) : Keeps s (x >>= f) (y >>= g) := by
  rw [Keeps, ExceptT.run_bind, StateT.run_bind, h]
  cases y with
  | ok a => exact hfg a
  | error e => rfl

/-- What is done with the state is done with the one at hand. -/
theorem get {f : σ → ExceptT ε (StateT σ Option) α} (h : Keeps s (f s) y) :
    Keeps s (MonadState.get >>= f) y :=
  h

theorem adapt {f : ε → ε'} (h : Keeps s x y) : Keeps s (x.adapt f) (y.mapError f) := by
  have hrun : (x.adapt f).run.run s =
      (x.run.run s).bind fun p => some (p.1.mapError f, p.2) := rfl
  rw [Keeps, hrun, h]
  rfl

theorem mapM {f : α → ExceptT ε (StateT σ Option) β} {g : α → Except ε β}
    (hfg : ∀ a, Keeps s (f a) (g a)) (as : List α) : Keeps s (as.mapM f) (as.mapM g) := by
  induction as with
  | nil => exact .pure []
  | cons a as ih =>
      rw [List.mapM_cons, List.mapM_cons]
      exact (hfg a).bind fun b => ih.bind fun bs => .pure (b :: bs)

theorem foldlM {f : β → α → ExceptT ε (StateT σ Option) β} {g : β → α → Except ε β}
    (hfg : ∀ b a, Keeps s (f b a) (g b a)) (as : List α) (b : β) :
    Keeps s (as.foldlM f b) (as.foldlM g b) := by
  induction as generalizing b with
  | nil => exact .pure b
  | cons a as ih =>
      rw [List.foldlM_cons, List.foldlM_cons]
      exact (hfg b a).bind fun b' => ih b'

end Keeps

namespace Counting

variable {depth : Nat} {x : Counting ε α} {options : Options} {refuse : SimplifyError → ε}

/-! ## Counted steps -/

/-- What follows an observed step sees the outcome, and not what the step has
counted. -/
theorem keeps_observe {f : Except ε α → Counting ε' β} {z : Except ε' β} (h : Keeps depth x y)
    (hf : Keeps depth (f y) z) : Keeps depth (observe x >>= f) z := by
  have hrun : (observe x >>= f).run.run depth =
      (x.run.run depth).bind fun p => (f p.1).run.run p.2 := by
    rw [ExceptT.run_bind, StateT.run_bind]
    show ((x.run.run depth).bind _).bind _ = _
    cases x.run.run depth <;> rfl
  rw [Keeps, hrun, h]
  exact hf

/-- The way up and the way down, taken with `depth` levels counted. -/
theorem run_nested : (nested options refuse x).run.run depth =
    if options.maxDepth ≤ depth then
      some (.error (refuse (.depthExceeded options.maxDepth)), depth)
    else (x.run.run (depth + 1)).map fun p => (p.1, p.2 - 1) := by
  show (if options.maxDepth ≤ depth then _ else _ : Counting ε α).run.run depth = _
  split
  · rfl
  · show ((x.run.run (depth + 1)).bind _).bind _ = _
    rcases x.run.run (depth + 1) with _ | ⟨outcome, counted⟩
    · rfl
    · cases outcome <;> rfl

theorem keeps_nested_of_le (hle : options.maxDepth ≤ depth) :
    Keeps depth (nested options refuse x)
      (.error (refuse (.depthExceeded options.maxDepth))) := by
  rw [Keeps, run_nested, if_pos hle]

/-- The step down puts the count back. -/
theorem keeps_nested (hlt : depth < options.maxDepth) (h : Keeps (depth + 1) x y) :
    Keeps depth (nested options refuse x) y := by
  rw [Keeps, run_nested, if_neg (Nat.not_le.mpr hlt), h]
  rfl

/-! ## Operations -/

/-- What can be asked for with `depth` levels counted. -/
structure Level.Keeps (depth : Nat) (level : Level) (level' : Surd.Level) : Prop where
  simplify : ∀ e, Surd.Keeps depth (level.simplify e) (level'.simplify e)
  normalize : ∀ fs, Surd.Keeps depth (level.normalize fs) (level'.normalize fs)

section Operations

variable {level : Level} {level' : Surd.Level} (h : level.Keeps depth level')
include h

theorem keeps_extract (radicand : Expr) (t : Term) (fs : List Expr) :
    Keeps depth (extract level radicand t fs) (Term.extract level' radicand t fs) := by
  rw [extract, Term.extract]
  refine (h.normalize fs).adapt.bind fun inner => ?_
  refine (Keeps.lift _).bind fun split => ?_
  exact (Keeps.lift _).bind fun t => .pure _

theorem keeps_mulRoot (t : Term) (incoming : Expr) :
    Keeps depth (mulRoot level t incoming) (t.mulRoot level' incoming) := by
  rw [mulRoot, Term.mulRoot]
  refine (keeps_extract h _ _ _).bind ?_
  rintro ⟨t₁, left⟩
  dsimp only
  generalize Term.sortByText _ = sums
  match left, sums with
  | left, [] => exact .pure _
  | [], [s] => exact .pure _
  | [], _ :: _ :: _ | _ :: _, [_] | _ :: _, _ :: _ :: _ =>
    refine (h.simplify _).bind fun canonical => ?_
    cases canonical.isSum with
    | true => exact .pure _
    | false => exact (keeps_extract h _ _ _).bind fun _ => .pure _

theorem keeps_absorb (t : Term) (e : Expr) :
    Keeps depth (absorb level t e) (t.absorb level' e) := by
  induction e generalizing t with
  | num n => exact .pure _
  | var x => exact .lift _
  | pow b k => exact .lift _
  | root e => exact (keeps_mulRoot h t e).adapt
  | bin op l r ihl ihr =>
      cases op with
      | mul => exact (ihl t).bind fun t' => ihr t'
      | add | sub | div => exact .throw _

theorem keeps_normalize (fs : List Expr) :
    Keeps depth (normalize level fs) (Surd.normalize level' fs) :=
  .foldlM (keeps_absorb h) fs .one

theorem keeps_collect (es : List Expr) :
    Keeps depth (collect level es) (Surd.collect level' es) :=
  (Keeps.mapM (fun a => (keeps_normalize h [a]).adapt) _).bind fun _ => .pure _

theorem keeps_distribute (l r : Expr) :
    Keeps depth (distribute level l r) (Surd.distribute level' l r) := by
  refine (Keeps.mapM (fun p => ?_) _).bind fun products => keeps_collect h _
  exact (keeps_normalize h [p.1, p.2]).adapt

theorem keeps_multiply (l r : Expr) :
    Keeps depth (multiply level l r) (Surd.multiply level' l r) := by
  refine keeps_observe (keeps_normalize h [l, r]) ?_
  rw [Surd.multiply]
  rcases Surd.normalize level' [l, r] with (_ | e) | t
  · exact keeps_distribute h l r
  · exact .throw e
  · exact .pure _

theorem keeps_multiplyAll (fs : List Expr) :
    Keeps depth (multiplyAll level fs) (Surd.multiplyAll level' fs) := by
  refine keeps_observe (keeps_normalize h fs) ?_
  simp only [Surd.multiplyAll]
  rcases Surd.normalize level' fs with (_ | e) | t
  · cases fs with
    | nil => exact .pure _
    | cons f fs => exact .foldlM (keeps_multiply h) fs f
  · exact .throw e
  · exact .pure _

theorem keeps_squareRoot (r : Expr) :
    Keeps depth (squareRoot level r) (Surd.squareRoot level' r) := by
  cases r with
  | num n => exact .lift _
  | var x => exact .pure _
  | root | bin => exact keeps_multiply h _ _
  | pow b e =>
      simp only [squareRoot, Surd.squareRoot]
      cases b with
      | num n =>
          cases e.exponent? with
          | some k => exact (Keeps.lift _).bind fun m => .lift _
          | none => exact keeps_multiply h _ _
      | var x =>
          cases e.exponent? with
          | some k => exact .lift _
          | none => exact keeps_multiply h _ _
      | pow | root | bin => exact keeps_multiply h _ _

/-- The one place where an error is swallowed: the count is back by then. -/
theorem keeps_expand (b : Expr) (k : Nat) :
    Keeps depth (expand level b k) (Surd.expand level' b k) := by
  refine keeps_observe (h.simplify _) ?_
  rw [Surd.expand]
  cases level'.simplify (.product (List.replicate k b)) with
  | ok e => exact .lift _
  | error err =>
      cases err with
      | unsupported => exact .pure _
      | exponentTooLarge | radicandTooLarge | depthExceeded => exact .lift _

theorem keeps_power (options : Options) (b e : Expr) :
    Keeps depth (power options level b e) (Surd.power options level' b e) := by
  have hcompound : ∀ b k,
      Keeps depth (if k ≤ options.maxExpansion then expand level b k else pure (.pow b e))
        (if k ≤ options.maxExpansion then Surd.expand level' b k else .ok (.pow b e)) := by
    intro b k
    split
    · exact keeps_expand h b k
    · exact .pure _
  simp only [power, Surd.power]
  rcases e.exponent? with _ | k
  · exact .pure _
  · cases b with
    | num n => exact (Keeps.lift _).bind fun m => .pure _
    | var x => rcases k with _ | _ | k <;> exact .pure _
    | pow | root | bin =>
        rcases k with _ | _ | k
        · exact .pure _
        · exact .pure _
        · exact hcompound _ _

theorem keeps_simplifyAddend (a : Expr.Addend) :
    Keeps depth (simplifyAddend level a) (Surd.simplifyAddend level' a) := by
  refine (h.simplify a.value).bind fun e => ?_
  cases a.negated with
  | true => exact keeps_multiply h _ _
  | false => exact .pure _

theorem keeps_simplifyStep (options : Options) (e : Expr) :
    Keeps depth (simplifyStep options level e) (Surd.simplifyStep options level' e) := by
  cases e with
  | num | var => exact .pure _
  | pow b p =>
      exact (h.simplify b).bind fun b' => (h.simplify p).bind fun p' => keeps_power h options b' p'
  | root r => exact (h.simplify r).bind fun r' => keeps_squareRoot h r'
  | bin op l r =>
      cases op with
      | add | sub =>
          exact (Keeps.mapM (keeps_simplifyAddend h) _).bind fun es => keeps_collect h es
      | mul => exact (Keeps.mapM h.simplify _).bind fun fs => keeps_multiplyAll h fs
      | div => exact (h.simplify l).bind fun l' => (h.simplify r).bind fun r' => .pure _

end Operations

/-! ## Levels -/

/-- With `depth` levels counted there are `maxDepth - depth` left. The induction
is on the room on the call stack, which is more than there are levels left. -/
theorem keeps_level (options : Options) {room : Nat} (h : options.maxDepth - depth < room) :
    (level options room).Keeps depth (Surd.level options (options.maxDepth - depth)) := by
  induction room generalizing depth with
  | zero => exact absurd h (Nat.not_lt_zero _)
  | succ room ih =>
      rcases Nat.lt_or_ge depth options.maxDepth with hlt | hle
      · have hleft : options.maxDepth - depth = options.maxDepth - (depth + 1) + 1 := by omega
        have hdown : (level options room).Keeps (depth + 1)
            (Surd.level options (options.maxDepth - (depth + 1))) := ih (by omega)
        rw [hleft]
        exact ⟨fun e => keeps_nested hlt (keeps_simplifyStep hdown options e),
          fun fs => keeps_nested hlt (keeps_normalize hdown fs)⟩
      · rw [Nat.sub_eq_zero_of_le hle]
        exact ⟨fun e => keeps_nested_of_le hle, fun fs => keeps_nested_of_le hle⟩

end Counting

end Surd
