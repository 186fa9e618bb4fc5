import Surd.Proofs.Outcome

/-!
# Simplification is stable in the levels it is given

A simplification that ran out of levels says so, and the error is never
swallowed: the only operation that goes on after an error is `expand`, and it
goes on after `unsupported` alone. So a result or an error of any other kind
was reached without the limit, and more levels give the same one.

The proof walks the operations once. `Agrees` says of two outcomes that they
are equal unless the first one ran out of levels; every operation of the
simplifier takes levels that agree to outcomes that agree.
-/

namespace Surd

/-- The error of a simplification that ran out of levels. -/
def SimplifyError.IsDepth : SimplifyError → Prop
  | .depthExceeded _ => True
  | _ => False

/-- The same for a normalization, where a sum is no error. -/
def Obstacle.IsDepth : Obstacle → Prop
  | .failed e => e.IsDepth
  | .sum => False

theorem Obstacle.isDepth_toError {a : Expr} {o : Obstacle} (h : o.IsDepth) :
    (o.toError a).IsDepth := by
  cases o with
  | failed e => exact h
  | sum => exact h.elim

/-- What the first level answers, the second one answers too. -/
structure Level.Agrees (level level' : Level) : Prop where
  simplify : ∀ e, Surd.Agrees SimplifyError.IsDepth (level.simplify e) (level'.simplify e)
  normalize : ∀ fs, Surd.Agrees Obstacle.IsDepth (level.normalize fs) (level'.normalize fs)

section Operations

variable {level level' : Level} (h : level.Agrees level')
include h

theorem agrees_extract (radicand : Expr) (t : Term) (fs : List Expr) :
    Agrees SimplifyError.IsDepth (Term.extract level radicand t fs)
      (Term.extract level' radicand t fs) := by
  rw [Term.extract]
  refine ((h.normalize fs).mapError fun o ho => Obstacle.isDepth_toError ho).bind fun inner => ?_
  exact agrees_refl _

theorem agrees_mulRoot (t : Term) (incoming : Expr) :
    Agrees SimplifyError.IsDepth (t.mulRoot level incoming) (t.mulRoot level' incoming) := by
  rw [Term.mulRoot]
  refine (agrees_extract h _ _ _).bind ?_
  rintro ⟨t₁, left⟩
  dsimp only
  split
  · exact agrees_refl _
  · exact agrees_refl _
  · refine (h.simplify _).bind fun canonical => ?_
    split
    · exact agrees_refl _
    · exact (agrees_extract h _ _ _).bind fun _ => agrees_refl _

theorem agrees_absorb (t : Term) (e : Expr) :
    Agrees Obstacle.IsDepth (t.absorb level e) (t.absorb level' e) := by
  induction e generalizing t with
  | num | var | pow => exact agrees_refl _
  | root e => exact (agrees_mulRoot h t e).mapError fun _ he => he
  | bin op l r ihl ihr =>
      cases op with
      | mul => exact (ihl t).bind fun t' => ihr t'
      | add | sub | div => exact agrees_refl _

theorem agrees_normalize (fs : List Expr) :
    Agrees Obstacle.IsDepth (normalize level fs) (normalize level' fs) :=
  agrees_foldlM (agrees_absorb h) fs .one

theorem agrees_collect (es : List Expr) :
    Agrees SimplifyError.IsDepth (collect level es) (collect level' es) := by
  refine Agrees.bind (agrees_mapM (fun a => ?_) _) fun terms => agrees_refl _
  exact (agrees_normalize h [a]).mapError fun o ho => Obstacle.isDepth_toError ho

theorem agrees_distribute (l r : Expr) :
    Agrees SimplifyError.IsDepth (distribute level l r) (distribute level' l r) := by
  refine Agrees.bind (agrees_mapM (fun p => ?_) _) fun products => agrees_collect h _
  exact (agrees_normalize h [p.1, p.2]).mapError fun o ho => Obstacle.isDepth_toError ho

theorem agrees_multiply (l r : Expr) :
    Agrees SimplifyError.IsDepth (multiply level l r) (multiply level' l r) := by
  simp only [multiply]
  rcases agrees_normalize h [l, r] with heq | ⟨o, ho, herr⟩
  · rw [heq]
    split
    · exact agrees_refl _
    · exact agrees_distribute h l r
    · exact agrees_refl _
  · cases o with
    | sum => exact ho.elim
    | failed e => exact .inr ⟨e, ho, by rw [herr]⟩

theorem agrees_multiplyAll (fs : List Expr) :
    Agrees SimplifyError.IsDepth (multiplyAll level fs) (multiplyAll level' fs) := by
  simp only [multiplyAll]
  rcases agrees_normalize h fs with heq | ⟨o, ho, herr⟩
  · rw [heq]
    split
    · exact agrees_refl _
    · split
      · exact agrees_refl _
      · exact agrees_foldlM (agrees_multiply h) _ _
    · exact agrees_refl _
  · cases o with
    | sum => exact ho.elim
    | failed e => exact .inr ⟨e, ho, by rw [herr]⟩

theorem agrees_squareRoot (r : Expr) :
    Agrees SimplifyError.IsDepth (squareRoot level r) (squareRoot level' r) := by
  simp only [squareRoot]
  split
  · exact agrees_refl _
  · exact agrees_refl _
  · split
    · exact agrees_refl _
    · exact agrees_refl _
    · exact agrees_multiply h _ _
  · exact agrees_multiply h _ _

/-- The one place where an error is swallowed: it is never one of depth. -/
theorem agrees_expand (b : Expr) (k : Nat) :
    Agrees SimplifyError.IsDepth (expand level b k) (expand level' b k) := by
  rw [expand]
  rcases h.simplify (.product (List.replicate k b)) with heq | ⟨e, he, herr⟩
  · rw [heq]
    exact agrees_refl _
  · cases e with
    | depthExceeded limit => exact .inr ⟨.depthExceeded limit, he, by rw [herr]⟩
    | unsupported op x => exact he.elim
    | exponentTooLarge k => exact he.elim
    | radicandTooLarge n => exact he.elim

theorem agrees_power (options : Options) (b p : Expr) :
    Agrees SimplifyError.IsDepth (power options level b p) (power options level' b p) := by
  simp only [power]
  split <;> try exact agrees_refl _
  split
  · exact agrees_expand h _ _
  · exact agrees_refl _

theorem agrees_simplifyAddend (a : Expr.Addend) :
    Agrees SimplifyError.IsDepth (simplifyAddend level a) (simplifyAddend level' a) := by
  refine (h.simplify a.value).bind fun e => ?_
  split
  · exact agrees_multiply h _ _
  · exact agrees_refl _

theorem agrees_simplifyStep (options : Options) (e : Expr) :
    Agrees SimplifyError.IsDepth (simplifyStep options level e)
      (simplifyStep options level' e) := by
  cases e with
  | num | var => exact agrees_refl _
  | pow b p =>
      exact (h.simplify b).bind fun b' => (h.simplify p).bind fun p' => agrees_power h options b' p'
  | root r => exact (h.simplify r).bind fun r' => agrees_squareRoot h r'
  | bin op l r =>
      cases op with
      | add | sub =>
          exact (agrees_mapM (agrees_simplifyAddend h) _).bind fun es => agrees_collect h es
      | mul => exact (agrees_mapM h.simplify _).bind fun fs => agrees_multiplyAll h fs
      | div =>
          exact (h.simplify l).bind fun l' => (h.simplify r).bind fun r' => agrees_refl _

end Operations

/-! ## More levels -/

/-- A step looks at one of the options only. -/
theorem simplifyStep_congr {options options' : Options} {level : Level} {e : Expr}
    (h : options.maxExpansion = options'.maxExpansion) :
    simplifyStep options level e = simplifyStep options' level e := by
  have hpower : power options level = power options' level := by
    funext b p
    simp only [power, h]
  cases e with
  | num | var | root => rfl
  | pow b p => simp only [simplifyStep, hpower]
  | bin op l r => cases op <;> rfl

/-- A smaller number of levels agrees with a larger one. What the limit is said
to be makes no difference. -/
theorem agrees_level_of_eq {options options' : Options}
    (hexpansion : options.maxExpansion = options'.maxExpansion) {n m : Nat} (h : n ≤ m) :
    (level options n).Agrees (level options' m) := by
  induction n generalizing m with
  | zero =>
      exact ⟨fun e => .inr ⟨.depthExceeded options.maxDepth, trivial, rfl⟩,
        fun fs => .inr ⟨.failed (.depthExceeded options.maxDepth), trivial, rfl⟩⟩
  | succ n ih =>
      obtain ⟨m, rfl⟩ : ∃ k, m = k + 1 := ⟨m - 1, by omega⟩
      have hnm := ih (Nat.le_of_succ_le_succ h)
      refine ⟨fun e => ?_, agrees_normalize hnm⟩
      show Agrees _ (simplifyStep options _ e) (simplifyStep options' _ e)
      rw [← simplifyStep_congr hexpansion]
      exact agrees_simplifyStep hnm options e

theorem agrees_level (options : Options) {n m : Nat} (h : n ≤ m) :
    (level options n).Agrees (level options m) :=
  agrees_level_of_eq rfl h

/-- A result stays the result when there are more levels. -/
theorem simplify_level_mono {options : Options} {n m : Nat} {e e' : Expr} (hle : n ≤ m)
    (h : (level options n).simplify e = .ok e') : (level options m).simplify e = .ok e' :=
  ((agrees_level options hle).simplify e).eq h nofun

theorem unmultiplied_level_mono {options : Options} {n m k : Nat} {b : Expr} (hle : n ≤ m)
    (h : Unmultiplied (level options n) b k) : Unmultiplied (level options m) b k := by
  obtain ⟨op, x, hx⟩ := h
  refine ⟨op, x, ((agrees_level options hle).simplify _).eq hx fun e he hd => ?_⟩
  obtain rfl := Except.error.inj he
  exact hd

end Surd
