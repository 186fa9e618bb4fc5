import Surd.Proofs.Outcome

/-!
# What stands in front of a root is carried along

Multiplying a term by a factor looks at the root of the term and at nothing
else. What comes out for the bare root comes out for the whole term, times the
coefficient and the powers in front of it; an exponent that gets too large is
the one thing that can come in between. `IgnoresFront` says this of a step.

Steps of this kind compose, and every operation on terms is put together from
them. So what is to be known about the merging of roots has to be known of bare
roots only.
-/

namespace Surd

variable {ε ε' α : Type _} {level : Level} {t m u : Term}

/-! ## Exponents -/

namespace Powers

theorem mulVar?_eq_some_iff {p q : Powers} {x : String} {k : Nat} :
    p.mulVar? x k = some q ↔ ∀ y, q.exponent y = p.exponent y + if y = x then k else 0 := by
  refine ⟨exponent_mulVar?, fun h => ?_⟩
  cases hr : p.mulVar? x k with
  | none =>
      have hx := h x
      have hlt := mulVar?_eq_none_iff.mp hr
      have hle := q.exponent_le x
      rw [if_pos rfl] at hx
      omega
  | some r => exact congrArg some (ext_exponent fun y => by rw [exponent_mulVar? hr, h])

theorem exponentIn_filter (f : String → Nat) (x : String) (ps : List (String × Nat)) :
    exponentIn x ((ps.map fun q => (q.1, f q.1)).filter fun q => 0 < q.2) =
      if x ∈ ps.map Prod.fst then f x else 0 := by
  induction ps with
  | nil => rfl
  | cons q ps ih =>
      simp only [List.map_cons, List.filter_cons, List.mem_cons]
      by_cases hx : x = q.1
      · subst hx
        by_cases hpos : 0 < f q.1
        · simp [hpos, exponentIn]
        · simp only [hpos, decide_false, Bool.false_eq_true, if_false, ih, true_or, if_true]
          split <;> omega
      · rw [if_congr (or_iff_right hx) rfl rfl, ← ih]
        by_cases hpos : 0 < f q.1 <;> simp [hpos, exponentIn, hx]

/-- There is a product of powers with any exponents that are not larger than
those of another one. -/
theorem exists_of_le (p : Powers) {f : String → Nat} (h : ∀ x, f x ≤ p.exponent x) :
    ∃ q : Powers, ∀ x, q.exponent x = f x := by
  refine ⟨⟨(p.entries.map fun q => (q.1, f q.1)).filter fun q => 0 < q.2, ?_, ?_⟩, fun x => ?_⟩
  · exact (List.pairwise_map.mpr p.sorted : (p.entries.map fun q => (q.1, f q.1)).Pairwise
      fun q r => q.1 < r.1).filter _
  · intro q hq
    obtain ⟨hq, hpos⟩ := List.mem_filter.mp hq
    obtain ⟨r, -, rfl⟩ := List.mem_map.mp hq
    exact ⟨of_decide_eq_true hpos, Nat.le_trans (h r.1) (p.exponent_le r.1)⟩
  · show exponentIn x _ = f x
    rw [exponentIn_filter]
    split
    · rfl
    · next hmem =>
        have hzero : p.exponent x = 0 := exponentIn_of_not_mem hmem
        have hle := h x
        omega

end Powers

/-! ## Steps -/

namespace Term

/-- The root of a term, with nothing in front of it. -/
def bare (t : Term) : Term :=
  ⟨1, .one, t.radical⟩

/-- `u` is `m` times all that stands in front of the root of `t`. -/
structure Scales (t m u : Term) : Prop where
  coeff : u.coeff = t.coeff * m.coeff
  exponent : ∀ x, u.vars.exponent x = t.vars.exponent x + m.vars.exponent x
  radical : u.radical = m.radical

theorem Scales.unique {u' : Term} (h : t.Scales m u) (h' : t.Scales m u') : u = u' :=
  Term.ext (h.coeff.trans h'.coeff.symm)
    (Powers.ext_exponent fun x => (h.exponent x).trans (h'.exponent x).symm)
    (h.radical.trans h'.radical.symm)

theorem Scales.bare_eq (h : t.Scales m u) : u.bare = m.bare := by
  rw [bare, bare, h.radical]

/-- Scaling in two steps. -/
theorem Scales.trans {m' n u' : Term} (h : t.Scales m u) (h' : u.Scales m' u')
    (hn : m.Scales m' n) : t.Scales n u' where
  coeff := by rw [h'.coeff, h.coeff, hn.coeff, Int.mul_assoc]
  exponent x := by rw [h'.exponent, h.exponent, hn.exponent, Nat.add_assoc]
  radical := h'.radical.trans hn.radical.symm

/-- The second of two steps, from both together and the first. -/
theorem Scales.of_trans {m' n u' : Term} (h : t.Scales m u) (hn : m.Scales m' n)
    (h' : t.Scales n u') : u.Scales m' u' where
  coeff := by rw [h'.coeff, h.coeff, hn.coeff, Int.mul_assoc]
  exponent x := by rw [h'.exponent, h.exponent, hn.exponent, Nat.add_assoc]
  radical := h'.radical.trans hn.radical

/-- A product is in bounds if it divides a term. -/
theorem exists_scales (t m : Term) {v : Term}
    (h : ∀ x, t.vars.exponent x + m.vars.exponent x ≤ v.vars.exponent x) :
    ∃ u, t.Scales m u := by
  obtain ⟨q, hq⟩ := v.vars.exists_of_le h
  exact ⟨⟨t.coeff * m.coeff, q, m.radical⟩, rfl, hq, rfl⟩

/-- The step does to a term what it does to its bare root. -/
def IgnoresFront (f : Term → Except ε Term) : Prop :=
  ∀ t u, f t = .ok u ↔ ∃ m, f t.bare = .ok m ∧ t.Scales m u

theorem ignoresFront_of_scales {f : Term → Term} (h : ∀ t : Term, t.Scales (f t.bare) (f t)) :
    IgnoresFront fun t => (.ok (f t) : Except ε Term) := by
  intro t u
  constructor
  · intro hu
    exact ⟨f t.bare, rfl, Except.ok.inj hu ▸ h t⟩
  · rintro ⟨m, hm, hu⟩
    obtain rfl := Except.ok.inj hm
    exact congrArg Except.ok ((h t).unique hu)

theorem ignoresFront_mulInt (n : Int) :
    IgnoresFront fun t => (.ok (t.mulInt n) : Except ε Term) :=
  ignoresFront_of_scales fun t =>
    ⟨by simp [mulInt, bare], fun x => by simp [mulInt, bare], rfl⟩

theorem ignoresFront_setRadical (r : Option Expr) :
    IgnoresFront fun t => (.ok { t with radical := r } : Except ε Term) :=
  ignoresFront_of_scales fun t => ⟨by simp [bare], fun x => by simp [bare], rfl⟩

theorem ignoresFront_mulVar (x : String) (k : Nat) : IgnoresFront fun t => t.mulVar x k := by
  intro t u
  constructor
  · intro hu
    obtain ⟨vars, hvars, rfl⟩ := mulVar_eq_ok.mp hu
    have hexp := Powers.mulVar?_eq_some_iff.mp hvars
    obtain ⟨q, hq⟩ := vars.exists_of_le (f := fun y => if y = x then k else 0) fun y => by
      rw [hexp y]
      omega
    have hone : Powers.one.mulVar? x k = some q :=
      Powers.mulVar?_eq_some_iff.mpr fun y => by rw [hq y, Powers.exponent_one, Nat.zero_add]
    refine ⟨⟨1, q, t.radical⟩, mulVar_eq_ok.mpr ⟨q, hone, rfl⟩, (Int.mul_one _).symm, ?_, rfl⟩
    exact fun y => by rw [hexp y, hq y]
  · rintro ⟨m, hm, hu⟩
    obtain ⟨q, hq, rfl⟩ := mulVar_eq_ok.mp hm
    have hexp := Powers.mulVar?_eq_some_iff.mp hq
    refine mulVar_eq_ok.mpr ⟨u.vars, Powers.mulVar?_eq_some_iff.mpr fun y => ?_, ?_⟩
    · rw [hu.exponent, hexp y, bare, Powers.exponent_one, Nat.zero_add]
    · exact Term.ext (hu.coeff.trans (Int.mul_one _)) rfl hu.radical

theorem error_eq_ok_iff_scales {e : ε} (t u : Term) :
    (.error e : Except ε Term) = .ok u ↔ ∃ m, (.error e : Except ε Term) = .ok m ∧
      t.Scales m u :=
  ⟨nofun, fun ⟨_, h, _⟩ => nomatch h⟩

namespace IgnoresFront

variable {f g : Term → Except ε Term}

theorem bind (hf : IgnoresFront f) (hg : IgnoresFront g) :
    IgnoresFront fun t => f t >>= g := by
  intro t u
  simp only [bind_eq_ok]
  constructor
  · rintro ⟨t₁, ht₁, hu⟩
    obtain ⟨m₁, hm₁, hscales₁⟩ := (hf t t₁).mp ht₁
    obtain ⟨m₂, hm₂, hscales₂⟩ := (hg t₁ u).mp hu
    obtain ⟨m, hm⟩ := exists_scales m₁ m₂ (v := u) fun x => by
      rw [hscales₂.exponent, hscales₁.exponent]
      omega
    exact ⟨m, ⟨m₁, hm₁, (hg m₁ m).mpr ⟨m₂, hscales₁.bare_eq ▸ hm₂, hm⟩⟩,
      hscales₁.trans hscales₂ hm⟩
  · rintro ⟨m, ⟨m₁, hm₁, hm⟩, hu⟩
    obtain ⟨m₂, hm₂, hscales₂⟩ := (hg m₁ m).mp hm
    obtain ⟨t₁, ht₁⟩ := exists_scales t m₁ (v := u) fun x => by
      rw [hu.exponent, hscales₂.exponent]
      omega
    exact ⟨t₁, (hf t t₁).mpr ⟨m₁, hm₁, ht₁⟩,
      (hg t₁ u).mpr ⟨m₂, ht₁.bare_eq ▸ hm₂, ht₁.of_trans hscales₂ hu⟩⟩

theorem const_bind {x : Except ε α} {f : α → Term → Except ε Term}
    (h : ∀ a, IgnoresFront (f a)) : IgnoresFront fun t => x >>= fun a => f a t := by
  cases x with
  | error e => exact error_eq_ok_iff_scales
  | ok a => exact h a

theorem mapError {h : ε → ε'} (hf : IgnoresFront f) :
    IgnoresFront fun t => (f t).mapError h := by
  intro t u
  simp only [mapError_eq_ok]
  exact hf t u

theorem foldlM {f : Term → α → Except ε Term} {as : List α}
    (h : ∀ a ∈ as, IgnoresFront fun t => f t a) : IgnoresFront fun t => as.foldlM f t := by
  induction as with
  | nil => exact ignoresFront_of_scales fun t => ⟨by simp [bare], fun x => by simp [bare], rfl⟩
  | cons a as ih =>
      simp only [List.foldlM_cons]
      exact (h a List.mem_cons_self).bind (ih fun b hb => h b (List.mem_cons_of_mem a hb))

end IgnoresFront

/-! ## Operations -/

theorem ignoresFront_mulHalves (vars : Powers) : IgnoresFront fun t => t.mulHalves vars :=
  IgnoresFront.foldlM fun q _ => ignoresFront_mulVar q.1 (q.2 / 2)

theorem ignoresFront_mulPower (b e : Expr) : IgnoresFront fun t => t.mulPower b e := by
  simp only [mulPower]
  split
  · exact IgnoresFront.const_bind fun n => ignoresFront_mulInt n
  · split
    · exact ignoresFront_mulVar _ _
    · exact error_eq_ok_iff_scales
  · exact error_eq_ok_iff_scales
  · exact error_eq_ok_iff_scales

theorem ignoresFront_extract {radicand : Expr} {fs : List Expr}
    {f : List Expr → Term → Except SimplifyError Term} (h : ∀ left, IgnoresFront (f left)) :
    IgnoresFront fun t => extract level radicand t fs >>= fun p => f p.2 p.1 := by
  simp only [extract, bind_assoc, pure_bind]
  refine .const_bind fun inner => .const_bind fun split => ?_
  exact (ignoresFront_mulInt _).bind ((ignoresFront_mulHalves inner.vars).bind (h _))

/-- Merges roots when the factors under them have been sorted out: those that
are no sums, and the sums in order. -/
def mergeFactors (level : Level) (radicand : Expr) (rest sums : List Expr) (t : Term) :
    Except SimplifyError Term := do
  let (t, left) ← extract level radicand { t with radical := none } rest
  match left, sums with
  | left, [] => return { t with radical := Expr.chain? .mul left }
  | [], [s] => return { t with radical := some s }
  | left, sums =>
    let canonical ← level.simplify (.product (left ++ sums))
    if canonical.isSum then
      return { t with radical := some canonical }
    else
      let (t, left) ← extract level canonical t canonical.factors
      return { t with radical := Expr.chain? .mul left }

theorem mulRoot_eq_mergeFactors (level : Level) (t : Term) (e : Expr) :
    t.mulRoot level e = mergeFactors level e ((t.merged e).filter fun f => !f.isSum)
      (sortByText ((t.merged e).filter Expr.isSum)) t := by
  rw [mulRoot, List.partition_eq_filter_filter]
  rfl

theorem ignoresFront_mergeFactors (radicand : Expr) (rest sums : List Expr) :
    IgnoresFront (mergeFactors level radicand rest sums) := by
  have hleft : ∀ left, IgnoresFront fun t =>
      (match left, sums with
      | left, [] => (return { t with radical := Expr.chain? .mul left })
      | [], [s] => (return { t with radical := some s })
      | left, sums => do
        let canonical ← level.simplify (.product (left ++ sums))
        if canonical.isSum then
          return { t with radical := some canonical }
        else
          let (t, left) ← extract level canonical t canonical.factors
          return { t with radical := Expr.chain? .mul left } : Except SimplifyError Term) := by
    intro left
    split
    · exact ignoresFront_setRadical _
    · exact ignoresFront_setRadical _
    · refine .const_bind fun canonical => ?_
      split
      · exact ignoresFront_setRadical _
      · exact ignoresFront_extract fun left => ignoresFront_setRadical _
  exact (ignoresFront_setRadical none).bind (ignoresFront_extract hleft)

theorem ignoresFront_mulRoot (e : Expr) : IgnoresFront fun t => t.mulRoot level e := by
  intro t u
  have hmerged : t.bare.merged e = t.merged e := rfl
  show t.mulRoot level e = _ ↔ ∃ m, t.bare.mulRoot level e = _ ∧ _
  rw [mulRoot_eq_mergeFactors, mulRoot_eq_mergeFactors, hmerged]
  exact ignoresFront_mergeFactors _ _ _ t u

theorem ignoresFront_absorb (e : Expr) : IgnoresFront fun t => t.absorb level e := by
  induction e with
  | num n => exact ignoresFront_mulInt n
  | var x => exact (ignoresFront_mulVar x 1).mapError
  | pow b k => exact (ignoresFront_mulPower b k).mapError
  | root e => exact (ignoresFront_mulRoot e).mapError
  | bin op l r ihl ihr =>
      cases op with
      | mul => exact ihl.bind ihr
      | add | sub | div => exact error_eq_ok_iff_scales

theorem ignoresFront_absorbAll (fs : List Expr) :
    IgnoresFront fun t => fs.foldlM (absorb level) t :=
  .foldlM fun f _ => ignoresFront_absorb f

end Term

end Surd
