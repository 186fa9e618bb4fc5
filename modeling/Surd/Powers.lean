/-!
# Powers of variables

A product of powers of variables is kept as its exponents by name, in strictly
ascending order of the names (by code points, which is also the order of
their UTF-8 encodings). No exponent is zero and none is larger than
`maxExponent`. A product is therefore determined by the function `exponent`,
which is zero for the names that do not occur (`Powers.ext_exponent`).
-/

namespace Surd

/-- The largest exponent a variable can have. -/
def maxExponent : Nat := 1 <<< 64 - 1

namespace Powers

/-- The exponent of `x` in a list of powers. -/
def exponentIn (x : String) : List (String × Nat) → Nat
  | [] => 0
  | (y, m) :: ps => if x = y then m else exponentIn x ps

/-- Adds `k` to the exponent of `x`, in order. -/
def raise (x : String) (k : Nat) : List (String × Nat) → List (String × Nat)
  | [] => [(x, k)]
  | (y, m) :: ps =>
    if x = y then (y, m + k) :: ps
    else if x < y then (x, k) :: (y, m) :: ps
    else (y, m) :: raise x k ps

theorem mem_raise {x : String} {k : Nat} {ps : List (String × Nat)} {p : String × Nat}
    (h : p ∈ raise x k ps) :
    (p.1 = x ∧ k ≤ p.2 ∧ p.2 ≤ exponentIn x ps + k) ∨ p ∈ ps := by
  induction ps with
  | nil =>
    obtain rfl : p = (x, k) := by simpa [raise] using h
    exact .inl (by simp)
  | cons q ps ih =>
    obtain ⟨y, m⟩ := q
    simp only [raise] at h
    by_cases hxy : x = y
    · simp only [if_pos hxy, List.mem_cons] at h
      rcases h with rfl | h
      · exact .inl (by simp [exponentIn, hxy])
      · exact .inr (by simp [h])
    · by_cases hlt : x < y
      · simp only [if_neg hxy, if_pos hlt, List.mem_cons] at h
        rcases h with rfl | h
        · exact .inl (by simp)
        · exact .inr (by simpa using h)
      · simp only [if_neg hxy, if_neg hlt, List.mem_cons] at h
        rcases h with rfl | h
        · exact .inr (by simp)
        · rcases ih h with ⟨h1, h2, h3⟩ | h
          · exact .inl (by simpa [exponentIn, hxy] using ⟨h1, h2, h3⟩)
          · exact .inr (by simp [h])

theorem pairwise_raise {x : String} {k : Nat} {ps : List (String × Nat)}
    (h : ps.Pairwise fun p q => p.1 < q.1) :
    (raise x k ps).Pairwise fun p q => p.1 < q.1 := by
  induction ps with
  | nil => simp [raise]
  | cons q ps ih =>
    obtain ⟨y, m⟩ := q
    have ⟨hy, hps⟩ := List.pairwise_cons.mp h
    simp only [raise]
    by_cases hxy : x = y
    · rw [if_pos hxy]
      exact List.pairwise_cons.mpr ⟨hy, hps⟩
    · rw [if_neg hxy]
      by_cases hlt : x < y
      · rw [if_pos hlt]
        refine List.pairwise_cons.mpr ⟨fun p hp => ?_, h⟩
        rcases List.mem_cons.mp hp with rfl | hp
        · exact hlt
        · exact String.lt_trans hlt (hy p hp)
      · rw [if_neg hlt]
        have hyx : y < x := Std.lt_of_le_of_ne (String.not_lt.mp hlt) (Ne.symm hxy)
        refine List.pairwise_cons.mpr ⟨fun p hp => ?_, ih hps⟩
        rcases mem_raise hp with ⟨h1, _⟩ | hp
        · exact h1 ▸ hyx
        · exact hy p hp

theorem exponentIn_of_not_mem {x : String} {ps : List (String × Nat)}
    (h : x ∉ ps.map Prod.fst) : exponentIn x ps = 0 := by
  induction ps with
  | nil => rfl
  | cons p ps ih =>
    rw [List.map_cons, List.mem_cons, not_or] at h
    rw [exponentIn, if_neg h.1, ih h.2]

theorem exponentIn_eq_zero {x : String} {ps : List (String × Nat)}
    (h : ∀ p ∈ ps, x < p.1) : exponentIn x ps = 0 := by
  refine exponentIn_of_not_mem fun hmem => ?_
  obtain ⟨p, hp, rfl⟩ := List.mem_map.mp hmem
  exact String.lt_irrefl _ (h p hp)

theorem exponentIn_raise {x y : String} {k : Nat} {ps : List (String × Nat)}
    (h : ps.Pairwise fun p q => p.1 < q.1) :
    exponentIn y (raise x k ps) = exponentIn y ps + if y = x then k else 0 := by
  induction ps with
  | nil => simp [raise, exponentIn]
  | cons q ps ih =>
    obtain ⟨z, m⟩ := q
    have ⟨hz, hps⟩ := List.pairwise_cons.mp h
    simp only [raise]
    by_cases hxz : x = z
    · subst hxz
      rw [if_pos rfl]
      by_cases hyx : y = x <;> simp [exponentIn, hyx]
    · rw [if_neg hxz]
      by_cases hlt : x < z
      · rw [if_pos hlt]
        by_cases hyx : y = x
        · subst hyx
          have : exponentIn y ps = 0 :=
            exponentIn_eq_zero fun p hp => String.lt_trans hlt (hz p hp)
          simp [exponentIn, hxz, this]
        · simp [exponentIn, hyx]
      · rw [if_neg hlt]
        by_cases hyz : y = z
        · subst hyz
          have hyx : ¬ y = x := fun h => hxz h.symm
          simp [exponentIn, hyx]
        · simp [exponentIn, hyz, ih hps]

theorem exponentIn_le {x : String} {n : Nat} {ps : List (String × Nat)}
    (h : ∀ p ∈ ps, p.2 ≤ n) : exponentIn x ps ≤ n := by
  induction ps with
  | nil => exact Nat.zero_le _
  | cons q ps ih =>
    simp only [exponentIn]
    split
    · exact h q (by simp)
    · exact ih fun p hp => h p (by simp [hp])

theorem eq_of_exponentIn_eq {ps qs : List (String × Nat)}
    (hps : ps.Pairwise fun p q => p.1 < q.1) (hqs : qs.Pairwise fun p q => p.1 < q.1)
    (pos_ps : ∀ p ∈ ps, 0 < p.2) (pos_qs : ∀ p ∈ qs, 0 < p.2)
    (h : ∀ x, exponentIn x ps = exponentIn x qs) : ps = qs := by
  induction ps generalizing qs with
  | nil =>
    cases qs with
    | nil => rfl
    | cons q qs =>
      have h0 := h q.1
      have hpos := pos_qs q (by simp)
      simp only [exponentIn, if_true] at h0
      omega
  | cons p ps ih =>
    obtain ⟨x, k⟩ := p
    have hk := pos_ps (x, k) (by simp)
    have ⟨hx, hps'⟩ := List.pairwise_cons.mp hps
    cases qs with
    | nil =>
      have h0 := h x
      simp only [exponentIn, if_true] at h0
      omega
    | cons q qs =>
      obtain ⟨y, m⟩ := q
      have hm := pos_qs (y, m) (by simp)
      have ⟨hy, hqs'⟩ := List.pairwise_cons.mp hqs
      have hxy : x = y := by
        by_cases hlt : x < y
        · have h0 : exponentIn x ((y, m) :: qs) = 0 := exponentIn_eq_zero fun r hr => by
            rcases List.mem_cons.mp hr with rfl | hr
            · exact hlt
            · exact String.lt_trans hlt (hy r hr)
          rw [← h x] at h0
          simp only [exponentIn, if_true] at h0
          omega
        · by_cases hgt : y < x
          · have h0 : exponentIn y ((x, k) :: ps) = 0 := exponentIn_eq_zero fun r hr => by
              rcases List.mem_cons.mp hr with rfl | hr
              · exact hgt
              · exact String.lt_trans hgt (hx r hr)
            rw [h y] at h0
            simp only [exponentIn, if_true] at h0
            omega
          · exact String.le_antisymm (String.not_lt.mp hgt) (String.not_lt.mp hlt)
      subst hxy
      have hkm : k = m := by simpa [exponentIn] using h x
      subst hkm
      rw [ih hps' hqs' (fun r hr => pos_ps r (by simp [hr]))
        (fun r hr => pos_qs r (by simp [hr])) fun z => ?_]
      by_cases hz : z = x
      · subst hz
        rw [exponentIn_eq_zero hx, exponentIn_eq_zero hy]
      · simpa [exponentIn, hz] using h z

end Powers

/-- A product of powers of variables. -/
@[ext]
structure Powers where
  entries : List (String × Nat)
  sorted : entries.Pairwise fun p q => p.1 < q.1
  bounded : ∀ p ∈ entries, 0 < p.2 ∧ p.2 ≤ maxExponent
deriving DecidableEq

namespace Powers

def one : Powers := ⟨[], .nil, nofun⟩

def exponent (p : Powers) (x : String) : Nat :=
  exponentIn x p.entries

/-- The product with `x ^ k`, unless the exponent gets too large. -/
def mulVar? (p : Powers) (x : String) (k : Nat) : Option Powers :=
  if hk : k = 0 then some p
  else if hle : p.exponent x + k ≤ maxExponent then
    some ⟨raise x k p.entries, pairwise_raise p.sorted, fun q hq => by
      rcases mem_raise hq with ⟨-, h1, h2⟩ | hq
      · exact ⟨by omega, Nat.le_trans h2 hle⟩
      · exact p.bounded q hq⟩
  else none

@[simp] theorem exponent_one (x : String) : one.exponent x = 0 := rfl

/-- Two products with the same exponents are the same. -/
theorem ext_exponent {p q : Powers} (h : ∀ x, p.exponent x = q.exponent x) : p = q :=
  Powers.ext (eq_of_exponentIn_eq p.sorted q.sorted (fun r hr => (p.bounded r hr).1)
    (fun r hr => (q.bounded r hr).1) h)

/-- Multiplying by a power adds its exponent. -/
theorem exponent_mulVar? {p q : Powers} {x : String} {k : Nat} (h : p.mulVar? x k = some q)
    (y : String) : q.exponent y = p.exponent y + if y = x then k else 0 := by
  unfold mulVar? at h
  split at h
  · next hk =>
    obtain rfl : p = q := by simpa using h
    simp [hk]
  · split at h
    · obtain rfl := Option.some.inj h
      exact exponentIn_raise p.sorted
    · exact nomatch h

theorem exponent_le (p : Powers) (x : String) : p.exponent x ≤ maxExponent :=
  exponentIn_le fun q hq => (p.bounded q hq).2

/-- A power is refused exactly when its exponent would get too large. -/
theorem mulVar?_eq_none_iff {p : Powers} {x : String} {k : Nat} :
    p.mulVar? x k = none ↔ maxExponent < p.exponent x + k := by
  have := p.exponent_le x
  unfold mulVar?
  split
  · simp; omega
  · split
    · simp; omega
    · simp; omega

end Powers

end Surd
