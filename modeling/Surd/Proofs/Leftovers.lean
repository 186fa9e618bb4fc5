import Surd.Proofs.Outcome
import Surd.Proofs.Written

/-!
# What stays under a root is a term again

The factors left under a root are those of a term of their own: the
square-free part as the coefficient, the variables with odd exponents to the
first power, and the nested root (`leftovers_eq`). Chained up they are that
term as it is written, so nothing further has to be known of the chain.
-/

namespace Surd

theorem one_le_maxExponent : 1 ≤ maxExponent := by decide

/-- A variable to the first power. -/
def Powers.var (x : String) : Powers where
  entries := [(x, 1)]
  sorted := List.pairwise_singleton _ _
  bounded := fun q hq => by
    rw [List.mem_singleton.mp hq]
    exact ⟨Nat.one_pos, one_le_maxExponent⟩

/-- A power of a variable. -/
def Powers.ofVarPow (x : String) (k : Nat) (hk : 0 < k) (hle : k ≤ maxExponent) : Powers where
  entries := [(x, k)]
  sorted := List.pairwise_singleton _ _
  bounded := fun q hq => by
    rw [List.mem_singleton.mp hq]
    exact ⟨hk, hle⟩

/-- The variables with odd exponents, to the first power. -/
def Powers.odd (p : Powers) : Powers where
  entries := (p.entries.filter fun q => q.2 % 2 = 1).map fun q => (q.1, 1)
  sorted := List.pairwise_map.mpr (p.sorted.filter _)
  bounded := fun q hq => by
    obtain ⟨r, -, rfl⟩ := List.mem_map.mp hq
    exact ⟨Nat.one_pos, one_le_maxExponent⟩

theorem Powers.snd_of_mem_odd {p : Powers} {q : String × Nat} (h : q ∈ p.odd.entries) :
    q.2 = 1 := by
  obtain ⟨r, -, rfl⟩ := List.mem_map.mp h
  rfl

theorem Powers.odd_eq_self {p : Powers} (h : ∀ q ∈ p.entries, q.2 = 1) : p.odd = p := by
  have hfilter : p.entries.filter (fun q => q.2 % 2 = 1) = p.entries :=
    List.filter_eq_self.mpr fun q hq => by simp [h q hq]
  refine Powers.ext ?_
  show (p.entries.filter _).map _ = p.entries
  rw [hfilter]
  exact (List.map_congr_left fun q hq => by rw [← h q hq]; rfl).trans (List.map_id _)

namespace Term

variable {t t' : Term} {inside : Int} {e : Expr}

/-- What stays under a root, as a term. -/
def leftover (inside : Int) (t : Term) : Term :=
  ⟨inside, t.vars.odd, t.radical⟩

theorem leftovers_eq (inside : Int) (t : Term) :
    t.leftovers inside = (t.leftover inside).toFactors := by
  simp only [leftovers, toFactors, leftover, Powers.odd, List.map_map]
  rfl

/-- A chain of leftovers is the written leftover, unless nothing is left. -/
theorem chain?_leftovers (hinside : inside ≠ 0)
    (h : Expr.chain? .mul (t.leftovers inside) = some e) :
    t.leftover inside ≠ .one ∧ e = (t.leftover inside).toExpr := by
  rw [leftovers_eq] at h
  have hone : t.leftover inside ≠ .one := by
    intro hone
    rw [toFactors_eq_nil_iff.mpr hone] at h
    cases h
  refine ⟨hone, ?_⟩
  rw [chain?_toFactors hinside hone] at h
  exact (Option.some.inj h).symm

theorem toExpr_ofVarPow {x : String} {k : Nat} (hk : 0 < k) (hle : k ≤ maxExponent) :
    (Term.mk 1 (.ofVarPow x k hk hle) none).toExpr = Expr.varPow x k := by
  rw [toExpr, if_neg Int.one_ne_zero]
  rfl

/-- Taking halves out of a root changes neither the coefficient nor the root
of the term they go to. -/
theorem mulHalves_eq_ok {vars : Powers} (h : t.mulHalves vars = .ok t') :
    t'.coeff = t.coeff ∧ t'.radical = t.radical := by
  refine foldlM_induction (P := fun s => s.coeff = t.coeff ∧ s.radical = t.radical) h ⟨rfl, rfl⟩
    fun q _ s s' hs hs' => ?_
  obtain ⟨vars', -, rfl⟩ := mulVar_eq_ok.mp hs'
  exact hs

theorem radical_extract {level : Level} {radicand : Expr} {fs left : List Expr}
    (h : extract level radicand t fs = .ok (t', left)) : t'.radical = t.radical := by
  obtain ⟨inner, split, -, -, hhalves, -⟩ := extract_eq_ok h
  exact (mulHalves_eq_ok hhalves).2

theorem mulHalves_of_one {vars : Powers} (h : ∀ q ∈ vars.entries, q.2 = 1) :
    t.mulHalves vars = .ok t := by
  rw [mulHalves]
  revert h
  generalize vars.entries = qs
  intro h
  induction qs with
  | nil => rfl
  | cons q qs ih =>
      have hq : q.2 / 2 = 0 := by
        rw [h q List.mem_cons_self]
      rw [List.foldlM_cons, hq]
      exact ih fun r hr => h r (List.mem_cons_of_mem q hr)

end Term

end Surd
