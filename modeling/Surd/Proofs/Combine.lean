import Surd.Term

/-!
# Combining like terms

`combine` keeps groups of terms under their keys. Two facts about the groups
carry everything: no two of them have the same key, and each holds a term that
differs from one of the given terms in the coefficient alone. Terms that are
unlike and not zero to begin with are therefore left as they are.
-/

namespace Surd.Term

variable {t : Term} {ts : List Term} {key : String} {groups : List (String × Term)}

/-- Two terms differ in the coefficient alone. -/
structure Alike (s t : Term) : Prop where
  vars : s.vars = t.vars
  radical : s.radical = t.radical

theorem Alike.key_eq {s t : Term} (h : s.Alike t) : s.key = t.key := by
  rw [Term.key, Term.key, h.vars, h.radical]

/-- The groups that some terms fall into, after those that are there. -/
def addAll (groups : List (String × Term)) (ts : List Term) : List (String × Term) :=
  ts.foldl (fun groups t => addLike t.key t groups) groups

theorem combine_eq (ts : List Term) :
    combine ts = ((addAll [] ts).map Prod.snd).filter fun t => t.coeff ≠ 0 :=
  rfl

/-! ## Keys -/

theorem keys_addLike :
    (addLike key t groups).map Prod.fst =
      if key ∈ groups.map Prod.fst then groups.map Prod.fst else groups.map Prod.fst ++ [key] := by
  induction groups with
  | nil => rfl
  | cons g groups ih =>
      obtain ⟨key', s⟩ := g
      rw [addLike]
      by_cases h : key' = key
      · simp [h]
      · rw [if_neg h, List.map_cons, ih]
        by_cases hmem : key ∈ groups.map Prod.fst
        · have hin : key ∈ ((key', s) :: groups).map Prod.fst := List.mem_cons_of_mem key' hmem
          rw [if_pos hmem, if_pos hin]
          rfl
        · have hnot : key ∉ ((key', s) :: groups).map Prod.fst :=
            fun hin => (List.mem_cons.mp hin).elim (fun he => h he.symm) hmem
          rw [if_neg hmem, if_neg hnot]
          rfl

theorem nodup_addLike (h : (groups.map Prod.fst).Nodup) :
    ((addLike key t groups).map Prod.fst).Nodup := by
  rw [keys_addLike]
  split
  · exact h
  · next hmem =>
      rw [List.nodup_append]
      exact ⟨h, by simp, fun a ha b hb hab => hmem (by simp_all)⟩

theorem nodup_addAll (h : (groups.map Prod.fst).Nodup) :
    ((addAll groups ts).map Prod.fst).Nodup := by
  induction ts generalizing groups with
  | nil => exact h
  | cons t ts ih => exact ih (nodup_addLike h)

/-! ## Terms -/

/-- A group holds a term that is alike to one that was put in, under its
key. -/
def Holds (ts : List Term) (g : String × Term) : Prop :=
  ∃ s ∈ ts, g.2.Alike s ∧ g.1 = s.key

theorem holds_addLike (h : ∀ g ∈ groups, Holds ts g) :
    ∀ g ∈ addLike t.key t groups, Holds (t :: ts) g := by
  have hweak : ∀ g, Holds ts g → Holds (t :: ts) g := fun g ⟨s, hs, hg⟩ =>
    ⟨s, List.mem_cons_of_mem t hs, hg⟩
  induction groups with
  | nil =>
      intro g hg
      obtain rfl := List.mem_singleton.mp hg
      exact ⟨t, List.mem_cons_self, ⟨rfl, rfl⟩, rfl⟩
  | cons g₀ groups ih =>
      obtain ⟨key', s⟩ := g₀
      have htail := fun g hg => h g (List.mem_cons_of_mem _ hg)
      intro g hg
      rw [addLike] at hg
      split at hg <;> rcases List.mem_cons.mp hg with rfl | hg
      · obtain ⟨u, hu, halike, hkey⟩ := hweak _ (h _ List.mem_cons_self)
        exact ⟨u, hu, ⟨halike.vars, halike.radical⟩, hkey⟩
      · exact hweak g (htail g hg)
      · exact hweak _ (h _ List.mem_cons_self)
      · exact ih htail g hg

theorem holds_addAll {ts' : List Term} (h : ∀ g ∈ groups, Holds ts' g) :
    ∀ g ∈ addAll groups ts, Holds (ts' ++ ts) g := by
  induction ts generalizing groups ts' with
  | nil => exact (List.append_nil ts').symm ▸ h
  | cons t ts ih =>
      intro g hg
      obtain ⟨s, hs, halike⟩ := ih (holds_addLike h) g hg
      refine ⟨s, ?_, halike⟩
      simp only [List.cons_append, List.mem_cons, List.mem_append] at hs ⊢
      exact or_left_comm.mp hs

theorem holds_of_mem_addAll {g : String × Term} (hg : g ∈ addAll [] ts) : Holds ts g :=
  holds_addAll (List.forall_mem_nil (Holds [])) g hg

/-- Combining only ever changes coefficients. -/
theorem exists_alike_of_mem_combine (h : t ∈ combine ts) : ∃ s ∈ ts, t.Alike s := by
  rw [combine_eq] at h
  obtain ⟨g, hg, rfl⟩ := List.mem_map.mp (List.mem_filter.mp h).1
  obtain ⟨s, hs, halike, -⟩ := holds_of_mem_addAll hg
  exact ⟨s, hs, halike⟩

theorem coeff_ne_zero_of_mem_combine (h : t ∈ combine ts) : t.coeff ≠ 0 := by
  simpa using (List.mem_filter.mp h).2

theorem nodup_key_combine (ts : List Term) : ((combine ts).map Term.key).Nodup := by
  have hkeys : (addAll [] ts).map (fun g => g.2.key) = (addAll [] ts).map Prod.fst := by
    refine List.map_congr_left fun g hg => ?_
    obtain ⟨s, -, halike, hkey⟩ := holds_of_mem_addAll hg
    rw [halike.key_eq, hkey]
  have hnodup : (((addAll [] ts).map Prod.snd).map Term.key).Nodup := by
    rw [List.map_map]
    exact hkeys ▸ nodup_addAll List.nodup_nil
  rw [combine_eq]
  exact hnodup.sublist (List.filter_sublist.map _)

/-! ## Unlike terms -/

theorem addLike_of_not_mem (h : key ∉ groups.map Prod.fst) :
    addLike key t groups = groups ++ [(key, t)] := by
  induction groups with
  | nil => rfl
  | cons g groups ih =>
      obtain ⟨key', s⟩ := g
      rw [List.map_cons, List.mem_cons, not_or] at h
      rw [addLike, if_neg (Ne.symm h.1), ih h.2]
      rfl

theorem addAll_of_nodup (h : (groups.map Prod.fst ++ ts.map Term.key).Nodup) :
    addAll groups ts = groups ++ ts.map fun t => (t.key, t) := by
  induction ts generalizing groups with
  | nil => exact (List.append_nil groups).symm
  | cons t ts ih =>
      have hnot : t.key ∉ groups.map Prod.fst := by
        intro hmem
        exact (List.nodup_append.mp h).2.2 t.key hmem t.key (by simp) rfl
      have hnext : ((groups ++ [(t.key, t)]).map Prod.fst ++ ts.map Term.key).Nodup := by
        simpa using h
      show addAll (addLike t.key t groups) ts = _
      rw [addLike_of_not_mem hnot, ih hnext]
      simp

/-- Terms that are unlike and not zero have nothing to combine. -/
theorem combine_of_nodup (h : (ts.map Term.key).Nodup) (hcoeff : ∀ t ∈ ts, t.coeff ≠ 0) :
    combine ts = ts := by
  rw [combine_eq, addAll_of_nodup (by simpa using h)]
  simpa [Function.comp_def] using hcoeff

end Surd.Term
