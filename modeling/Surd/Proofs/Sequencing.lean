import Mathlib.Data.List.Forall2

/-!
# Steps that can fail

A sequence of steps gives a result exactly if each step gives its own. The
statements here say so of the ways in which steps are put together: one after
the other, over the elements of a list, and in a fold.

Where errors matter as well, `Yields D P` says of an outcome that it is a
result with the property `P` or an error with the property `D`. `Fails D` says
the second half alone, and `Agrees D` says of two outcomes that they are the
same unless the first one is an error with the property `D`.
-/

namespace Surd

variable {ε ε' α β : Type _}

theorem bind_eq_ok {x : Except ε α} {f : α → Except ε β} {b : β} :
    (x >>= f) = .ok b ↔ ∃ a, x = .ok a ∧ f a = .ok b := by
  cases x <;> simp [bind, Except.bind]

theorem pure_eq_ok {a b : α} : (pure a : Except ε α) = .ok b ↔ a = b := by
  simp [pure, Except.pure]

theorem mapError_eq_ok {f : ε → ε'} {x : Except ε α} {a : α} :
    x.mapError f = .ok a ↔ x = .ok a := by
  cases x <;> simp [Except.mapError]

theorem mapM_eq_ok {f : α → Except ε β} {as : List α} {bs : List β} :
    as.mapM f = .ok bs ↔ List.Forall₂ (fun a b => f a = .ok b) as bs := by
  induction as generalizing bs with
  | nil =>
      rw [List.mapM_nil, pure_eq_ok]
      exact ⟨fun h => h ▸ .nil, fun h => by cases h; rfl⟩
  | cons a as ih =>
      simp only [List.mapM_cons, bind_eq_ok, pure_eq_ok]
      constructor
      · rintro ⟨b, hb, bs', hbs, rfl⟩
        exact .cons hb (ih.mp hbs)
      · intro h
        cases h with
        | cons hb hbs => exact ⟨_, hb, _, ih.mpr hbs, rfl⟩

theorem exists_of_forall₂ {R : α → β → Prop} {as : List α} {bs : List β} {b : β}
    (h : List.Forall₂ R as bs) (hb : b ∈ bs) : ∃ a ∈ as, R a b := by
  induction h with
  | nil => cases hb
  | cons hab _ ih =>
      rcases List.mem_cons.mp hb with rfl | hb
      · exact ⟨_, List.mem_cons_self, hab⟩
      · obtain ⟨a, ha, hr⟩ := ih hb
        exact ⟨a, List.mem_cons_of_mem _ ha, hr⟩

theorem map_eq_of_forall₂ {γ : Type _} {f : α → γ} {g : β → γ} {as : List α} {bs : List β}
    (h : List.Forall₂ (fun a b => g b = f a) as bs) : bs.map g = as.map f := by
  induction h with
  | nil => rfl
  | cons hab _ ih => rw [List.map_cons, List.map_cons, hab, ih]

/-- What each step of a fold preserves holds of its result. -/
theorem foldlM_induction {P : β → Prop} {f : β → α → Except ε β} {as : List α} {b b' : β}
    (h : as.foldlM f b = .ok b') (hb : P b)
    (hf : ∀ a ∈ as, ∀ b b', P b → f b a = .ok b' → P b') : P b' := by
  induction as generalizing b with
  | nil => exact pure_eq_ok.mp h ▸ hb
  | cons a as ih =>
      obtain ⟨b₁, hb₁, h⟩ := bind_eq_ok.mp h
      exact ih h (hf a List.mem_cons_self b b₁ hb hb₁)
        fun a' ha' => hf a' (List.mem_cons_of_mem a ha')

/-- A fold fails where its first step fails. -/
theorem foldlM_eq_error {f : β → α → Except ε β} {as : List α} {b : β} {e : ε}
    (h : as.foldlM f b = .error e) : ∃ front a back b', as = front ++ a :: back ∧
      front.foldlM f b = .ok b' ∧ f b' a = .error e := by
  induction as generalizing b with
  | nil => cases h
  | cons a as ih =>
      rw [List.foldlM_cons] at h
      cases ha : f b a with
      | error e' =>
          rw [ha] at h
          cases h
          exact ⟨[], a, as, b, rfl, rfl, ha⟩
      | ok b₁ =>
          rw [ha] at h
          obtain ⟨front, a', back, b', rfl, hfront, ha'⟩ := ih h
          exact ⟨a :: front, a', back, b', rfl, by rw [List.foldlM_cons, ha]; exact hfront, ha'⟩

/-- What each step of a fold does to `m` the whole fold does to it. -/
theorem foldlM_foldl {M : Type _} {R : β → M → Prop} {f : β → α → Except ε β} {g : M → α → M}
    {as : List α} {b b' : β} {m : M} (h : as.foldlM f b = .ok b') (hb : R b m)
    (hf : ∀ a ∈ as, ∀ b b' m, R b m → f b a = .ok b' → R b' (g m a)) : R b' (as.foldl g m) := by
  induction as generalizing b m with
  | nil => exact pure_eq_ok.mp h ▸ hb
  | cons a as ih =>
      obtain ⟨b₁, hb₁, h⟩ := bind_eq_ok.mp h
      exact ih h (hf a List.mem_cons_self b b₁ m hb hb₁)
        fun a' ha' => hf a' (List.mem_cons_of_mem a ha')

/-! ## Results and errors -/

/-- A result with the property `P`, or an error with the property `D`. -/
def Yields (D : ε → Prop) (P : α → Prop) : Except ε α → Prop
  | .ok a => P a
  | .error e => D e

namespace Yields

variable {D : ε → Prop} {D' : ε' → Prop} {P : α → Prop} {Q : β → Prop} {x : Except ε α}

theorem mono {E : ε → Prop} {R : α → Prop} (h : Yields D P x) (hD : ∀ e, D e → E e)
    (hP : ∀ a, P a → R a) : Yields E R x := by
  cases x with
  | ok a => exact hP a h
  | error e => exact hD e h

theorem bind {f : α → Except ε β} (h : Yields D P x) (hf : ∀ a, P a → Yields D Q (f a)) :
    Yields D Q (x >>= f) := by
  cases x with
  | ok a => exact hf a h
  | error e => exact h

theorem mapError {f : ε → ε'} (h : Yields D P x) (hf : ∀ e, D e → D' (f e)) :
    Yields D' P (x.mapError f) := by
  cases x with
  | ok a => exact h
  | error e => exact hf e h

theorem mapM {f : α → Except ε β} {as : List α} (h : ∀ a ∈ as, Yields D Q (f a)) :
    Yields D (fun bs => ∀ b ∈ bs, Q b) (as.mapM f) := by
  induction as with
  | nil => exact List.forall_mem_nil Q
  | cons a as ih =>
      rw [List.mapM_cons]
      refine (h a List.mem_cons_self).bind fun b hb => ?_
      refine (ih fun a' ha' => h a' (List.mem_cons_of_mem a ha')).bind fun bs hbs => ?_
      exact List.forall_mem_cons.mpr ⟨hb, hbs⟩

/-- What each step of a fold preserves holds of its result, if it has one. -/
theorem foldlM {f : β → α → Except ε β} {as : List α} {b : β} (hb : Q b)
    (h : ∀ a ∈ as, ∀ b, Q b → Yields D Q (f b a)) : Yields D Q (as.foldlM f b) := by
  induction as generalizing b with
  | nil => exact hb
  | cons a as ih =>
      rw [List.foldlM_cons]
      refine (h a List.mem_cons_self b hb).bind fun b₁ hb₁ => ?_
      exact ih hb₁ fun a' ha' => h a' (List.mem_cons_of_mem a ha')

end Yields

/-! ## Errors alone -/

/-- Every error has the property `D`. -/
def Fails (D : ε → Prop) (x : Except ε α) : Prop :=
  ∀ e, x = .error e → D e

theorem Yields.fails {D : ε → Prop} {P : α → Prop} {x : Except ε α} (h : Yields D P x) :
    Fails D x := by
  rintro e rfl
  exact h

namespace Fails

variable {D : ε → Prop} {D' : ε' → Prop} {x : Except ε α}

theorem ok (a : α) : Fails D (.ok a : Except ε α) := nofun

theorem error {e : ε} (h : D e) : Fails D (.error e : Except ε α) :=
  fun _ he => Except.error.inj he ▸ h

/-- What follows a step is only taken with the result of that step. -/
theorem bind {f : α → Except ε β} (h : Fails D x) (hf : ∀ a, x = .ok a → Fails D (f a)) :
    Fails D (x >>= f) := by
  cases x with
  | ok a => exact hf a rfl
  | error e => exact .error (h e rfl)

theorem mapError {f : ε → ε'} (h : Fails D x) (hf : ∀ e, D e → D' (f e)) :
    Fails D' (x.mapError f) := by
  cases x with
  | ok a => exact .ok a
  | error e => exact .error (hf e (h e rfl))

theorem mapM {f : α → Except ε β} {as : List α} (h : ∀ a ∈ as, Fails D (f a)) :
    Fails D (as.mapM f) := by
  induction as with
  | nil => exact .ok []
  | cons a as ih =>
      rw [List.mapM_cons]
      refine (h a List.mem_cons_self).bind fun b _ => ?_
      exact (ih fun a' ha' => h a' (List.mem_cons_of_mem a ha')).bind fun _ _ => .ok _

/-- A fold fails where one of its steps does, with a state that the steps before
it have reached. -/
theorem foldlM {P : β → Prop} {f : β → α → Except ε β} {as : List α} {b : β} (hb : P b)
    (hok : ∀ a ∈ as, ∀ b b', P b → f b a = .ok b' → P b')
    (h : ∀ a ∈ as, ∀ b, P b → Fails D (f b a)) : Fails D (as.foldlM f b) := by
  induction as generalizing b with
  | nil => exact .ok b
  | cons a as ih =>
      rw [List.foldlM_cons]
      refine (h a List.mem_cons_self b hb).bind fun b' hb' => ?_
      exact ih (hok a List.mem_cons_self b b' hb hb')
        (fun a' ha' => hok a' (List.mem_cons_of_mem a ha'))
        fun a' ha' => h a' (List.mem_cons_of_mem a ha')

end Fails

/-! ## Two outcomes -/

/-- The outcomes are equal, unless the first one is an error in `D`. -/
def Agrees {ε α : Type _} (D : ε → Prop) (x y : Except ε α) : Prop :=
  x = y ∨ ∃ e, D e ∧ x = .error e

section Agrees

variable {D : ε → Prop} {D' : ε' → Prop} {x y : Except ε α}

theorem agrees_refl (x : Except ε α) : Agrees D x x := .inl rfl

theorem Agrees.bind {f g : α → Except ε β} (h : Agrees D x y)
    (hfg : ∀ a, Agrees D (f a) (g a)) : Agrees D (x >>= f) (y >>= g) := by
  rcases h with rfl | ⟨e, he, rfl⟩
  · cases x with
    | error e => exact agrees_refl _
    | ok a => exact hfg a
  · exact .inr ⟨e, he, rfl⟩

theorem Agrees.mapError {f : ε → ε'} (h : Agrees D x y) (hf : ∀ e, D e → D' (f e)) :
    Agrees D' (x.mapError f) (y.mapError f) := by
  rcases h with rfl | ⟨e, he, rfl⟩
  · exact agrees_refl _
  · exact .inr ⟨f e, hf e he, rfl⟩

theorem agrees_mapM {f g : α → Except ε β} (hfg : ∀ a, Agrees D (f a) (g a))
    (as : List α) : Agrees D (as.mapM f) (as.mapM g) := by
  induction as with
  | nil => exact agrees_refl _
  | cons a as ih =>
      rw [List.mapM_cons, List.mapM_cons]
      exact (hfg a).bind fun b => ih.bind fun bs => agrees_refl _

theorem agrees_foldlM {f g : β → α → Except ε β} (hfg : ∀ b a, Agrees D (f b a) (g b a))
    (as : List α) (b : β) : Agrees D (as.foldlM f b) (as.foldlM g b) := by
  induction as generalizing b with
  | nil => exact agrees_refl _
  | cons a as ih =>
      rw [List.foldlM_cons, List.foldlM_cons]
      exact (hfg b a).bind fun b' => ih b'

/-- An outcome that is no such error is the outcome of both. -/
theorem Agrees.eq {z : Except ε α} (h : Agrees D x y) (hx : x = z)
    (hz : ∀ e, z = .error e → ¬ D e) : y = z := by
  rcases h with rfl | ⟨e, he, rfl⟩
  · exact hx
  · exact absurd he (hz e hx.symm)

end Agrees

end Surd
