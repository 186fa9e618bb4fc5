import Mathlib.Order.Filter.AtTopBot.Basic
import Surd.Proofs.Sequencing

/-!
# Outcomes that settle

An outcome that depends on a number, such as the levels that are left, settles
if it is the same from some number on. `Settles D P` says so, and that the
outcome it settles on is a result with the property `P` or an error that does
not have the property `D`.

A sequence of steps settles if each step does. It need not be said where: the
next step only has to settle for the result that the one before has settled on.
-/

namespace Surd

open Filter

variable {ε ε' α β : Type _} {D : ε → Prop} {D' : ε' → Prop} {P : α → Prop} {Q : β → Prop}
  {F G : ℕ → Except ε α}

/-- The outcome is the same from some number on: a result with the property `P`
or an error without the property `D`. -/
def Settles (D : ε → Prop) (P : α → Prop) (F : ℕ → Except ε α) : Prop :=
  ∃ x, (∀ᶠ n in atTop, F n = x) ∧ Yields (fun e => ¬ D e) P x

namespace Settles

theorem const {x : Except ε α} (h : Yields (fun e => ¬ D e) P x) : Settles D P fun _ => x :=
  ⟨x, .of_forall fun _ => rfl, h⟩

theorem congr (h : Settles D P G) (hFG : ∀ᶠ n in atTop, F n = G n) : Settles D P F := by
  obtain ⟨x, hx, hyields⟩ := h
  exact ⟨x, (hFG.and hx).mono fun _ h => h.1.trans h.2, hyields⟩

theorem mono {R : α → Prop} (h : Settles D P F) (hP : ∀ a, P a → R a) : Settles D R F := by
  obtain ⟨x, hx, hyields⟩ := h
  exact ⟨x, hx, hyields.mono (fun _ he => he) hP⟩

/-- What is known of results anyway. -/
theorem and_of_ok {R : α → Prop} (h : Settles D P F) (hR : ∀ n a, F n = .ok a → R a) :
    Settles D (fun a => R a ∧ P a) F := by
  obtain ⟨x, hx, hyields⟩ := h
  refine ⟨x, hx, ?_⟩
  obtain ⟨n, hn⟩ := hx.exists
  cases x with
  | ok a => exact ⟨hR n a hn, hyields⟩
  | error e => exact hyields

theorem of_ok {R : α → Prop} (h : Settles D P F) (hR : ∀ n a, F n = .ok a → R a) :
    Settles D R F :=
  (h.and_of_ok hR).mono fun _ h => h.1

/-- It makes no difference to start one later. -/
theorem of_succ (h : Settles D P fun n => F (n + 1)) : Settles D P F := by
  obtain ⟨x, hx, hyields⟩ := h
  refine ⟨x, ?_, hyields⟩
  rw [← map_add_atTop_eq_nat 1]
  exact hx

theorem bind {G : α → ℕ → Except ε β} (h : Settles D P F) (hG : ∀ a, P a → Settles D Q (G a)) :
    Settles D Q fun n => F n >>= fun a => G a n := by
  obtain ⟨x, hx, hyields⟩ := h
  cases x with
  | ok a => exact (hG a hyields).congr (hx.mono fun n hn => by rw [hn]; rfl)
  | error e =>
      have herror : Settles D Q fun _ => .error e := .const hyields
      exact herror.congr (hx.mono fun n hn => by rw [hn]; rfl)

theorem mapError {f : ε → ε'} (h : Settles D P F) (hf : ∀ e, ¬ D e → ¬ D' (f e)) :
    Settles D' P fun n => (F n).mapError f := by
  obtain ⟨x, hx, hyields⟩ := h
  exact ⟨x.mapError f, hx.mono fun n hn => congrArg _ hn, hyields.mapError hf⟩

theorem mapM {F : ℕ → α → Except ε β} {as : List α}
    (h : ∀ a ∈ as, Settles D Q fun n => F n a) :
    Settles D (fun bs => ∀ b ∈ bs, Q b) fun n => as.mapM (F n) := by
  induction as with
  | nil => exact .const (List.forall_mem_nil Q)
  | cons a as ih =>
      simp only [List.mapM_cons]
      refine (h a List.mem_cons_self).bind fun b hb => ?_
      refine (ih fun a' ha' => h a' (List.mem_cons_of_mem a ha')).bind fun bs hbs => ?_
      exact .const (List.forall_mem_cons.mpr ⟨hb, hbs⟩)

/-- A fold settles if each step does, from every state that can be reached. -/
theorem foldlM {F : ℕ → β → α → Except ε β} {as : List α} {b : β} (hb : Q b)
    (h : ∀ a ∈ as, ∀ b, Q b → Settles D Q fun n => F n b a) :
    Settles D Q fun n => as.foldlM (F n) b := by
  induction as generalizing b with
  | nil => exact .const hb
  | cons a as ih =>
      simp only [List.foldlM_cons]
      refine (h a List.mem_cons_self b hb).bind fun b' hb' => ?_
      exact ih hb' fun a' ha' => h a' (List.mem_cons_of_mem a ha')

end Settles

end Surd
