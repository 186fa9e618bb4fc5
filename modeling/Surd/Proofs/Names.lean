import Surd.Proofs.Combine
import Surd.Proofs.Leftovers

/-!
# Simplification introduces no names

Whatever is true of every name in an expression is true of every name in what
it simplifies to. The names of an expression are those of its operands, the
names of a term are those of its variables and of its radicand, and each
operation of the simplifier only ever combines what it was given.

The induction is on the levels left. Everything below a level is asked for
through it, so one step of the simplifier is proved for any level that
introduces no names itself (`Level.KeepsNames`).
-/

namespace Surd

variable {p : String → Bool} {options : Options} {level : Level} {op : Op}
  {e e' l r : Expr} {es fs : List Expr} {t t' : Term}

namespace Expr

theorem allVars_bin : (Expr.bin op l r).allVars p ↔ l.allVars p ∧ r.allVars p := by
  rw [allVars, Bool.and_eq_true]

theorem allVars_operands : (∀ f ∈ e.operands op, f.allVars p) ↔ e.allVars p :=
  forall_operands_iff fun _ _ => allVars_bin

theorem allVars_signedAddends :
    (∀ a ∈ e.signedAddends, a.value.allVars p) ↔ e.allVars p :=
  forall_signedAddends_iff (P := fun e => e.allVars p) (fun _ _ => allVars_bin)
    fun _ _ => allVars_bin

theorem allVars_chain? (h : chain? op es = some e) (hes : ∀ f ∈ es, f.allVars p) :
    e.allVars p :=
  property_chain? (P := fun e => e.allVars p) (fun _ _ => allVars_bin) hes h

theorem allVars_sum (hes : ∀ f ∈ es, f.allVars p) : (sum es).allVars p :=
  property_sum (P := fun e => e.allVars p) (fun _ _ => allVars_bin) rfl hes

theorem allVars_product (hes : ∀ f ∈ es, f.allVars p) : (product es).allVars p :=
  property_product (P := fun e => e.allVars p) (fun _ _ => allVars_bin) rfl hes

theorem allVars_varPow {x : String} {k : Nat} : (varPow x k).allVars p = p x := by
  rw [varPow]
  split <;> simp [allVars]

end Expr

/-! ## Terms -/

/-- Every name in a term satisfies `p`. -/
structure Term.Names (p : String → Bool) (t : Term) : Prop where
  vars : ∀ q ∈ t.vars.entries, p q.1
  radical : ∀ e, t.radical = some e → e.allVars p

namespace Term

theorem names_one : Term.one.Names p := ⟨nofun, nofun⟩

theorem Names.of_alike {s : Term} (h : s.Names p) (halike : t.Alike s) : t.Names p :=
  ⟨halike.vars ▸ h.vars, halike.radical ▸ h.radical⟩

theorem Names.mulInt (h : t.Names p) (n : Int) : (t.mulInt n).Names p := ⟨h.vars, h.radical⟩

theorem Names.mulVar {x : String} {k : Nat} (h : t.Names p) (hx : p x)
    (hok : t.mulVar x k = .ok t') : t'.Names p := by
  obtain ⟨vars, hvars, rfl⟩ := mulVar_eq_ok.mp hok
  refine ⟨fun q hq => ?_, h.radical⟩
  rw [Powers.mulVar?] at hvars
  split at hvars
  · obtain rfl := Option.some.inj hvars
    exact h.vars q hq
  · split at hvars
    · obtain rfl := Option.some.inj hvars
      rcases Powers.mem_raise hq with ⟨hqx, -⟩ | hq
      · exact hqx ▸ hx
      · exact h.vars q hq
    · cases hvars

theorem Names.mulPower {b e : Expr} (h : t.Names p) (hb : b.allVars p)
    (hok : t.mulPower b e = .ok t') : t'.Names p := by
  obtain ⟨k, -, ⟨m, n, rfl, -, rfl⟩ | ⟨x, rfl, -, hx⟩⟩ := mulPower_eq_ok hok
  · exact h.mulInt n
  · exact h.mulVar hb hx

theorem names_toFactors (h : t.Names p) : ∀ f ∈ t.toFactors, f.allVars p := by
  intro f hf
  rcases mem_toFactors.mp hf with ⟨-, rfl⟩ | ⟨q, hq, rfl⟩ | ⟨e, he, rfl⟩
  · rfl
  · rw [Expr.allVars_varPow]
    exact h.vars q hq
  · exact h.radical e he

theorem allVars_toExpr (h : t.Names p) : t.toExpr.allVars p := by
  rw [toExpr]
  split
  · rfl
  · exact Expr.allVars_product (names_toFactors h)

theorem Names.mulHalves {vars : Powers} (h : t.Names p) (hvars : ∀ q ∈ vars.entries, p q.1)
    (hok : t.mulHalves vars = .ok t') : t'.Names p :=
  foldlM_induction hok h fun q hq _ _ hs hs' => hs.mulVar (hvars q hq) hs'

theorem Names.leftover (h : t.Names p) (n : Int) : (t.leftover n).Names p := by
  refine ⟨fun q hq => ?_, h.radical⟩
  obtain ⟨r, hr, rfl⟩ := List.mem_map.mp hq
  exact h.vars r (List.mem_filter.mp hr).1

theorem names_leftovers {n : Int} (h : t.Names p) : ∀ f ∈ t.leftovers n, f.allVars p := by
  rw [leftovers_eq]
  exact names_toFactors (h.leftover n)

end Term

/-! ## One step -/

/-- Nothing that is asked for at this level comes back with new names. -/
structure Level.KeepsNames (p : String → Bool) (level : Level) : Prop where
  simplify : ∀ {e e'}, level.simplify e = .ok e' → e.allVars p → e'.allVars p
  normalize : ∀ {fs t}, level.normalize fs = .ok t → (∀ f ∈ fs, f.allVars p) → t.Names p

section Step

variable (hlevel : level.KeepsNames p)
include hlevel

theorem Term.names_extract {radicand : Expr} {left : List Expr} (ht : t.Names p)
    (hfs : ∀ f ∈ fs, f.allVars p)
    (hok : Term.extract level radicand t fs = .ok (t', left)) :
    t'.Names p ∧ ∀ f ∈ left, f.allVars p := by
  obtain ⟨inner, split, hinner, -, hhalves, rfl⟩ := Term.extract_eq_ok hok
  have hin := hlevel.normalize hinner hfs
  exact ⟨(ht.mulInt _).mulHalves hin.vars hhalves, Term.names_leftovers hin⟩

omit hlevel in
theorem Term.names_merged (ht : t.Names p) (he : e.allVars p) :
    ∀ f ∈ t.merged e, f.allVars p := by
  intro f hf
  rcases Term.mem_merged.mp hf with ⟨r, hr, hf⟩ | hf
  · exact Expr.allVars_operands.mpr (ht.radical r hr) f hf
  · exact Expr.allVars_operands.mpr he f hf

theorem Term.names_mulRoot (ht : t.Names p) (he : e.allVars p)
    (hok : t.mulRoot level e = .ok t') : t'.Names p := by
  have hmerged := Term.names_merged ht he
  obtain ⟨t₁, left, hex, hcases⟩ := Term.mulRoot_eq_ok hok
  have ht₀ : Term.Names p { t with radical := none } := ⟨ht.vars, by simp⟩
  obtain ⟨ht₁, hleft⟩ := Term.names_extract hlevel ht₀
    (fun f hf => hmerged f (List.mem_filter.mp hf).1) hex
  rcases hcases with ⟨-, rfl⟩ | ⟨s, hs, -, rfl⟩ | ⟨canonical, hcan, hcases⟩
  · exact ⟨ht₁.vars, fun r hr => Expr.allVars_chain? hr hleft⟩
  · have hmem : s ∈ (t.merged e).filter Expr.isSum := hs ▸ List.mem_singleton_self s
    exact ⟨ht₁.vars, fun r hr => Option.some.inj hr ▸ hmerged s (List.mem_filter.mp hmem).1⟩
  · have hcanonical := hlevel.simplify hcan <| Expr.allVars_product fun f hf => by
      rcases List.mem_append.mp hf with hf | hf
      · exact hleft f hf
      · exact hmerged f (List.mem_filter.mp ((sortByText_perm _).mem_iff.mp hf)).1
    rcases hcases with ⟨-, rfl⟩ | ⟨t₂, left₂, hex₂, rfl⟩
    · exact ⟨ht₁.vars, fun r hr => Option.some.inj hr ▸ hcanonical⟩
    · obtain ⟨ht₂, hleft₂⟩ := Term.names_extract hlevel ht₁
        (Expr.allVars_operands.mpr hcanonical) hex₂
      exact ⟨ht₂.vars, fun r hr => Expr.allVars_chain? hr hleft₂⟩

theorem Term.names_absorb (ht : t.Names p) (he : e.allVars p)
    (hok : t.absorb level e = .ok t') : t'.Names p := by
  induction e generalizing t t' with
  | num n => exact Except.ok.inj hok ▸ ht.mulInt n
  | var x => exact ht.mulVar he (mapError_eq_ok.mp hok)
  | pow b k => exact ht.mulPower ((Bool.and_eq_true _ _).mp he).1 (mapError_eq_ok.mp hok)
  | root e => exact Term.names_mulRoot hlevel (e := e) ht he (mapError_eq_ok.mp hok)
  | bin op l r ihl ihr =>
      obtain ⟨hl, hr⟩ := (Bool.and_eq_true _ _).mp he
      cases op with
      | mul =>
          obtain ⟨t₁, ht₁, hok⟩ := bind_eq_ok.mp hok
          exact ihr (ihl ht hl ht₁) hr hok
      | add | sub | div => cases hok

theorem names_normalize (hfs : ∀ f ∈ fs, f.allVars p) (hok : normalize level fs = .ok t) :
    t.Names p := by
  refine foldlM_induction hok Term.names_one fun f hf s s' hs hs' => ?_
  exact Term.names_absorb hlevel hs (hfs f hf) hs'

theorem names_collect (hes : ∀ f ∈ es, f.allVars p) (hok : collect level es = .ok e) :
    e.allVars p := by
  obtain ⟨terms, hterms, rfl⟩ := collect_eq_ok hok
  have hnames : ∀ t ∈ terms, t.Names p := by
    intro t ht
    obtain ⟨a, ha, hat⟩ := exists_of_forall₂ hterms ht
    obtain ⟨f, hf, haf⟩ := List.mem_flatMap.mp ha
    refine names_normalize hlevel (fun g hg => ?_) hat
    obtain rfl := List.mem_singleton.mp hg
    exact Expr.allVars_operands.mpr (hes f hf) _ haf
  refine Expr.allVars_sum fun f hf => ?_
  obtain ⟨t, ht, rfl⟩ := List.mem_map.mp hf
  obtain ⟨s, hs, halike⟩ := Term.exists_alike_of_mem_combine ht
  exact Term.allVars_toExpr ((hnames s hs).of_alike halike)

theorem names_multiply (hl : l.allVars p) (hr : r.allVars p)
    (hok : multiply level l r = .ok e) : e.allVars p := by
  rcases multiply_eq_ok hok with ⟨t, ht, rfl⟩ | hok
  · exact Term.allVars_toExpr (names_normalize hlevel (by simp [hl, hr]) ht)
  · obtain ⟨products, hproducts, hok⟩ := distribute_eq_ok hok
    refine names_collect hlevel (fun f hf => ?_) hok
    obtain ⟨t, ht, rfl⟩ := List.mem_map.mp hf
    obtain ⟨⟨a, b⟩, hab, hnorm⟩ := exists_of_forall₂ hproducts ht
    obtain ⟨ha, hb⟩ := mem_addendPairs.mp hab
    refine Term.allVars_toExpr (names_normalize hlevel ?_ hnorm)
    simp [Expr.allVars_operands.mpr hl a ha, Expr.allVars_operands.mpr hr b hb]

theorem names_multiplyAll (hes : ∀ f ∈ es, f.allVars p) (hok : multiplyAll level es = .ok e) :
    e.allVars p := by
  rcases multiplyAll_eq_ok hok with ⟨t, ht, rfl⟩ | ⟨f, fs, rfl, hfold⟩
  · exact Term.allVars_toExpr (names_normalize hlevel hes ht)
  · refine foldlM_induction (P := fun s => s.allVars p) hfold (hes f List.mem_cons_self)
      fun g hg s s' hs hs' => ?_
    exact names_multiply hlevel hs (hes g (List.mem_cons_of_mem f hg)) hs'

omit hlevel in
theorem Term.names_ofSplit (s : Integer.SquareSplit) : (Term.ofSplit s).Names p where
  vars := List.forall_mem_nil _
  radical := by
    intro r hr
    obtain ⟨-, rfl⟩ := Term.eq_of_radical_ofSplit hr
    rfl

omit hlevel in
theorem Term.names_ofHalf {half : Powers} {x : String} {k : Nat} (hx : p x)
    (hhalf : Powers.one.mulVar? x (k / 2) = some half) : (Term.ofHalf half x k).Names p := by
  have hone : Term.one.mulVar x (k / 2) = .ok { Term.one with vars := half } :=
    Term.mulVar_eq_ok.mpr ⟨half, hhalf, rfl⟩
  refine ⟨(Term.names_one.mulVar hx hone).vars, fun r hr => ?_⟩
  exact Term.eq_of_radical_ofHalf hr ▸ hx

omit hlevel in
theorem names_rootOfInt {n : Int} (hok : rootOfInt n = .ok e) : e.allVars p := by
  obtain ⟨s, -, rfl⟩ := rootOfInt_eq_ok hok
  exact Term.allVars_toExpr (Term.names_ofSplit s)

theorem names_squareRoot (hr : r.allVars p) (hok : squareRoot level r = .ok e) :
    e.allVars p := by
  cases squareRoot_eq_ok hok with
  | int h => exact names_rootOfInt h
  | var => exact hr
  | intPow _ h => exact names_rootOfInt h
  | varPow h =>
      obtain ⟨half, hhalf, rfl⟩ := rootOfVarPow_eq_ok h
      exact Term.allVars_toExpr (Term.names_ofHalf ((Bool.and_eq_true _ _).mp hr).1 hhalf)
  | merged h => exact names_multiply hlevel (l := .num 1) rfl (r := .root r) hr h

theorem names_power {b k : Expr} (hb : b.allVars p) (hk : k.allVars p)
    (hok : power options level b k = .ok e) : e.allVars p := by
  cases power_eq_ok hok with
  | symbolic _ => exact (Bool.and_eq_true _ _).mpr ⟨hb, hk⟩
  | int _ => rfl
  | zero => rfl
  | one => exact hb
  | var _ => exact (Bool.and_eq_true _ _).mpr ⟨hb, hk⟩
  | expanded _ _ h =>
      refine hlevel.simplify h (Expr.allVars_product fun f hf => ?_)
      exact (List.eq_of_mem_replicate hf) ▸ hb
  | kept _ _ _ => exact (Bool.and_eq_true _ _).mpr ⟨hb, hk⟩

theorem names_simplifyAddend {a : Expr.Addend} (ha : a.value.allVars p)
    (hok : simplifyAddend level a = .ok e) : e.allVars p := by
  obtain ⟨f, hf, hok⟩ := bind_eq_ok.mp hok
  split at hok
  · exact names_multiply hlevel (l := .num (-1)) rfl (hlevel.simplify hf ha) hok
  · exact pure_eq_ok.mp hok ▸ hlevel.simplify hf ha

theorem names_simplifyStep (he : e.allVars p) (hok : simplifyStep options level e = .ok e') :
    e'.allVars p := by
  cases e with
  | num n => exact Except.ok.inj hok ▸ he
  | var x => exact Except.ok.inj hok ▸ he
  | pow b k =>
      obtain ⟨hb, hk⟩ := (Bool.and_eq_true _ _).mp he
      obtain ⟨b', hb', hok⟩ := bind_eq_ok.mp hok
      obtain ⟨k', hk', hok⟩ := bind_eq_ok.mp hok
      exact names_power hlevel (hlevel.simplify hb' hb) (hlevel.simplify hk' hk) hok
  | root r =>
      obtain ⟨r', hr', hok⟩ := bind_eq_ok.mp hok
      exact names_squareRoot hlevel (hlevel.simplify hr' he) hok
  | bin op l r =>
      cases op with
      | add | sub =>
          obtain ⟨fs, hfs, hok⟩ := bind_eq_ok.mp hok
          refine names_collect hlevel (fun f hf => ?_) hok
          obtain ⟨a, ha, haf⟩ := exists_of_forall₂ (mapM_eq_ok.mp hfs) hf
          exact names_simplifyAddend hlevel (Expr.allVars_signedAddends.mpr he a ha) haf
      | mul =>
          obtain ⟨fs, hfs, hok⟩ := bind_eq_ok.mp hok
          refine names_multiplyAll hlevel (fun f hf => ?_) hok
          obtain ⟨a, ha, haf⟩ := exists_of_forall₂ (mapM_eq_ok.mp hfs) hf
          exact hlevel.simplify haf (Expr.allVars_operands.mpr he a ha)
      | div =>
          obtain ⟨hl, hr⟩ := (Bool.and_eq_true _ _).mp he
          obtain ⟨l', hl', hok⟩ := bind_eq_ok.mp hok
          obtain ⟨r', hr', hok⟩ := bind_eq_ok.mp hok
          obtain rfl := pure_eq_ok.mp hok
          exact (Bool.and_eq_true _ _).mpr ⟨hlevel.simplify hl' hl, hlevel.simplify hr' hr⟩

end Step

/-! ## Every level -/

theorem keepsNames_level (options : Options) (n : Nat) : (Surd.level options n).KeepsNames p := by
  induction n with
  | zero =>
      refine ⟨fun h => ?_, fun h => ?_⟩
      · cases h
      · cases h
  | succ n ih =>
      exact ⟨fun h he => names_simplifyStep ih he h, fun h hfs => names_normalize ih hfs h⟩

/-- The names of a simplified expression are names of the expression. -/
theorem names_simplify (h : simplify options e = .ok e') (he : e.allVars p) : e'.allVars p :=
  (keepsNames_level options _).simplify h he

end Surd
