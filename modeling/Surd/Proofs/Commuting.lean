import Surd.Proofs.AddendOrder

/-!
# Products of two commute

Two terms can be multiplied in either order. What stands in front of their
roots commutes with everything (`Term.absorbedAlike_front`), so this is about two
roots that are merged. If what is under them are monomials, then the factors of the one
are multiplied by the factors of the other one level deeper, where the same can
be assumed. A sum under one root is put aside, and two sums are put in the order
of their texts before they are multiplied out; canonical sums with the same text
are the same.

Success in one order brings success in the other. Whatever has been multiplied
can be multiplied alone, since a product that is found has found its first
factors on the way (`normalize_of_append`).

A product that is distributed over sums meets the same pairs of terms in either
order, and the terms that come out are added up.
-/

namespace Surd

open Canonical

variable {options : Options} {lv : Level} {a b e f l r r' : Expr} {fs gs hs : List Expr}
  {s t u m : Term} {n : Nat} {p : String → Bool}

namespace Term

/-! ## Lists of factors with the same effect -/

/-- Whatever term they are multiplied with, the factors give the same product. -/
def AbsorbedAlike (lv : Level) (fs gs : List Expr) : Prop :=
  ∀ t u, fs.foldlM (absorb lv) t = .ok u ↔ gs.foldlM (absorb lv) t = .ok u

namespace AbsorbedAlike

theorem refl (fs : List Expr) : AbsorbedAlike lv fs fs := fun _ _ => .rfl

theorem symm (h : AbsorbedAlike lv fs gs) : AbsorbedAlike lv gs fs := fun t u => (h t u).symm

theorem trans (h : AbsorbedAlike lv fs gs) (h' : AbsorbedAlike lv gs hs) :
    AbsorbedAlike lv fs hs := fun t u => (h t u).trans (h' t u)

theorem append {fs' gs' : List Expr} (h : AbsorbedAlike lv fs gs)
    (h' : AbsorbedAlike lv fs' gs') : AbsorbedAlike lv (fs ++ fs') (gs ++ gs') := by
  intro t u
  simp only [List.foldlM_append, bind_eq_ok]
  exact exists_congr fun t' => and_congr (h t t') (h' t' u)

theorem normalize (h : AbsorbedAlike lv fs gs) :
    Surd.normalize lv fs = .ok u ↔ Surd.normalize lv gs = .ok u :=
  h .one u

end AbsorbedAlike

theorem foldlM_front_eq_ok : t.front.foldlM (absorb lv) s = .ok u ↔
    s.Scales ⟨t.coeff, t.vars, s.radical⟩ u := by
  have hbare : t.front.foldlM (absorb lv) s.bare = .ok ⟨t.coeff, t.vars, s.radical⟩ :=
    foldlM_absorb_front lv t s.radical
  refine (ignoresFront_absorbAll t.front s u).trans ⟨fun ⟨m, hm, h⟩ => ?_, fun h => ⟨_, hbare, h⟩⟩
  exact Except.ok.inj (hbare.symm.trans hm) ▸ h

/-- What stands in front of a root can as well be multiplied later. -/
theorem absorbedAlike_front (t : Term) (fs : List Expr) :
    AbsorbedAlike lv (t.front ++ fs) (fs ++ t.front) := by
  intro s u
  simp only [List.foldlM_append, bind_eq_ok, foldlM_front_eq_ok]
  constructor
  · rintro ⟨s', hs', hu⟩
    obtain ⟨m, hm, hscales⟩ := (ignoresFront_absorbAll fs s' u).mp hu
    have hbare : s'.bare = s.bare := hs'.bare_eq
    obtain ⟨s'', hs''⟩ := exists_scales s m (v := u) fun x => by
      rw [hscales.exponent, hs'.exponent]
      omega
    refine ⟨s'', (ignoresFront_absorbAll fs s s'').mpr ⟨m, hbare ▸ hm, hs''⟩, ?_, fun x => ?_, ?_⟩
    · rw [hscales.coeff, hs'.coeff, hs''.coeff]
      ring
    · rw [hscales.exponent, hs'.exponent, hs''.exponent]
      exact Nat.add_right_comm _ _ _
    · exact hscales.radical.trans hs''.radical.symm
  · rintro ⟨s', hs', hu⟩
    obtain ⟨m, hm, hscales⟩ := (ignoresFront_absorbAll fs s s').mp hs'
    have hexponent : ∀ x, u.vars.exponent x = s'.vars.exponent x + t.vars.exponent x :=
      hu.exponent
    have hle : ∀ x, s.vars.exponent x + t.vars.exponent x ≤ u.vars.exponent x := fun x => by
      rw [hexponent, hscales.exponent]
      omega
    obtain ⟨s'', hs''⟩ := exists_scales s ⟨t.coeff, t.vars, s.radical⟩ hle
    have hbare : s''.bare = s.bare := hs''.bare_eq
    refine ⟨s'', hs'', (ignoresFront_absorbAll fs s'' u).mpr ⟨m, hbare ▸ hm, ?_, fun x => ?_, ?_⟩⟩
    · rw [hu.coeff, hscales.coeff, hs''.coeff]
      ring
    · rw [hexponent, hscales.exponent, hs''.exponent]
      exact Nat.add_right_comm _ _ _
    · exact hu.radical.trans hscales.radical

/-- The root of a term, as a list of factors. -/
def roots (t : Term) : List Expr :=
  (t.radical.map Expr.root).toList

/-- Two terms commute if their roots do. -/
theorem normalize_toFactors_comm
    (h : ∀ m, normalize lv (s.roots ++ t.roots) = .ok m →
      normalize lv (t.roots ++ s.roots) = .ok m)
    (hok : normalize lv (s.toFactors ++ t.toFactors) = .ok u) :
    normalize lv (t.toFactors ++ s.toFactors) = .ok u := by
  -- both fronts are moved to the start, where they commute
  have hleft {s t : Term} : AbsorbedAlike lv (s.toFactors ++ t.toFactors)
      ((s.front ++ t.front) ++ (s.roots ++ t.roots)) := by
    have hmove : AbsorbedAlike lv _ _ := ((AbsorbedAlike.refl s.front).append
      (absorbedAlike_front t s.roots).symm).append (.refl t.roots)
    simpa only [toFactors_eq, roots, List.append_assoc] using hmove
  have hfronts : AbsorbedAlike lv _ _ :=
    (absorbedAlike_front s t.front).append (.refl (s.roots ++ t.roots))
  have hok := (hleft.trans hfronts).normalize.mp hok
  refine hleft.normalize.mpr ?_
  rw [normalize, List.foldlM_append, bind_eq_ok] at hok ⊢
  obtain ⟨v, hv, hu⟩ := hok
  refine ⟨v, hv, ?_⟩
  have hbare : v.bare = .one := by
    have hradical : v.radical = none := by
      obtain ⟨w, hw, hvw⟩ := bind_eq_ok.mp ((List.foldlM_append ..).symm.trans hv)
      rw [(foldlM_front_eq_ok.mp hvw).radical, (foldlM_front_eq_ok.mp hw).radical]
      rfl
    rw [bare, hradical, one]
  obtain ⟨m, hm, hscales⟩ := (ignoresFront_absorbAll _ v u).mp hu
  exact (ignoresFront_absorbAll _ v u).mpr ⟨m, by rw [hbare] at hm ⊢; exact h m hm, hscales⟩

/-! ## Merging roots -/

/-- The radicand that is passed along only shows in errors. -/
theorem extract_congr {x : Term × List Expr}
    (h : ∀ m, lv.normalize fs = .ok m → lv.normalize gs = .ok m)
    (hok : extract lv e t fs = .ok x) : extract lv f t gs = .ok x := by
  rw [extract] at hok ⊢
  obtain ⟨inner, hinner, hok⟩ := bind_eq_ok.mp hok
  exact bind_eq_ok.mpr ⟨inner, mapError_eq_ok.mpr (h inner (mapError_eq_ok.mp hinner)), hok⟩

theorem mergeFactors_congr (h : ∀ m, lv.normalize fs = .ok m → lv.normalize gs = .ok m)
    (hok : mergeFactors lv e fs hs t = .ok u) : mergeFactors lv f gs hs t = .ok u := by
  rw [mergeFactors] at hok ⊢
  obtain ⟨x, hx, hok⟩ := bind_eq_ok.mp hok
  exact bind_eq_ok.mpr ⟨x, extract_congr h hx, hok⟩

/-- Two expressions are put in the same order, whichever comes first. -/
theorem sortByText_pair (h : e.text = f.text → e = f) : sortByText [e, f] = sortByText [f, e] := by
  show insertByText e [f] = insertByText f [e]
  simp only [insertByText]
  by_cases hlt : f.text < e.text
  · have hnot : ¬ e.text < f.text := fun hgt => String.lt_irrefl _ (String.lt_trans hlt hgt)
    rw [if_pos hlt, if_neg hnot]
  · by_cases hgt : e.text < f.text
    · rw [if_neg hlt, if_pos hgt]
    · have heq : e.text = f.text :=
        String.le_antisymm (String.not_lt.mp hlt) (String.not_lt.mp hgt)
      rw [h heq]

/-- The factors of an expression that are no sums. -/
def rest (e : Expr) : List Expr :=
  e.factors.filter fun f => !f.isSum

/-- The factors that are sums. -/
def sums (e : Expr) : List Expr :=
  e.factors.filter Expr.isSum

theorem mulRoot_bare (r r' : Expr) : mulRoot lv ⟨1, .one, some r⟩ r' =
    mergeFactors lv r' (rest r ++ rest r') (sortByText (sums r ++ sums r')) .one := by
  rw [mulRoot_eq_mergeFactors, rest, rest, sums, sums, ← List.filter_append, ← List.filter_append]
  rfl

end Term

namespace Canonical

open Term (rest sums)

theorem FixedRadicand.eq_of_text_eq (hr : FixedRadicand r) (hr' : FixedRadicand r')
    (hnames : r.allVars Expr.isLetter) (hnames' : r'.allVars Expr.isLetter)
    (h : r.text = r'.text) : r = r' := by
  have hchars : r.chars = r'.chars := by rw [← Expr.toList_text, ← Expr.toList_text, h]
  rw [← hr.isRadicand.leftProducts_eq, ← hr'.isRadicand.leftProducts_eq]
  exact leftProducts_eq_of_chars_eq hnames hnames' hchars

/-- A radicand is a monomial without sums among its factors, or it is a sum and
its only factor. -/
theorem FixedRadicand.parts (h : FixedRadicand e) :
    (∃ t, FixedTerm t ∧ Integer.squareSplit? t.coeff = some ⟨1, t.coeff⟩ ∧
      (∀ q ∈ t.vars.entries, q.2 = 1) ∧ t ≠ .one ∧ e = t.toExpr ∧
      rest e = t.toFactors ∧ sums e = []) ∨ e.isSum ∧ rest e = [] ∧ sums e = [e] := by
  cases h with
  | @term t ht hsplit hvars hone =>
      refine .inl ⟨t, ht, hsplit, hvars, hone, rfl, ?_⟩
      have hsum : ∀ f ∈ t.toFactors, f.isSum = false := fun f => Term.isSum_of_mem_toFactors
      rw [rest, sums, Term.factors_toExpr (squareFree_of_split hsplit).ne_zero hone]
      exact ⟨List.filter_eq_self.mpr fun f hf => by simp [hsum f hf],
        List.filter_eq_nil_iff.mpr fun f hf => by simp [hsum f hf]⟩
  | sum _ hunlike =>
      have hsum := hunlike.isSum_sumOf
      refine .inr ⟨hsum, ?_⟩
      rw [rest, sums, Expr.factors_of_isSum hsum]
      simp [hsum]

/-- A root can be put back alone if its factors can be multiplied. -/
theorem FixedRadicand.mulRoot_one (h : FixedRadicand r)
    (hrest : (level options n).normalize (rest r) = .ok m) :
    Term.one.mulRoot (level options n) r = .ok ⟨1, .one, some r⟩ := by
  cases n with
  | zero => cases hrest
  | succ n =>
      rcases h.parts with ⟨t, ht, hsplit, hvars, hone, rfl, hfactors, -⟩ | ⟨hsum, -, -⟩
      · rw [hfactors] at hrest
        obtain rfl := ht.eq_of_normalize_toFactors hrest
        exact mulRoot_toExpr hrest hsplit hvars hone rfl
      · exact mulRoot_of_isSum rfl hsum rfl

theorem fixedTerm_root (h : FixedRadicand r) : FixedTerm ⟨1, .one, some r⟩ :=
  fun _ he => Option.some.inj he ▸ h

/-! ## One level -/

/-- What is asked for at a level multiplies in either order. -/
structure Commutes (options : Options) (lv : Level) : Prop where
  isLevel : ∃ n, lv = level options n
  normalize : ∀ {s t u : Term}, Readable s → Readable t →
    lv.normalize (s.toFactors ++ t.toFactors) = .ok u →
    lv.normalize (t.toFactors ++ s.toFactors) = .ok u

theorem names_of_toExpr (hcoeff : t.coeff ≠ 0) (h : t.toExpr.allVars p) : t.Names p := by
  by_cases hone : t = .one
  · exact hone ▸ Term.names_one
  · have hfactors : ∀ f ∈ t.toExpr.factors, f.allVars p := Expr.allVars_operands.mpr h
    rw [Term.factors_toExpr hcoeff hone] at hfactors
    refine ⟨fun q hq => ?_, fun r hr => ?_⟩
    · have hpow := hfactors _ (Term.mem_toFactors.mpr (.inr (.inl ⟨q, hq, rfl⟩)))
      rwa [Expr.allVars_varPow] at hpow
    · have hroot := hfactors (.root r) (Term.mem_toFactors.mpr (.inr (.inr ⟨r, hr, rfl⟩)))
      exact hroot

theorem exists_normalize_of_append
    (h : (level options n).normalize (fs ++ gs) = .ok t) :
    ∃ m, (level options n).normalize fs = .ok m := by
  cases n with
  | zero => cases h
  | succ n =>
      obtain ⟨m, hm, -⟩ := bind_eq_ok.mp ((List.foldlM_append ..).symm.trans h)
      exact ⟨m, hm⟩

section Step

variable (hlevel : Commutes options lv)
include hlevel

theorem normalize_rest_comm (hr : FixedRadicand r) (hr' : FixedRadicand r')
    (hnames : r.allVars Expr.isLetter) (hnames' : r'.allVars Expr.isLetter)
    (h : lv.normalize (rest r ++ rest r') = .ok m) :
    lv.normalize (rest r' ++ rest r) = .ok m := by
  rcases hr.parts with ⟨t, ht, hsplit, -, -, rfl, hrest, -⟩ | ⟨-, hrest, -⟩
  · rcases hr'.parts with ⟨t', ht', hsplit', -, -, rfl, hrest', -⟩ | ⟨-, hrest', -⟩
    · have hreadable : Readable t :=
        ⟨ht, names_of_toExpr (squareFree_of_split hsplit).ne_zero hnames⟩
      have hreadable' : Readable t' :=
        ⟨ht', names_of_toExpr (squareFree_of_split hsplit').ne_zero hnames'⟩
      rw [hrest, hrest'] at h ⊢
      exact hlevel.normalize hreadable hreadable' h
    · rw [hrest', List.append_nil] at h
      rwa [hrest']
  · rw [hrest, List.nil_append] at h
    rwa [hrest, List.append_nil]

omit hlevel in
theorem sortByText_sums_comm (hr : FixedRadicand r) (hr' : FixedRadicand r')
    (hnames : r.allVars Expr.isLetter) (hnames' : r'.allVars Expr.isLetter) :
    Term.sortByText (sums r ++ sums r') = Term.sortByText (sums r' ++ sums r) := by
  rcases hr.parts with ⟨t, -, -, -, -, -, -, hsums⟩ | ⟨-, -, hsums⟩
  · rw [hsums, List.append_nil]
    rfl
  · rcases hr'.parts with ⟨t', -, -, -, -, -, -, hsums'⟩ | ⟨-, -, hsums'⟩
    · rw [hsums', List.append_nil]
      rfl
    · rw [hsums, hsums']
      exact Term.sortByText_pair (hr.eq_of_text_eq hr' hnames hnames')

/-- Two roots are merged to the same term in either order. -/
theorem normalize_roots_comm (hr : FixedRadicand r) (hr' : FixedRadicand r')
    (hnames : r.allVars Expr.isLetter) (hnames' : r'.allVars Expr.isLetter)
    (hok : normalize lv [.root r, .root r'] = .ok u) :
    normalize lv [.root r', .root r] = .ok u := by
  obtain ⟨n, rfl⟩ := hlevel.isLevel
  rw [normalize_pair] at hok ⊢
  obtain ⟨m, hm, hu⟩ := bind_eq_ok.mp hok
  obtain rfl : m = ⟨1, .one, some r⟩ :=
    (fixedTerm_root hr).eq_of_normalize Int.one_ne_zero ((normalize_singleton _ _).trans hm)
  have hu := mapError_eq_ok.mp hu
  rw [Term.mulRoot_bare] at hu
  have hcomm := fun m => normalize_rest_comm hlevel hr hr' hnames hnames' (m := m)
  obtain ⟨m', hm'⟩ : ∃ m, (level options n).normalize (rest r') = .ok m := by
    obtain ⟨⟨t₁, left⟩, hex, -⟩ := bind_eq_ok.mp hu
    obtain ⟨inner, -, hinner, -⟩ := Term.extract_eq_ok hex
    exact exists_normalize_of_append (hcomm inner hinner)
  refine bind_eq_ok.mpr ⟨⟨1, .one, some r'⟩, mapError_eq_ok.mpr (hr'.mulRoot_one hm'), ?_⟩
  refine mapError_eq_ok.mpr ?_
  rw [Term.mulRoot_bare, sortByText_sums_comm hr' hr hnames' hnames]
  exact Term.mergeFactors_congr hcomm hu

theorem normalize_terms_comm (hs : Readable s) (ht : Readable t)
    (hok : normalize lv (s.toFactors ++ t.toFactors) = .ok u) :
    normalize lv (t.toFactors ++ s.toFactors) = .ok u := by
  refine Term.normalize_toFactors_comm (fun m hm => ?_) hok
  rw [Term.roots, Term.roots] at hm ⊢
  cases hr : s.radical with
  | none =>
      rw [hr] at hm
      simpa using hm
  | some r =>
      cases hr' : t.radical with
      | none =>
          rw [hr, hr'] at hm
          simpa using hm
      | some r' =>
          rw [hr, hr'] at hm
          exact normalize_roots_comm hlevel (hs.fixed r hr) (ht.fixed r' hr')
            (hs.names.radical r hr) (ht.names.radical r' hr') hm

end Step

theorem commutes_level (options : Options) (n : Nat) : Commutes options (level options n) := by
  induction n with
  | zero =>
      refine ⟨⟨0, rfl⟩, fun _ _ h => ?_⟩
      cases h
  | succ n ih => exact ⟨⟨n + 1, rfl⟩, fun hs ht h => normalize_terms_comm ih hs ht h⟩

/-! ## Products of two operands -/

/-- The expression is a written term with a readable key. -/
def WritesReadable (e : Expr) : Prop :=
  ∃ t, Readable t ∧ e = t.toExpr

/-- A written term shows its factors, except that `0` shows no other. -/
theorem WritesReadable.exists_absorbedAlike (lv : Level) (h : WritesReadable e) :
    ∃ t, Readable t ∧ Term.AbsorbedAlike lv [e] t.toFactors := by
  obtain ⟨t, ht, rfl⟩ := h
  by_cases hcoeff : t.coeff = 0
  · refine ⟨⟨0, .one, none⟩, ⟨fixedTerm_of_radical rfl, nofun, nofun⟩, ?_⟩
    rw [Term.toExpr_zero hcoeff]
    exact .refl _
  · refine ⟨t, ht, fun s u => ?_⟩
    rw [← Term.absorb_toExpr lv s hcoeff, List.foldlM_cons]
    exact Iff.of_eq (congrArg (· = _) (bind_pure _))

theorem normalize_pair_comm (ha : WritesReadable a) (hb : WritesReadable b)
    (h : normalize (level options n) [a, b] = .ok u) :
    normalize (level options n) [b, a] = .ok u := by
  obtain ⟨s, hs, hsa⟩ := ha.exists_absorbedAlike (level options n)
  obtain ⟨t, ht, htb⟩ := hb.exists_absorbedAlike (level options n)
  refine (htb.append hsa).normalize.mpr ?_
  exact normalize_terms_comm (commutes_level options n) hs ht ((hsa.append htb).normalize.mp h)

/-- The same pairs are met in either order. -/
theorem addendPairs_swap (l r : Expr) :
    (addendPairs r l).Perm ((addendPairs l r).map Prod.swap) := by
  have hpairs (l r : Expr) : (addendPairs l r : Multiset (Expr × Expr)) =
      (l.addends : Multiset Expr) ×ˢ (r.addends : Multiset Expr) :=
    (Multiset.coe_product l.addends r.addends).symm
  rw [← Multiset.coe_eq_coe, ← Multiset.map_coe, hpairs, hpairs, Multiset.map_swap_product]

theorem writesReadable_toExpr (ht : FixedTerm t) (h : t.toExpr.allVars Expr.isLetter) :
    WritesReadable t.toExpr := by
  by_cases hcoeff : t.coeff = 0
  · refine ⟨⟨0, .one, none⟩, ⟨fixedTerm_of_radical rfl, nofun, nofun⟩, ?_⟩
    rw [Term.toExpr_zero hcoeff]
    rfl
  · exact ⟨t, ⟨ht, names_of_toExpr hcoeff h⟩, rfl⟩

/-- An operand that does not block is put together from terms. -/
theorem Fixed.writesReadable_addends (h : Fixed options e) (hnames : e.allVars Expr.isLetter)
    (hblocks : ¬ Blocks e) : ∀ a ∈ e.addends, WritesReadable a := by
  intro a ha
  have hname : a.allVars Expr.isLetter := Expr.allVars_operands.mpr hnames a ha
  cases h.operand with
  | @term t ht =>
      rw [Term.addends_toExpr] at ha
      obtain rfl := List.mem_singleton.mp ha
      exact writesReadable_toExpr ht hname
  | sum hts hunlike =>
      rw [hunlike.addends_sumOf] at ha
      obtain ⟨t, ht, rfl⟩ := List.mem_map.mp ha
      exact writesReadable_toExpr (hts t ht) hname
  | blocks h => exact absurd h hblocks

theorem readable_product (ha : WritesReadable a) (hb : WritesReadable b)
    (h : normalize (level options n) [a, b] = .ok u) : Readable u := by
  obtain ⟨s, hs, rfl⟩ := ha
  obtain ⟨t, ht, rfl⟩ := hb
  have hfixed : ∀ f ∈ [s.toExpr, t.toExpr], RootsFixed options f := by
    simp [hs.fixed.rootsFixed, ht.fixed.rootsFixed]
  have hnames : ∀ f ∈ [s.toExpr, t.toExpr], f.allVars Expr.isLetter := by
    simp [Term.allVars_toExpr hs.names, Term.allVars_toExpr ht.names]
  exact readable_normalize hfixed hnames h

/-- A product that is distributed over sums has the same terms in either
order. -/
theorem distribute_swap (hl : ∀ a ∈ l.addends, WritesReadable a)
    (hr : ∀ a ∈ r.addends, WritesReadable a)
    (h : distribute (level options n) l r = .ok e) :
    ∃ f, distribute (level options n) r l = .ok f ∧ e.terms.Perm f.terms := by
  obtain ⟨products, hproducts, hok⟩ := distribute_eq_ok h
  have hall : ∀ p ∈ addendPairs l r, WritesReadable p.1 ∧ WritesReadable p.2 := fun p hp =>
    ⟨hl p.1 (mem_addendPairs.mp hp).1, hr p.2 (mem_addendPairs.mp hp).2⟩
  have hpairs := (List.forall₂_and_left _ _).mpr ⟨hall, hproducts⟩
  have hswapped : List.Forall₂ (fun p t => normalize (level options n) [p.1, p.2] = .ok t)
      ((addendPairs l r).map Prod.swap) products := by
    rw [List.forall₂_map_left_iff]
    exact hpairs.imp fun p t ⟨hp, hpt⟩ => normalize_pair_comm hp.1 hp.2 hpt
  have hcollected : ∀ f ∈ products.map Term.toExpr,
      AddendsFixed options f ∧ f.allVars Expr.isLetter := by
    intro f hf
    obtain ⟨t, ht, rfl⟩ := List.mem_map.mp hf
    obtain ⟨p, -, hp, hpt⟩ := exists_of_forall₂ hpairs ht
    have hreadable := readable_product hp.1 hp.2 hpt
    exact ⟨addendsFixed_of_op? Term.op?_toExpr_ne_add hreadable.fixed.rootsFixed,
      Term.allVars_toExpr hreadable.names⟩
  obtain ⟨products', hproducts', hperm⟩ := List.perm_comp_forall₂ (addendPairs_swap l r) hswapped
  obtain ⟨f, hf, hterms⟩ := collect_perm hcollected (hperm.map Term.toExpr) hok
  refine ⟨f, ?_, hterms⟩
  rw [distribute]
  refine bind_eq_ok.mpr ⟨products', mapM_eq_ok.mpr (hproducts'.imp fun p t hpt => ?_), hf⟩
  exact mapError_eq_ok.mpr hpt

theorem collect_singleton (ht : FixedTerm t) (h : collect (level options n) [t.toExpr] = .ok e) :
    e = t.toExpr := by
  obtain ⟨terms, hterms, rfl⟩ := collect_eq_ok h
  rw [List.flatMap_singleton, Term.addends_toExpr] at hterms
  cases hterms with
  | @cons _ u _ _ hu htail =>
      cases htail
      by_cases hcoeff : t.coeff = 0
      · rw [Term.toExpr_zero hcoeff] at hu ⊢
        obtain rfl := Except.ok.inj hu
        rfl
      · obtain rfl := ht.eq_of_normalize hcoeff hu
        have hseparate := separate_singleton ht hcoeff
        rw [Term.combine_of_nodup hseparate.nodup hseparate.coeff_ne_zero]
        rfl

/-- If all pairs of addends have products, then nothing goes wrong before a sum
is met, and without sums there is one pair. -/
theorem multiply_of_distribute (hl : Operand l) (hlblocks : ¬ Blocks l) (hr : Operand r)
    (hrblocks : ¬ Blocks r) (h : distribute (level options n) l r = .ok e) :
    multiply (level options n) l r = .ok e := by
  have hsum (hnormalize : normalize (level options n) [l, r] = .error .sum) :
      multiply (level options n) l r = .ok e :=
    (multiply_of_sum hnormalize).trans h
  obtain ⟨products, hproducts, hok⟩ := distribute_eq_ok h
  cases hl with
  | blocks hblocks => exact absurd hblocks hlblocks
  | sum _ hunlike =>
      refine hsum ?_
      rw [normalize_pair, Term.absorb_of_isSum _ _ hunlike.isSum_sumOf]
      rfl
  | @term s hs =>
      cases hr with
      | blocks hblocks => exact absurd hblocks hrblocks
      | @sum ts _ hunlike =>
          obtain ⟨b, hb⟩ := List.exists_mem_of_ne_nil _ (Expr.operands_ne_nil .add (sumOf ts))
          obtain ⟨u, -, hu⟩ := exists_of_forall₂ hproducts.flip
            (mem_addendPairs.mpr ⟨Term.addends_toExpr ▸ List.mem_singleton_self _, hb⟩)
          obtain ⟨m, hm, -⟩ := bind_eq_ok.mp ((normalize_pair ..).symm.trans hu)
          refine hsum ?_
          rw [normalize_pair, hm]
          exact Term.absorb_of_isSum _ _ hunlike.isSum_sumOf
      | @term t ht =>
          rw [addendPairs, Term.addends_toExpr, Term.addends_toExpr] at hproducts
          cases hproducts with
          | @cons _ u _ _ hu htail =>
              cases htail
              have hfixed : FixedTerm u := fixedTerm_normalize (reachesFixed_level options n)
                (by simp [hs.rootsFixed, ht.rootsFixed]) hu
              rw [collect_singleton hfixed hok]
              exact multiply_of_normalize hu

/-- A product that is found is found in the other order, with the same terms. -/
theorem multiply_swap (hl : Fixed options l) (hr : Fixed options r)
    (hlnames : l.allVars Expr.isLetter) (hrnames : r.allVars Expr.isLetter)
    (h : multiply (level options n) l r = .ok e) :
    ∃ f, multiply (level options n) r l = .ok f ∧ e.terms.Perm f.terms := by
  have hlblocks : ¬ Blocks l := not_blocks_of_multiply h (by simp)
  have hrblocks : ¬ Blocks r := not_blocks_of_multiply h (by simp)
  rcases multiply_eq_ok h with ⟨t, ht, rfl⟩ | hok
  · obtain ⟨s, hs, rfl⟩ := hl.operand.exists_term ht (by simp)
    obtain ⟨s', hs', rfl⟩ := hr.operand.exists_term ht (by simp)
    have hswapped := normalize_pair_comm (writesReadable_toExpr hs hlnames)
      (writesReadable_toExpr hs' hrnames) ht
    exact ⟨t.toExpr, multiply_of_normalize hswapped, .refl _⟩
  · obtain ⟨f, hf, hterms⟩ := distribute_swap (hl.writesReadable_addends hlnames hlblocks)
      (hr.writesReadable_addends hrnames hrblocks) hok
    exact ⟨f, multiply_of_distribute hr.operand hrblocks hl.operand hlblocks hf, hterms⟩

/-- Two simplified expressions have products with the same terms in either
order, or they have none in both. -/
theorem multiply_eitherOrder {e₁ e₂ : Expr} (h₁ : simplify options e₁ = .ok a)
    (h₂ : simplify options e₂ = .ok b) (ha : a.allVars Expr.isLetter)
    (hb : b.allVars Expr.isLetter) (n : Nat) :
    SameUpToOrder (multiply (level options n) a b) (multiply (level options n) b a) :=
  sameUpToOrder_of_ok
    (fun _ h => multiply_swap (fixed_simplify h₁) (fixed_simplify h₂) ha hb h)
    (fun _ h => multiply_swap (fixed_simplify h₂) (fixed_simplify h₁) hb ha h)

/-- `√(x + 1) + √y`. -/
def rootSum : Expr :=
  .bin .add (.root (.bin .add (.var "x") (.num 1))) (.root (.var "y"))

/-- `√(y + 1) + -1√(x + 1)`. -/
def rootDifference : Expr :=
  .bin .add (.root (.bin .add (.var "y") (.num 1)))
    (.product [.num (-1), .root (.bin .add (.var "x") (.num 1))])

/-- `√((x + 1)(y + 1))`, multiplied out. -/
def mergedRoot : Expr :=
  .root (.sum [.product [.var "x", .var "y"], .var "x", .var "y", .num 1])

/-- `-1√((x + 1)²)`, multiplied out. -/
def squareUnderRoot : Expr :=
  .product [.num (-1), .root (.sum [.pow (.var "x") (.num 2), .product [.num 2, .var "x"],
    .num 1])]

/-- `√(y² + y)`. -/
def mixedRoot : Expr :=
  .root (.bin .add (.pow (.var "y") (.num 2)) (.var "y"))

/-- `-1√(xy + y)`. -/
def negatedRoot : Expr :=
  .product [.num (-1), .root (.bin .add (.product [.var "x", .var "y"]) (.var "y"))]

/-- The second and the third term change places. -/
theorem multiply_eitherOrder_rootSum :
    simplify {} rootSum = .ok rootSum ∧ simplify {} rootDifference = .ok rootDifference ∧
      rootSum.allVars Expr.isLetter ∧ rootDifference.allVars Expr.isLetter ∧
      multiply (level {} 3) rootSum rootDifference =
        .ok (.sum [mergedRoot, squareUnderRoot, mixedRoot, negatedRoot]) ∧
      multiply (level {} 3) rootDifference rootSum =
        .ok (.sum [mergedRoot, mixedRoot, squareUnderRoot, negatedRoot]) ∧
      SameUpToOrder (multiply (level {} 3) rootSum rootDifference)
        (multiply (level {} 3) rootDifference rootSum) := by
  have h₁ : simplify {} rootSum = .ok rootSum := by rfl
  have h₂ : simplify {} rootDifference = .ok rootDifference := by rfl
  have ha : rootSum.allVars Expr.isLetter := by decide
  have hb : rootDifference.allVars Expr.isLetter := by decide
  exact ⟨h₁, h₂, ha, hb, by rfl, by rfl, multiply_eitherOrder h₁ h₂ ha hb 3⟩

end Canonical

end Surd
