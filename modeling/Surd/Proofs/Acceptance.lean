import Surd.Proofs.RoundTrip
import Surd.Proofs.Sequencing

/-!
# Only what the grammar derives is read

The frames of a reading are a derivation with its right edge still open. Each
frame stands for tokens that were read already: a complete phrase on the left
of its sign, the sign itself, and whatever the frames below it stand for
(`Opened`). What follows has to be a phrase of the kind the innermost frame
waits for, so completing that frame makes a phrase of it (`Held.complete`).
Every token keeps this up, and at the end no frame is open and the operand is
the whole input.

A product without a sign leaves a trace: the phrase after it has to start with
a token that no sign is needed in front of. `bare` says that the innermost
frame is such a product.
-/

namespace Surd

open Grammar

variable {limit d : Nat} {op : Op} {f : Frame} {fs gs : List Frame} {t : Token}
  {ts us : List Token} {bare : Bool} {p q : Phrase} {e l v w : Expr}

/-! ## What a frame waits for -/

namespace Op

/-- The kind of phrase on the right of an operation. -/
def operand : Op → Phrase
  | .sub => .sum
  | .add => .quotient
  | .div => .product
  | .mul => .root

/-- The kind of phrase that an operation makes, which is also the kind on its
left. -/
def phrase : Op → Phrase
  | .sub => .difference
  | .add => .sum
  | .div => .quotient
  | .mul => .product

theorem tightness_phrase (op : Op) : op.phrase.tightness = op.precedence := by
  cases op <;> rfl

theorem tightness_operand (op : Op) : op.operand.tightness = op.precedence + 1 := by
  cases op <;> rfl

theorem precedence_le (op : Op) : op.precedence ≤ 4 := by
  cases op <;> decide

end Op

namespace Frame

/-- The kind of phrase that a frame waits for. -/
def operand : Frame → Phrase
  | .operation op _ => op.operand
  | .root => .root
  | .power _ => .power
  | .group _ => .difference

/-- The kind of phrase that a frame completes to. -/
def phrase : Frame → Phrase
  | .operation op _ => op.phrase
  | .root => .root
  | .power _ => .power
  | .group _ => .primary

theorem tightness_operand_le (f : Frame) : f.operand.tightness ≤ f.precedence + 1 := by
  cases f with
  | operation op l => exact Nat.le_of_eq op.tightness_operand
  | root => exact Nat.le_succ 5
  | power b => exact Nat.le_succ 6
  | group opened => exact Nat.le_refl 1

theorem tightness_phrase (h : f.group? = none) : f.phrase.tightness = f.precedence := by
  cases f with
  | operation op l => exact op.tightness_phrase
  | root => rfl
  | power b => rfl
  | group opened => cases h

end Frame

namespace Grammar

/-- The innermost frame waits for a phrase of this kind, or a looser one. -/
def Phrase.Fits (p : Phrase) (fs : List Frame) : Prop :=
  ∀ f ∈ fs.head?, f.operand.tightness ≤ p.tightness

theorem Phrase.fits_of_precedence_lt (h : ∀ f ∈ fs.head?, f.precedence < p.tightness) :
    p.Fits fs :=
  fun f hf => Nat.le_trans f.tightness_operand_le (h f hf)

/-- A root fits wherever no exponent is waited for. -/
theorem Phrase.fits_root (h : ∀ f ∈ fs.head?, ∀ b, f ≠ .power b) : Phrase.root.Fits fs := by
  intro f hf
  cases f with
  | operation op l =>
      rw [Frame.operand, op.tightness_operand]
      exact Nat.succ_le_succ op.precedence_le
  | root | group => simp [Frame.operand, Phrase.tightness]
  | power b => exact absurd rfl (h _ hf b)

theorem Phrase.fits_of_tightness (h : 6 ≤ p.tightness) : p.Fits fs := by
  intro f _
  refine Nat.le_trans ?_ h
  cases f with
  | operation op l =>
      have := op.precedence_le
      rw [Frame.operand, op.tightness_operand]
      omega
  | root | power | group => simp [Frame.operand, Phrase.tightness]

theorem derives_operation {n m : Nat} {r : Expr} (hl : Derives op.phrase ts l n)
    (ht : t.kind = op.sign) (hr : Derives op.operand us r m) :
    Derives op.phrase (ts ++ t :: us) (.bin op l r) (max n m) := by
  cases op with
  | sub => exact .minus hl ht hr
  | add => exact .plus hl ht hr
  | div => exact .divide hl ht hr
  | mul => exact .times hl ht hr

end Grammar

namespace Reading

/-! ## What has been read -/

/-- The tokens can follow the innermost frame, as far as their first one is
concerned. -/
def Begins (bare : Bool) (ts : List Token) : Prop :=
  bare → ∃ t us, ts = t :: us ∧ startsFactor t.kind

theorem Begins.append (h : Begins bare ts) (us : List Token) : Begins bare (ts ++ us) := by
  intro hbare
  obtain ⟨t, vs, rfl, ht⟩ := h hbare
  exact ⟨t, vs ++ us, rfl, ht⟩

theorem begins_of_startsFactor (h : startsFactor t.kind) : Begins bare (t :: us) :=
  fun _ => ⟨t, us, rfl, h⟩

/-- The tokens have opened these frames, which are derivable so far and no more
than `limit` levels deep. -/
inductive Opened (limit : Nat) : Bool → List Frame → List Token → Prop where
  | nil : 0 < limit → Opened limit false [] []
  | sign {bare : Bool} {fs : List Frame} {ts us : List Token} {t : Token} {op : Op} {l : Expr}
      {d : Nat} : Opened limit bare fs ts → Begins bare us →
      op.phrase.Fits fs → Derives op.phrase us l d → depth fs + d ≤ limit → t.kind = op.sign →
      Opened limit false (.operation op l :: fs) (ts ++ us ++ [t])
  | factor {bare : Bool} {fs : List Frame} {ts us : List Token} {l : Expr} {d : Nat} :
      Opened limit bare fs ts → Begins bare us → Phrase.product.Fits fs →
      Derives .product us l d → depth fs + d ≤ limit →
      Opened limit true (.operation .mul l :: fs) (ts ++ us)
  | root {bare : Bool} {fs : List Frame} {ts : List Token} {t : Token} :
      Opened limit bare fs ts → Phrase.root.Fits fs → t.kind = .root → depth fs < limit →
      Opened limit false (.root :: fs) (ts ++ [t])
  | power {bare : Bool} {fs : List Frame} {ts us : List Token} {t : Token} {b : Expr} {d : Nat} :
      Opened limit bare fs ts → Begins bare us → Derives .primary us b d →
      depth fs + d ≤ limit → t.kind = .caret → depth fs < limit →
      Opened limit false (.power b :: fs) (ts ++ us ++ [t])
  | group {bare : Bool} {fs : List Frame} {ts : List Token} {t : Token} :
      Opened limit bare fs ts → t.kind = .openParen → depth fs < limit →
      Opened limit false (.group t.span :: fs) (ts ++ [t])

theorem Opened.depth_le (h : Opened limit bare fs ts) : depth fs ≤ limit := by
  cases h with
  | nil h => exact h
  | sign _ _ _ _ hd _ => rw [depth_operation]; omega
  | factor _ _ _ _ hd => rw [depth_operation]; omega
  | root _ _ _ hd => rw [depth_cons_of_isLevel rfl]; exact hd
  | power _ _ _ _ _ hd => rw [depth_cons_of_isLevel rfl]; exact hd
  | group _ _ hd => rw [depth_cons_of_isLevel rfl]; exact hd

/-- The tokens have opened these frames, and the last of them are a phrase of
kind `p` that stands for `v`. -/
def Held (limit : Nat) (p : Phrase) (fs : List Frame) (ts : List Token) (v : Expr) : Prop :=
  ∃ bare front last d, ts = front ++ last ∧ Opened limit bare fs front ∧ Begins bare last ∧
    p.Fits fs ∧ Derives p last v d ∧ depth fs + d ≤ limit

theorem Held.loosen (h : Held limit q fs ts v) (hpq : p.tightness ≤ q.tightness)
    (hfits : p.Fits fs) : Held limit p fs ts v := by
  obtain ⟨bare, front, last, d, hts, hopened, hbegins, -, hderives, hd⟩ := h
  exact ⟨bare, front, last, d, hts, hopened, hbegins, hfits, hderives.loosen hpq, hd⟩

/-! ## Completing frames -/

/-- The phrase that the innermost frame waited for completes it. -/
theorem Held.complete (h : Held limit q (f :: fs) ts v) (hf : f.group? = none) :
    Held limit f.phrase fs ts (f.complete v) := by
  obtain ⟨bare, front, last, d, rfl, hopened, hbegins, hfits, hderives, hd⟩ := h
  have hoperand : Derives f.operand last v d := hderives.loosen (hfits f rfl)
  cases hopened with
  | @sign bare' fs ts us t op l n hopened hleftmost hfits hleft hn ht =>
      rw [depth_operation] at hd
      refine ⟨bare', ts, us ++ t :: last, max n d, by simp, hopened, hleftmost.append _, hfits,
        ?_, ?_⟩
      · exact derives_operation hleft ht hoperand
      · omega
  | @factor bare' fs ts us l n hopened hleftmost hfits hleft hn =>
      rw [depth_operation] at hd
      obtain ⟨u, rest, rfl, hu⟩ := hbegins rfl
      refine ⟨bare', ts, us ++ u :: rest, max n d, by simp, hopened, hleftmost.append _, hfits,
        ?_, ?_⟩
      · exact .juxtapose hleft hu hoperand
      · omega
  | @root bare' fs ts t hopened hfits ht hn =>
      rw [depth_cons_of_isLevel rfl] at hd
      refine ⟨bare', ts, t :: last, d + 1, by simp, hopened, ?_, hfits, ?_, by omega⟩
      · exact begins_of_startsFactor (by rw [ht]; rfl)
      · exact .sign ht hoperand
  | @power bare' fs ts us t b n hopened hleftmost hleft hn ht hlt =>
      rw [depth_cons_of_isLevel rfl] at hd
      refine ⟨bare', ts, us ++ t :: last, max n (d + 1), by simp, hopened, hleftmost.append _,
        Phrase.fits_of_tightness (Nat.le_refl 6), ?_, by omega⟩
      exact .caret hleft ht hoperand
  | group _ _ _ => cases hf

/-- Settling leaves a phrase of the kind it was asked for, behind frames that
bind more loosely. -/
theorem Held.settle (h : Held limit q fs ts v) (hpos : 1 ≤ p.tightness)
    (hpq : p.tightness ≤ q.tightness) (hsettle : settle p.tightness fs v = (gs, w)) :
    Held limit p gs ts w := by
  induction fs generalizing q v with
  | nil =>
      obtain ⟨rfl, rfl⟩ := Prod.mk.inj hsettle
      exact h.loosen hpq nofun
  | cons f fs ih =>
      rw [Reading.settle] at hsettle
      split at hsettle
      · next hle =>
          have hgroup : f.group? = none := by
            cases f with
            | group opened => exact absurd (Nat.le_trans hpos hle) (Nat.not_succ_le_zero 0)
            | operation | root | power => rfl
          exact ih (h.complete hgroup) (Frame.tightness_phrase hgroup ▸ hle) hsettle
      · next hlt =>
          obtain ⟨rfl, rfl⟩ := Prod.mk.inj hsettle
          refine h.loosen hpq (Phrase.fits_of_precedence_lt fun g hg => ?_)
          exact Option.some.inj hg ▸ Nat.lt_of_not_le hlt

theorem Held.closeGroup (h : Held limit q fs ts v) (hclose : closeGroup? fs v = some (gs, w))
    (ht : t.kind = .closeParen) : Held limit .primary gs (ts ++ [t]) w := by
  induction fs generalizing q v with
  | nil => cases hclose
  | cons f fs ih =>
      cases f with
      | operation op l => exact ih (h.complete rfl) hclose
      | root => exact ih (h.complete rfl) hclose
      | power b => exact ih (h.complete rfl) hclose
      | group opened =>
          obtain ⟨rfl, rfl⟩ := Prod.mk.inj (Option.some.inj hclose)
          obtain ⟨bare, front, last, d, rfl, hopened, -, -, hderives, hd⟩ := h
          cases hopened with
          | @group bare fs ts u hopened hu hn =>
              rw [depth_cons_of_isLevel rfl] at hd
              refine ⟨bare, ts, u :: last ++ [t], d + 1, by simp, hopened, ?_,
                Phrase.fits_of_tightness (by decide), ?_, by omega⟩
              · exact begins_of_startsFactor (by rw [hu]; rfl)
              · exact .group hu ht (hderives.loosen q.tightness_pos)

theorem Held.completeAll (h : Held limit q fs ts v) (hgroup : openGroup? fs = none) :
    ∃ d, d ≤ limit ∧ Accepts ts (completeAll fs v) d := by
  induction fs generalizing q v with
  | nil =>
      obtain ⟨bare, front, last, d, rfl, hopened, -, -, hderives, hd⟩ := h
      cases hopened with
      | nil _ => exact ⟨d + 1, by rwa [Nat.add_comm] at hd, d, hderives.loosen q.tightness_pos, rfl⟩
  | cons f fs ih =>
      obtain ⟨hf, hfs⟩ : f.group? = none ∧ openGroup? fs = none := by
        rw [openGroup?, List.findSome?_cons] at hgroup
        cases hf : f.group? with
        | none => exact ⟨rfl, by rwa [hf] at hgroup⟩
        | some opened => rw [hf] at hgroup; cases hgroup
      exact ih (h.complete hf) hfs

/-! ## One token -/

/-- A reading is derivable so far from the tokens that were read. -/
def Derivable (limit : Nat) : Reading → List Token → Prop
  | .awaiting fs, ts => Opened limit false fs ts
  | .holding fs v, ts => Held limit .primary fs ts v

theorem Opened.held (h : Opened limit bare fs ts) (hbegins : Begins bare [t])
    (hderives : Derives .primary [t] v 0) : Held limit .primary fs (ts ++ [t]) v :=
  ⟨bare, ts, [t], 0, rfl, h, hbegins, Phrase.fits_of_tightness (by decide), hderives, h.depth_le⟩

theorem nest_eq_ok_iff {reading : Reading} :
    nest limit f fs = .ok reading ↔ depth fs < limit ∧ reading = .awaiting (f :: fs) := by
  rw [nest]
  split
  · next h => simp [Nat.not_lt.mpr h]
  · next h => simp [Nat.lt_of_not_le h, eq_comm]

/-- The first token of an operand. -/
theorem Opened.operand {reading : Reading} (h : Opened limit bare fs ts)
    (hbare : bare → startsFactor t.kind) (hok : Reading.operand limit fs t = .ok reading) :
    Derivable limit reading (ts ++ [t]) := by
  have hbegins : Begins bare [t] := fun hb => ⟨t, [], rfl, hbare hb⟩
  cases hk : t.kind with
  | number =>
      simp only [Reading.operand, hk] at hok
      split at hok
      · next n hn =>
          obtain rfl := Except.ok.inj hok
          exact h.held hbegins (.number hk hn)
      · cases hok
  | identifier =>
      simp only [Reading.operand, hk] at hok
      obtain rfl := Except.ok.inj hok
      exact h.held hbegins (.name hk)
  | openParen =>
      rw [operand_openParen hk, nest_eq_ok_iff] at hok
      obtain ⟨hlt, rfl⟩ := hok
      exact .group h hk hlt
  | root =>
      simp only [Reading.operand, hk] at hok
      split at hok
      · cases hok
      · next hpower =>
          obtain ⟨hlt, rfl⟩ := nest_eq_ok_iff.mp hok
          refine .root h (Phrase.fits_root fun f hf b hb => ?_) hk hlt
          obtain ⟨fs', rfl⟩ := List.head?_eq_some_iff.mp hf
          exact hpower b fs' (hb ▸ rfl)
  | closeParen | plus | minus | times | divide | caret =>
      simp only [Reading.operand, hk] at hok
      cases hok

/-- Settling in front of a sign leaves the phrase on its left. -/
theorem Held.settle_operation (h : Held limit .primary fs ts v)
    (hsettle : Reading.settle op.precedence fs v = (gs, w)) : Held limit op.phrase gs ts w := by
  rw [← op.tightness_phrase] at hsettle
  refine h.settle (Phrase.tightness_pos _) ?_ hsettle
  rw [op.tightness_phrase]
  exact Nat.le_trans op.precedence_le (show 4 ≤ 7 by decide)

theorem Held.operation (h : Held limit .primary fs ts v) (ht : t.kind = op.sign) :
    Derivable limit (Reading.operation op fs v) (ts ++ [t]) := by
  rw [Reading.operation]
  cases hsettle : Reading.settle op.precedence fs v with
  | mk gs w =>
      obtain ⟨bare, front, last, d, rfl, hopened, hbegins, hfits, hderives, hd⟩ :=
        h.settle_operation hsettle
      exact .sign hopened hbegins hfits hderives hd ht

theorem Held.multiply (h : Held limit .primary fs ts v) :
    Opened limit true (Reading.multiply fs v) ts := by
  rw [Reading.multiply]
  cases hsettle : Reading.settle Op.mul.precedence fs v with
  | mk gs w =>
      obtain ⟨bare, front, last, d, rfl, hopened, hbegins, hfits, hderives, hd⟩ :=
        h.settle_operation hsettle
      exact .factor hopened hbegins hfits hderives hd

/-- A token after an operand. -/
theorem Held.continuation {reading : Reading} (h : Held limit .primary fs ts v)
    (hok : Reading.continuation limit fs v t = .ok reading) :
    Derivable limit reading (ts ++ [t]) := by
  have hsign : ∀ op : Op, t.kind = op.sign → Derivable limit reading (ts ++ [t]) := by
    intro op ht
    rw [continuation_sign ht] at hok
    exact Except.ok.inj hok ▸ h.operation ht
  have hfactor : startsFactor t.kind → Derivable limit reading (ts ++ [t]) := by
    intro ht
    rw [operand_of_startsFactor ht] at hok
    exact h.multiply.operand (fun _ => ht) hok
  cases hk : t.kind with
  | minus => exact hsign .sub hk
  | plus => exact hsign .add hk
  | divide => exact hsign .div hk
  | times => exact hsign .mul hk
  | identifier | openParen | root => exact hfactor (by rw [hk]; rfl)
  | caret =>
      rw [continuation_caret hk, nest_eq_ok_iff] at hok
      obtain ⟨hlt, rfl⟩ := hok
      obtain ⟨bare, front, last, d, rfl, hopened, hbegins, -, hderives, hd⟩ := h
      exact .power hopened hbegins hderives hd hk hlt
  | closeParen =>
      simp only [Reading.continuation, hk] at hok
      split at hok
      · next gs w hclose =>
          obtain rfl := Except.ok.inj hok
          exact h.closeGroup hclose hk
      · cases hok
  | number =>
      simp only [Reading.continuation, hk] at hok
      cases hok

/-! ## Every token -/

theorem derivable_step {reading reading' : Reading} (h : Derivable limit reading ts)
    (hok : step limit reading t = .ok reading') : Derivable limit reading' (ts ++ [t]) := by
  cases reading with
  | awaiting fs => exact Opened.operand h nofun hok
  | holding fs v => exact Held.continuation h hok

theorem derivable_run {reading reading' : Reading} (h : Derivable limit reading ts)
    (hok : us.foldlM (step limit) reading = .ok reading') :
    Derivable limit reading' (ts ++ us) := by
  induction us generalizing reading ts with
  | nil =>
      obtain rfl := pure_eq_ok.mp hok
      rwa [List.append_nil]
  | cons u us ih =>
      obtain ⟨next, hnext, hok⟩ := bind_eq_ok.mp hok
      have hrest := ih (derivable_step h hnext) hok
      rwa [List.append_assoc] at hrest

end Reading

/-! ## Whole inputs -/

open Reading

theorem parseTokens_eq_ok (h : parseTokens limit ts = .ok (some e)) :
    0 < limit ∧ ∃ reading, ts.foldlM (step limit) (.awaiting []) = .ok reading ∧
      finish reading = .ok e := by
  rw [parseTokens] at h
  split at h
  · cases h
  · split at h
    · cases h
    · next hlimit =>
        obtain ⟨reading, hrun, h⟩ := bind_eq_ok.mp h
        obtain ⟨e', hfinish, h⟩ := bind_eq_ok.mp h
        obtain rfl := Option.some.inj (pure_eq_ok.mp h)
        exact ⟨Nat.pos_of_ne_zero hlimit, reading, hrun, hfinish⟩

/-- What is read is an input that the grammar derives, no deeper than the
limit. -/
theorem accepts_of_parseTokens (h : parseTokens limit ts = .ok (some e)) :
    ∃ d, d ≤ limit ∧ Accepts ts e d := by
  obtain ⟨hlimit, reading, hrun, hfinish⟩ := parseTokens_eq_ok h
  have hstart : Derivable limit (.awaiting []) [] := Opened.nil hlimit
  have hread : Derivable limit reading ts := derivable_run hstart hrun
  cases reading with
  | awaiting fs => cases hfinish
  | holding fs v =>
      rw [finish] at hfinish
      split at hfinish
      · cases hfinish
      · next hgroup =>
          obtain rfl := Except.ok.inj hfinish
          exact Held.completeAll hread hgroup

theorem parseTokens_eq_none_iff : parseTokens limit ts = .ok none ↔ ts = [] := by
  constructor
  · intro h
    rw [parseTokens] at h
    split at h
    · next hempty => exact List.isEmpty_iff.mp hempty
    · split at h
      · cases h
      · obtain ⟨reading, -, h⟩ := bind_eq_ok.mp h
        obtain ⟨e', -, h⟩ := bind_eq_ok.mp h
        cases pure_eq_ok.mp h
  · rintro rfl
    rfl

/-- An input stands for one expression, and is nested in one way. -/
theorem Grammar.Accepts.unique {d' : Nat} {e' : Expr} (h : Accepts ts e d)
    (h' : Accepts ts e' d') : e = e' ∧ d = d' := by
  -- neither can be too deep for the other's depth as the limit
  have hle : ∀ {n m : Nat} {a b : Expr}, Accepts ts a n → Accepts ts b m → n ≤ m := by
    intro n m a b ha hb
    by_contra hlt
    have hread := parseTokens_of_accepts hb (Nat.le_refl m)
    rw [parseTokens_of_limit_lt ha (Nat.lt_of_not_le hlt)] at hread
    cases hread
  obtain rfl : d = d' := Nat.le_antisymm (hle h h') (hle h' h)
  have hread := parseTokens_of_accepts h (Nat.le_refl d)
  rw [parseTokens_of_accepts h' (Nat.le_refl d)] at hread
  exact ⟨(Option.some.inj (Except.ok.inj hread)).symm, rfl⟩

/-- Reading accepts exactly what the grammar derives, as deep as the limit
allows, and gives the one expression it stands for. A derivable input that is
deeper fails on its depth, and nothing is read exactly from no tokens. -/
theorem parseTokens_iff_accepts (limit : Nat) (ts : List Token) :
    (∀ e, parseTokens limit ts = .ok (some e) ↔ ∃ d, d ≤ limit ∧ Accepts ts e d) ∧
      (∀ e d e' d', Accepts ts e d → Accepts ts e' d' → e = e' ∧ d = d') ∧
      (∀ e d, Accepts ts e d → limit < d →
        parseTokens limit ts = .error (.depthExceeded limit)) ∧
      (parseTokens limit ts = .ok none ↔ ts = []) := by
  refine ⟨fun e => ⟨accepts_of_parseTokens, ?_⟩, ?_, ?_, parseTokens_eq_none_iff⟩
  · rintro ⟨d, hd, haccepts⟩
    exact parseTokens_of_accepts haccepts hd
  · intro e d e' d' h h'
    exact h.unique h'
  · intro e d h hlt
    exact parseTokens_of_limit_lt h hlt

end Surd
