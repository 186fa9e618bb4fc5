import Surd.Grammar
import Surd.Reading

/-!
# What the grammar derives is read

A phrase is read wherever the frames around it leave room for it. The frame
right in front of it has to bind more loosely than the phrase, and there have
to be as many levels left as the phrase is deep. What is read of it are frames
of its own, which bind at least as tightly as the phrase does and complete to
the expression it stands for (`Reads`). The frames around it are not touched,
so the induction on the derivation never looks further than one frame back.
-/

namespace Surd

variable {limit d : Nat} {op : Op} {fs hs : List Frame} {t : Token} {ts us : List Token}
  {e l r v : Expr}

/-- The kind of the token that an operation is written with. -/
def Op.sign : Op → Token.Kind
  | .sub => .minus
  | .add => .plus
  | .div => .divide
  | .mul => .times

/-! ## Completing frames -/

theorem Frame.precedence_le (f : Frame) : f.precedence ≤ 6 := by
  cases f with
  | operation op l =>
      show op.precedence ≤ 6
      cases op <;> decide
  | root | power | group => simp [Frame.precedence]

namespace Reading

theorem settle_append {k : Nat} (hhs : ∀ h ∈ hs, k ≤ h.precedence)
    (hfs : ∀ f ∈ fs.head?, f.precedence < k) :
    settle k (hs ++ fs) v = (fs, completeAll hs v) := by
  induction hs generalizing v with
  | nil =>
      cases fs with
      | nil => rfl
      | cons f fs => exact if_neg (Nat.not_le.mpr (hfs f rfl))
  | cons h hs ih =>
      rw [List.cons_append, settle, if_pos (hhs h List.mem_cons_self)]
      exact ih fun h' hh' => hhs h' (List.mem_cons_of_mem h hh')

theorem closeGroup?_append {opened : Span} (hhs : ∀ h ∈ hs, 1 ≤ h.precedence) :
    closeGroup? (hs ++ .group opened :: fs) v = some (fs, completeAll hs v) := by
  induction hs generalizing v with
  | nil => rfl
  | cons h hs ih =>
      have hnext := ih (v := h.complete v) fun h' hh' => hhs h' (List.mem_cons_of_mem h hh')
      have hh := hhs h List.mem_cons_self
      cases h with
      | group _ => exact absurd hh (Nat.not_succ_le_zero 0)
      | operation | root | power => exact hnext

theorem openGroup?_eq_none (hhs : ∀ h ∈ hs, 1 ≤ h.precedence) : openGroup? hs = none := by
  refine List.findSome?_eq_none_iff.mpr fun h hh => ?_
  have hprec := hhs h hh
  cases h with
  | group _ => exact absurd hprec (Nat.not_succ_le_zero 0)
  | operation | root | power => rfl

theorem finish_of_precedence (hhs : ∀ h ∈ hs, 1 ≤ h.precedence) :
    finish (.holding hs v) = .ok (completeAll hs v) := by
  simp only [finish, openGroup?_eq_none hhs]

theorem completeAll_append {gs : List Frame} :
    completeAll (hs ++ gs) v = completeAll gs (completeAll hs v) :=
  List.foldl_append

theorem nest_eq_ok {f : Frame} (h : depth fs < limit) :
    nest limit f fs = .ok (.awaiting (f :: fs)) :=
  if_neg (Nat.not_le.mpr h)

theorem depth_cons_of_isLevel {f : Frame} (h : f.isLevel) : depth (f :: fs) = depth fs + 1 := by
  rw [depth, List.countP_cons_of_pos h, depth, Nat.add_assoc]

theorem depth_operation : depth (.operation op l :: fs) = depth fs := by
  rw [depth, List.countP_cons_of_neg (by simp [Frame.isLevel]), depth]

theorem nest_eq_error {f : Frame} (h : limit ≤ depth fs) :
    nest limit f fs = .error (.depthExceeded limit) :=
  if_pos h

theorem operand_openParen (ht : t.kind = .openParen) :
    operand limit fs t = nest limit (.group t.span) fs := by
  simp only [operand]
  rw [ht]

theorem operand_root (ht : t.kind = .root) (hfs : ∀ f ∈ fs.head?, f.precedence < 6) :
    operand limit fs t = nest limit .root fs := by
  simp only [operand]
  rw [ht]
  cases fs with
  | nil => rfl
  | cons f fs =>
      cases f with
      | power base => exact absurd (hfs _ rfl) (Nat.lt_irrefl 6)
      | operation | root | group => rfl

theorem continuation_sign (ht : t.kind = op.sign) (fs : List Frame) (v : Expr) :
    continuation limit fs v t = .ok (operation op fs v) := by
  rw [continuation]
  rw [ht]
  cases op <;> rfl

theorem continuation_caret (ht : t.kind = .caret) (fs : List Frame) (v : Expr) :
    continuation limit fs v t = nest limit (.power v) fs := by
  rw [continuation]
  rw [ht]

end Reading

namespace Grammar

open Reading

variable {p q : Phrase}

/-! ## Phrases -/

/-- How tightly a phrase holds together: the least precedence of the frames
that are still open at its end. -/
def Phrase.tightness : Phrase → Nat
  | .difference => 1
  | .sum => 2
  | .quotient => 3
  | .product => 4
  | .root => 5
  | .power => 6
  | .primary => 7

/-- The precedence that the frame in front of a phrase stays below. Roots are
only kept out of bare exponents. -/
def Phrase.bound : Phrase → Nat
  | .root => 6
  | .power => 7
  | p => p.tightness

/-- The phrase can stand behind some frames. -/
def Phrase.Follows (p : Phrase) (fs : List Frame) : Prop :=
  ∀ f ∈ fs.head?, f.precedence < p.bound

theorem Phrase.Follows.mono (h : q.Follows fs) (hle : q.bound ≤ p.bound) : p.Follows fs :=
  fun f hf => Nat.lt_of_lt_of_le (h f hf) hle

theorem Phrase.follows_nil (p : Phrase) : p.Follows [] := by
  intro f hf
  cases hf

theorem Phrase.follows_cons {f : Frame} (h : f.precedence < p.bound) : p.Follows (f :: fs) := by
  intro g hg
  exact Option.some.inj hg ▸ h

theorem Phrase.follows_of_bound (h : p.bound = 7) : p.Follows fs :=
  fun f _ => h ▸ Nat.lt_succ_of_le f.precedence_le

/-- Behind the frames `fs`, the tokens are read as a phrase of kind `p` that
stands for `e`. -/
def Reads (limit : Nat) (p : Phrase) (fs : List Frame) (ts : List Token) (e : Expr) : Prop :=
  ∃ hs v, ts.foldlM (step limit) (.awaiting fs) = .ok (.holding (hs ++ fs) v) ∧
    (∀ h ∈ hs, p.tightness ≤ h.precedence) ∧ completeAll hs v = e

theorem Phrase.tightness_pos (p : Phrase) : 1 ≤ p.tightness := by
  cases p <;> decide

theorem Reads.loosen (h : Reads limit q fs ts e) (hpq : p.tightness ≤ q.tightness) :
    Reads limit p fs ts e := by
  obtain ⟨hs, v, hrun, hhs, hv⟩ := h
  exact ⟨hs, v, hrun, fun h hh => Nat.le_trans hpq (hhs h hh), hv⟩

/-- Nothing can be left open inside a primary. -/
theorem Reads.primary (h : Reads limit .primary fs ts e) :
    ts.foldlM (step limit) (.awaiting fs) = .ok (.holding fs e) := by
  obtain ⟨hs, v, hrun, hhs, rfl⟩ := h
  cases hs with
  | nil => exact hrun
  | cons f hs =>
      have hf : 7 ≤ f.precedence := hhs f List.mem_cons_self
      exact absurd (Nat.le_trans hf f.precedence_le) (by decide)

theorem Reads.complete {f : Frame} (h : Reads limit q (f :: fs) us r)
    (hpq : p.tightness ≤ q.tightness) (hf : p.tightness ≤ f.precedence)
    (hrun : ts.foldlM (step limit) (.awaiting fs) = us.foldlM (step limit) (.awaiting (f :: fs))) :
    Reads limit p fs ts (f.complete r) := by
  obtain ⟨hs, v, hus, hhs, rfl⟩ := h
  refine ⟨hs ++ [f], v, ?_, fun g hg => ?_, completeAll_append⟩
  · rw [hrun, hus, List.append_assoc]
    rfl
  · rcases List.mem_append.mp hg with hg | hg
    · exact Nat.le_trans hpq (hhs g hg)
    · exact List.mem_singleton.mp hg ▸ hf

/-- Between two phrases around a binary operation, whose sign may be left out,
the one on the left is completed. -/
theorem Reads.run_binary {us' : List Token} (hl : Reads limit p fs ts l) (hfs : p.Follows fs)
    (hp : p.tightness = op.precedence) (hbound : p.bound = p.tightness)
    (hjoin : ∀ gs v, settle op.precedence gs v = (fs, l) →
      us'.foldlM (step limit) (.holding gs v) =
        us.foldlM (step limit) (.awaiting (.operation op l :: fs))) :
    (ts ++ us').foldlM (step limit) (.awaiting fs) =
      us.foldlM (step limit) (.awaiting (.operation op l :: fs)) := by
  obtain ⟨hs, v, hrun, hhs, rfl⟩ := hl
  rw [Phrase.Follows, hbound, hp] at hfs
  have hsettle := settle_append (v := v) (fun h hh => hp ▸ hhs h hh) hfs
  rw [List.foldlM_append, hrun]
  exact hjoin _ v hsettle

theorem Reads.run_sign (hl : Reads limit p fs ts l) (hfs : p.Follows fs)
    (hp : p.tightness = op.precedence) (hbound : p.bound = p.tightness)
    (ht : t.kind = op.sign) :
    (ts ++ t :: us).foldlM (step limit) (.awaiting fs) =
      us.foldlM (step limit) (.awaiting (.operation op l :: fs)) := by
  refine hl.run_binary hfs hp hbound fun gs v hsettle => ?_
  show (continuation limit gs v t >>= _) = _
  rw [continuation_sign ht, operation, hsettle]
  rfl

theorem operand_of_startsFactor (ht : startsFactor t.kind) (gs : List Frame) (v : Expr) :
    continuation limit gs v t = operand limit (Reading.multiply gs v) t := by
  rw [continuation]
  cases hk : t.kind with
  | identifier | openParen | root => rfl
  | _ => rw [hk] at ht; cases ht

theorem Reads.run_factor (hl : Reads limit .product fs ts l) (hfs : Phrase.product.Follows fs)
    (ht : startsFactor t.kind) : (ts ++ t :: us).foldlM (step limit) (.awaiting fs) =
      (t :: us).foldlM (step limit) (.awaiting (.operation .mul l :: fs)) := by
  refine hl.run_binary hfs rfl rfl fun gs v hsettle => ?_
  show (continuation limit gs v t >>= _) = _
  rw [operand_of_startsFactor ht, Reading.multiply, hsettle]
  rfl

/-! ## Derivations -/

/-- Every phrase is read behind the frames it can follow, if it is not too
deep there. -/
theorem reads_of_derives (h : Derives p ts e d) (hfs : p.Follows fs)
    (hdepth : depth fs + d ≤ limit) : Reads limit p fs ts e := by
  induction h generalizing fs with
  | @number t n hkind hread =>
      refine ⟨[], _, ?_, List.forall_mem_nil _, rfl⟩
      show (operand limit fs t >>= _) = _
      simp only [operand]
      rw [hkind]
      simp only [hread]
      rfl
  | @name t hkind =>
      refine ⟨[], _, ?_, List.forall_mem_nil _, rfl⟩
      show (operand limit fs t >>= _) = _
      simp only [operand]
      rw [hkind]
      rfl
  | @group opening closing ts e d hopen hclose _ ih =>
      refine ⟨[], e, ?_, List.forall_mem_nil _, rfl⟩
      have hinner : Reads limit .difference (.group opening.span :: fs) ts e :=
        ih (Phrase.follows_cons Nat.one_pos) (by rw [depth_cons_of_isLevel rfl]; omega)
      obtain ⟨hs, v, hrun, hhs, rfl⟩ := hinner
      have hopening : step limit (.awaiting fs) opening =
          .ok (.awaiting (.group opening.span :: fs)) :=
        (operand_openParen hopen).trans (nest_eq_ok (by omega))
      rw [List.cons_append, List.foldlM_cons, hopening]
      show (ts ++ [closing]).foldlM (step limit) _ = _
      rw [List.foldlM_append, hrun]
      show (continuation limit _ v closing >>= _) = _
      rw [continuation]
      rw [hclose]
      simp only [closeGroup?_append hhs]
      rfl
  | primary _ ih => exact (ih (Phrase.follows_of_bound rfl) hdepth).loosen (by decide)
  | @caret t ts us b k d d' _ hkind _ ihb ihk =>
      have hb : Reads limit .primary fs ts b := ihb (Phrase.follows_of_bound rfl) (by omega)
      have hk : Reads limit .power (.power b :: fs) us k :=
        ihk (Phrase.follows_of_bound rfl) (by rw [depth_cons_of_isLevel rfl]; omega)
      refine hk.complete (Nat.le_refl _) (Nat.le_refl _) ?_
      rw [List.foldlM_append, hb.primary]
      show (continuation limit fs b t >>= _) = _
      rw [continuation_caret hkind, nest_eq_ok (by omega)]
      rfl
  | power _ ih => exact (ih (Phrase.follows_of_bound rfl) hdepth).loosen (by decide)
  | @sign t ts e d hkind _ ih =>
      have hr : Reads limit .root (.root :: fs) ts e :=
        ih (Phrase.follows_cons (by decide)) (by rw [depth_cons_of_isLevel rfl]; omega)
      refine hr.complete (Nat.le_refl _) (Nat.le_refl _) ?_
      show (operand limit fs t >>= _) = _
      rw [operand_root hkind hfs, nest_eq_ok (by omega)]
      rfl
  | factor _ ih => exact (ih (hfs.mono (by decide)) hdepth).loosen (by decide)
  | @times t ts us l r d d' _ hkind _ ihl ihr =>
      have hr : Reads limit .root (.operation .mul l :: fs) us r :=
        ihr (Phrase.follows_cons (show 4 < 6 by decide)) (by rw [depth_operation]; omega)
      exact hr.complete (by decide) (Nat.le_refl _)
        ((ihl hfs (by omega)).run_sign hfs rfl rfl hkind)
  | @juxtapose u ts us l r d d' _ hkind _ ihl ihr =>
      have hr : Reads limit .root (.operation .mul l :: fs) (u :: us) r :=
        ihr (Phrase.follows_cons (show 4 < 6 by decide)) (by rw [depth_operation]; omega)
      exact hr.complete (by decide) (Nat.le_refl _) ((ihl hfs (by omega)).run_factor hfs hkind)
  | product _ ih => exact (ih (hfs.mono (by decide)) hdepth).loosen (by decide)
  | @divide t ts us l r d d' _ hkind _ ihl ihr =>
      have hr : Reads limit .product (.operation .div l :: fs) us r :=
        ihr (Phrase.follows_cons (show 3 < 4 by decide)) (by rw [depth_operation]; omega)
      exact hr.complete (by decide) (Nat.le_refl _)
        ((ihl hfs (by omega)).run_sign hfs rfl rfl hkind)
  | quotient _ ih => exact (ih (hfs.mono (by decide)) hdepth).loosen (by decide)
  | @plus t ts us l r d d' _ hkind _ ihl ihr =>
      have hr : Reads limit .quotient (.operation .add l :: fs) us r :=
        ihr (Phrase.follows_cons (show 2 < 3 by decide)) (by rw [depth_operation]; omega)
      exact hr.complete (by decide) (Nat.le_refl _)
        ((ihl hfs (by omega)).run_sign hfs rfl rfl hkind)
  | sum _ ih => exact (ih (hfs.mono (by decide)) hdepth).loosen (by decide)
  | @minus t ts us l r d d' _ hkind _ ihl ihr =>
      have hr : Reads limit .sum (.operation .sub l :: fs) us r :=
        ihr (Phrase.follows_cons (show 1 < 2 by decide)) (by rw [depth_operation]; omega)
      exact hr.complete (by decide) (Nat.le_refl _)
        ((ihl hfs (by omega)).run_sign hfs rfl rfl hkind)

theorem exceeds_binary (op : Op) {us' : List Token} (hl : Derives p ts l d) (hfs : p.Follows fs)
    (hle : depth fs ≤ limit) {d' : Nat} (hlt : limit < depth fs + max d d')
    (hleft : limit < depth fs + d →
      ts.foldlM (step limit) (.awaiting fs) = .error (.depthExceeded limit))
    (hrun : Reads limit p fs ts l → (ts ++ us').foldlM (step limit) (.awaiting fs) =
      us.foldlM (step limit) (.awaiting (.operation op l :: fs)))
    (hright : depth (.operation op l :: fs) ≤ limit →
      limit < depth (.operation op l :: fs) + d' →
      us.foldlM (step limit) (.awaiting (.operation op l :: fs)) =
        .error (.depthExceeded limit)) :
    (ts ++ us').foldlM (step limit) (.awaiting fs) = .error (.depthExceeded limit) := by
  by_cases hdeep : limit < depth fs + d
  · rw [List.foldlM_append, hleft hdeep]
    rfl
  · rw [hrun (reads_of_derives hl hfs (by omega))]
    rw [depth_operation] at hright
    exact hright hle (by omega)

/-- Reading a phrase that is too deep for the levels left fails on its depth,
whatever stands behind it. -/
theorem exceeds_of_derives (h : Derives p ts e d) (hfs : p.Follows fs) (hle : depth fs ≤ limit)
    (hlt : limit < depth fs + d) :
    ts.foldlM (step limit) (.awaiting fs) = .error (.depthExceeded limit) := by
  induction h generalizing fs with
  | number _ _ => omega
  | name _ => omega
  | @group opening closing ts e d hopen _ _ ih =>
      rw [List.cons_append, List.foldlM_cons]
      show (operand limit fs opening >>= _) = _
      rw [operand_openParen hopen]
      by_cases hfull : limit ≤ depth fs
      · rw [nest_eq_error hfull]
        rfl
      · have hinner : ts.foldlM (step limit) (.awaiting (.group opening.span :: fs)) =
            .error (.depthExceeded limit) :=
          ih (Phrase.follows_cons Nat.one_pos) (by rw [depth_cons_of_isLevel rfl]; omega)
            (by rw [depth_cons_of_isLevel rfl]; omega)
        rw [nest_eq_ok (by omega)]
        show (ts ++ [closing]).foldlM (step limit) _ = _
        rw [List.foldlM_append, hinner]
        rfl
  | primary _ ih => exact ih (Phrase.follows_of_bound rfl) hle hlt
  | @caret t ts us b k d d' hb hkind _ ihb ihk =>
      rw [List.foldlM_append]
      by_cases hdeep : limit < depth fs + d
      · rw [ihb (Phrase.follows_of_bound rfl) hle hdeep]
        rfl
      · have hb : Reads limit .primary fs ts b :=
          reads_of_derives hb (Phrase.follows_of_bound rfl) (by omega)
        rw [hb.primary]
        show (continuation limit fs b t >>= _) = _
        rw [continuation_caret hkind]
        by_cases hfull : limit ≤ depth fs
        · rw [nest_eq_error hfull]
          rfl
        · rw [nest_eq_ok (by omega)]
          exact ihk (Phrase.follows_of_bound rfl)
            (by rw [depth_cons_of_isLevel rfl]; omega) (by rw [depth_cons_of_isLevel rfl]; omega)
  | power _ ih => exact ih (Phrase.follows_of_bound rfl) hle hlt
  | @sign t ts e d hkind _ ih =>
      rw [List.foldlM_cons]
      show (operand limit fs t >>= _) = _
      rw [operand_root hkind hfs]
      by_cases hfull : limit ≤ depth fs
      · rw [nest_eq_error hfull]
        rfl
      · rw [nest_eq_ok (by omega)]
        exact ih (Phrase.follows_cons (by decide))
          (by rw [depth_cons_of_isLevel rfl]; omega) (by rw [depth_cons_of_isLevel rfl]; omega)
  | factor _ ih => exact ih (hfs.mono (by decide)) hle hlt
  | product _ ih => exact ih (hfs.mono (by decide)) hle hlt
  | quotient _ ih => exact ih (hfs.mono (by decide)) hle hlt
  | sum _ ih => exact ih (hfs.mono (by decide)) hle hlt
  | times hl hkind _ ihl ihr =>
      exact exceeds_binary .mul hl hfs hle hlt (ihl hfs hle)
        (fun hl => hl.run_sign hfs rfl rfl hkind)
        (ihr (Phrase.follows_cons (show 4 < 6 by decide)))
  | juxtapose hl hkind _ ihl ihr =>
      exact exceeds_binary .mul hl hfs hle hlt (ihl hfs hle) (fun hl => hl.run_factor hfs hkind)
        (ihr (Phrase.follows_cons (show 4 < 6 by decide)))
  | divide hl hkind _ ihl ihr =>
      exact exceeds_binary .div hl hfs hle hlt (ihl hfs hle)
        (fun hl => hl.run_sign hfs rfl rfl hkind)
        (ihr (Phrase.follows_cons (show 3 < 4 by decide)))
  | plus hl hkind _ ihl ihr =>
      exact exceeds_binary .add hl hfs hle hlt (ihl hfs hle)
        (fun hl => hl.run_sign hfs rfl rfl hkind)
        (ihr (Phrase.follows_cons (show 2 < 3 by decide)))
  | minus hl hkind _ ihl ihr =>
      exact exceeds_binary .sub hl hfs hle hlt (ihl hfs hle)
        (fun hl => hl.run_sign hfs rfl rfl hkind)
        (ihr (Phrase.follows_cons (show 1 < 2 by decide)))

/-- An input that the grammar derives is read as what it stands for, unless it
is too deep. -/
theorem parseTokens_of_accepts (h : Accepts ts e d) (hd : d ≤ limit) :
    parseTokens limit ts = .ok (some e) := by
  obtain ⟨inner, hderives, rfl⟩ := h
  have hdepth : depth [] + inner ≤ limit := Nat.add_comm inner 1 ▸ hd
  obtain ⟨hs, v, hrun, hhs, rfl⟩ := reads_of_derives hderives
    (Phrase.follows_nil _) hdepth
  have hne : ts.isEmpty = false := by
    cases hts : ts with
    | nil => exact absurd hts hderives.ne_nil
    | cons t ts => rfl
  rw [List.append_nil] at hrun
  rw [parseTokens]
  rw [hne, if_neg Bool.false_ne_true, if_neg (by omega), hrun]
  show (finish (.holding hs v) >>= _) = _
  rw [finish_of_precedence hhs]
  rfl

/-- An input that the grammar derives is refused for its depth alone. -/
theorem parseTokens_of_limit_lt (h : Accepts ts e d) (hd : limit < d) :
    parseTokens limit ts = .error (.depthExceeded limit) := by
  obtain ⟨inner, hderives, rfl⟩ := h
  have hne : ts.isEmpty = false := by
    cases hts : ts with
    | nil => exact absurd hts hderives.ne_nil
    | cons t ts => rfl
  rw [parseTokens]
  rw [hne, if_neg Bool.false_ne_true]
  split
  · rfl
  · next hlimit =>
      have hdepth : limit < depth [] + inner := Nat.add_comm inner 1 ▸ hd
      rw [exceeds_of_derives hderives (Phrase.follows_nil _) (Nat.pos_of_ne_zero hlimit) hdepth]
      rfl

end Grammar

end Surd
