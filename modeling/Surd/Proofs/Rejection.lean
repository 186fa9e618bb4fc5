import Surd.Proofs.Acceptance

/-!
# Where reading fails

A token is refused only if nothing could follow it: whatever was read before it
can be completed, and with it nothing can. Both sides come from acceptance. A
reading that has come so far is completed by one more operand, if it waits for
one, and by closing its groups, so it accepts some continuation
(`viable_of_run`). And an error that is not about depth does not go away when
the limit is raised, so no continuation of the refused tokens is accepted
(`not_viable_of_run`).

What remains is an input that is fine as far as it goes. Its last token tells
whether an operand or a closing parenthesis is missing, and the groups among
the frames are the parentheses that were not closed.
-/

namespace Surd

open Grammar

variable {limit limit' : Nat} {f : Frame} {fs gs : List Frame} {t : Token} {ts us : List Token}
  {e v w : Expr} {err : ParseError} {reading reading' : Reading}

namespace Reading

/-! ## The frames of a reading -/

def frames : Reading → List Frame
  | .awaiting fs => fs
  | .holding fs _ => fs

def isHolding : Reading → Bool
  | .awaiting _ => false
  | .holding _ _ => true

/-- Where the groups were opened that are still open, innermost first. -/
def groups (fs : List Frame) : List Span :=
  fs.filterMap Frame.group?

theorem openGroup?_eq_head? (fs : List Frame) : openGroup? fs = (groups fs).head? := by
  rw [groups, List.head?_filterMap, openGroup?]

theorem groups_cons_of_group? (h : f.group? = none) : groups (f :: fs) = groups fs :=
  List.filterMap_cons_none h

theorem depth_le_cons (f : Frame) (fs : List Frame) : depth fs ≤ depth (f :: fs) := by
  rw [depth, depth, List.countP_cons]
  omega

theorem depth_cons_le (f : Frame) (fs : List Frame) : depth (f :: fs) ≤ depth fs + 1 := by
  rw [depth, depth, List.countP_cons]
  split <;> omega

/-- Settling ends no group. -/
theorem settle_frames {p : Nat} (hp : 1 ≤ p) (h : settle p fs v = (gs, w)) :
    groups gs = groups fs ∧ depth gs ≤ depth fs := by
  induction fs generalizing v with
  | nil =>
      obtain ⟨rfl, rfl⟩ := Prod.mk.inj h
      exact ⟨rfl, Nat.le_refl _⟩
  | cons f fs ih =>
      rw [settle] at h
      split at h
      · next hle =>
          have hgroup : f.group? = none := by
            cases f with
            | group opened => exact absurd (Nat.le_trans hp hle) (Nat.not_succ_le_zero 0)
            | operation | root | power => rfl
          obtain ⟨hgroups, hdepth⟩ := ih h
          exact ⟨hgroups.trans (groups_cons_of_group? hgroup).symm,
            Nat.le_trans hdepth (depth_le_cons f fs)⟩
      · obtain ⟨rfl, rfl⟩ := Prod.mk.inj h
        exact ⟨rfl, Nat.le_refl _⟩

theorem operation_frames (op : Op) (fs : List Frame) (v : Expr) :
    groups (operation op fs v).frames = groups fs ∧
      depth (operation op fs v).frames ≤ depth fs := by
  rw [operation]
  cases hsettle : settle op.precedence fs v with
  | mk gs w =>
      have hpos : 1 ≤ op.precedence := by cases op <;> decide
      obtain ⟨hgroups, hdepth⟩ := settle_frames hpos hsettle
      refine ⟨hgroups, ?_⟩
      show depth (.operation op w :: gs) ≤ depth fs
      rwa [depth_operation]

theorem multiply_frames (fs : List Frame) (v : Expr) :
    groups (multiply fs v) = groups fs ∧ depth (multiply fs v) ≤ depth fs :=
  operation_frames .mul fs v

theorem closeGroup?_frames (h : closeGroup? fs v = some (gs, w)) :
    groups gs = (groups fs).tail ∧ depth gs ≤ depth fs := by
  induction fs generalizing v with
  | nil => cases h
  | cons f fs ih =>
      cases f with
      | group opened =>
          obtain ⟨rfl, rfl⟩ := Prod.mk.inj (Option.some.inj h)
          exact ⟨rfl, depth_le_cons _ _⟩
      | operation | root | power =>
          obtain ⟨hgroups, hdepth⟩ := ih h
          exact ⟨hgroups, Nat.le_trans hdepth (depth_le_cons _ fs)⟩

/-! ## One token -/

/-- What a token does to a reading. -/
structure Advances (t : Token) (fs : List Frame) (reading : Reading) : Prop where
  groups : groups reading.frames =
    match t.kind with
    | .openParen => t.span :: groups fs
    | .closeParen => (groups fs).tail
    | _ => groups fs
  depth : depth reading.frames ≤ depth fs + 1
  isHolding : reading.isHolding = endsOperand t.kind

/-- Why a token is refused. -/
inductive Refuses (limit : Nat) (t : Token) (fs : List Frame) : ParseError → Prop where
  | unexpected {expected : List Token.Kind} :
      Refuses limit t fs (.unexpectedToken t.kind t.span expected)
  | invalid : t.kind = .number → Numeral.read? t.text = none →
      Refuses limit t fs (.invalidNumber t.span)
  | deep : limit ≤ depth fs → Refuses limit t fs (.depthExceeded limit)

theorem Advances.of_frames (h : Advances t gs reading)
    (hgroups : Reading.groups gs = Reading.groups fs)
    (hdepth : Reading.depth gs ≤ Reading.depth fs) : Advances t fs reading where
  groups := hgroups ▸ h.groups
  depth := Nat.le_trans h.depth (Nat.succ_le_succ hdepth)
  isHolding := h.isHolding

theorem Refuses.of_depth (h : Refuses limit t gs err)
    (hdepth : Reading.depth gs ≤ Reading.depth fs) : Refuses limit t fs err := by
  cases h with
  | unexpected => exact .unexpected
  | invalid hkind hread => exact .invalid hkind hread
  | deep hlimit => exact .deep (Nat.le_trans hlimit hdepth)

theorem nest_advances (hkind : endsOperand t.kind = false) (hclose : t.kind ≠ .closeParen)
    (hgroup : f.group? = if t.kind = .openParen then some t.span else none) :
    Yields (Refuses limit t fs) (Advances t fs) (nest limit f fs) := by
  rw [nest]
  split
  · next hlimit => exact .deep hlimit
  · refine ⟨?_, depth_cons_le f fs, hkind.symm⟩
    show groups (f :: fs) = _
    split
    · next hopen =>
        rw [if_pos hopen] at hgroup
        exact List.filterMap_cons_some hgroup
    · next hclosing => exact absurd hclosing hclose
    · next hopen _ =>
        rw [if_neg hopen] at hgroup
        exact groups_cons_of_group? hgroup

theorem operand_advances : Yields (Refuses limit t fs) (Advances t fs) (operand limit fs t) := by
  cases hk : t.kind with
  | number =>
      simp only [operand, hk]
      split
      · exact ⟨by rw [hk]; rfl, Nat.le_succ _, by rw [hk]; rfl⟩
      · next hread => exact .invalid hk hread
  | identifier =>
      simp only [operand, hk]
      exact ⟨by rw [hk]; rfl, Nat.le_succ _, by rw [hk]; rfl⟩
  | openParen =>
      rw [operand_openParen hk]
      exact nest_advances (by rw [hk]; rfl) (by simp [hk]) (by rw [if_pos hk]; rfl)
  | root =>
      simp only [operand, hk]
      split
      · exact .unexpected
      · exact nest_advances (by rw [hk]; rfl) (by simp [hk]) (by simp [hk, Frame.group?])
  | closeParen | plus | minus | times | divide | caret =>
      simp only [operand, hk]
      exact .unexpected

theorem continuation_advances :
    Yields (Refuses limit t fs) (Advances t fs) (continuation limit fs v t) := by
  have hsign : ∀ op : Op, t.kind = op.sign →
      Yields (Refuses limit t fs) (Advances t fs) (continuation limit fs v t) := by
    intro op ht
    obtain ⟨hgroups, hdepth⟩ := operation_frames op fs v
    rw [continuation_sign ht]
    refine ⟨?_, Nat.le_succ_of_le hdepth, ?_⟩
    · rw [ht]
      cases op <;> exact hgroups
    · rw [ht]
      cases op <;> rfl
  have hfactor : startsFactor t.kind →
      Yields (Refuses limit t fs) (Advances t fs) (continuation limit fs v t) := by
    intro ht
    obtain ⟨hgroups, hdepth⟩ := multiply_frames fs v
    rw [operand_of_startsFactor ht]
    exact operand_advances.mono (fun _ h => h.of_depth hdepth)
      fun _ h => h.of_frames hgroups hdepth
  cases hk : t.kind with
  | minus => exact hsign .sub hk
  | plus => exact hsign .add hk
  | divide => exact hsign .div hk
  | times => exact hsign .mul hk
  | identifier | openParen | root => exact hfactor (by rw [hk]; rfl)
  | caret =>
      rw [continuation_caret hk]
      exact nest_advances (by rw [hk]; rfl) (by simp [hk]) (by simp [hk, Frame.group?])
  | closeParen =>
      simp only [continuation, hk]
      split
      · next gs w hclose =>
          obtain ⟨hgroups, hdepth⟩ := closeGroup?_frames hclose
          exact ⟨by rw [hk]; exact hgroups, Nat.le_succ_of_le hdepth, by rw [hk]; rfl⟩
      · exact .unexpected
  | number =>
      simp only [continuation, hk]
      exact .unexpected

/-- A token is taken up or refused. -/
theorem step_advances (limit : Nat) (reading : Reading) (t : Token) :
    Yields (Refuses limit t reading.frames) (Advances t reading.frames) (step limit reading t) := by
  cases reading with
  | awaiting fs => exact operand_advances
  | holding fs v => exact continuation_advances

/-! ## Every token -/

/-- What the tokens tell of a reading that has come so far: its groups, the
most levels it can have, and whether it holds an operand. -/
structure Tracks (ts : List Token) (reading : Reading) : Prop where
  groups : groups reading.frames = (unclosed ts).map Token.span
  depth : depth reading.frames ≤ ts.length + 1
  isHolding : reading.isHolding = ts.getLast?.any fun t => endsOperand t.kind

theorem Tracks.advance (h : Tracks ts reading) (hstep : Advances t reading.frames reading') :
    Tracks (ts ++ [t]) reading' where
  groups := by
    rw [unclosed, List.foldl_append]
    show _ = (openAfter (unclosed ts) t).map Token.span
    rw [hstep.groups, h.groups, openAfter]
    cases t.kind with
    | closeParen => exact List.map_tail.symm
    | _ => rfl
  depth := by
    have hbefore := h.depth
    have hafter := hstep.depth
    rw [List.length_append, List.length_singleton]
    omega
  isHolding := by
    rw [hstep.isHolding, List.getLast?_concat]
    rfl

theorem Tracks.run (h : Tracks ts reading)
    (hok : us.foldlM (step limit) reading = .ok reading') : Tracks (ts ++ us) reading' := by
  induction us generalizing reading ts with
  | nil =>
      obtain rfl := pure_eq_ok.mp hok
      rwa [List.append_nil]
  | cons u us ih =>
      obtain ⟨next, hnext, hok⟩ := bind_eq_ok.mp hok
      have hadvances := step_advances limit reading u
      rw [hnext] at hadvances
      have hrest := ih (h.advance hadvances) hok
      rwa [List.append_assoc] at hrest

theorem tracks_run (h : ts.foldlM (step limit) (.awaiting []) = .ok reading) :
    Tracks ts reading := by
  have hstart : Tracks [] (.awaiting []) := ⟨rfl, Nat.le_refl 1, rfl⟩
  exact hstart.run h

/-! ## What can follow -/

/-- Closing parentheses complete an operand to an input. -/
theorem exists_closing (limit : Nat) (fs : List Frame) (v : Expr) :
    ∃ (us : List Token) (reading : Reading) (e : Expr), (∀ u ∈ us, u.kind = .closeParen) ∧
      us.foldlM (step limit) (.holding fs v) = .ok reading ∧ finish reading = .ok e := by
  induction fs generalizing v with
  | nil => exact ⟨[], .holding [] v, v, List.forall_mem_nil _, rfl, rfl⟩
  | cons f fs ih =>
      obtain ⟨us, reading, e, hus, hrun, hfinish⟩ := ih (f.complete v)
      cases f with
      | group opened =>
          refine ⟨⟨.closeParen, ")", opened⟩ :: us, reading, e, ?_, hrun, hfinish⟩
          exact List.forall_mem_cons.mpr ⟨rfl, hus⟩
      | operation | root | power =>
          -- any other frame is completed along with the frames behind it
          cases us with
          | nil =>
              obtain rfl := pure_eq_ok.mp hrun
              exact ⟨[], _, e, hus, rfl, hfinish⟩
          | cons u us =>
              refine ⟨u :: us, reading, e, hus, ?_, hfinish⟩
              rw [← hrun, List.foldlM_cons, List.foldlM_cons]
              have hu : u.kind = .closeParen := hus u List.mem_cons_self
              simp only [step, continuation, hu, closeGroup?]

/-- What has been read can be continued to an input that is read. -/
theorem exists_completion (limit : Nat) (reading : Reading) :
    ∃ (us : List Token) (reading' : Reading) (e : Expr),
      us.foldlM (step limit) reading = .ok reading' ∧ finish reading' = .ok e := by
  cases reading with
  | holding fs v =>
      obtain ⟨us, reading', e, -, hrun, hfinish⟩ := exists_closing limit fs v
      exact ⟨us, reading', e, hrun, hfinish⟩
  | awaiting fs =>
      obtain ⟨us, reading', e, -, hrun, hfinish⟩ := exists_closing limit fs (.var "x")
      exact ⟨⟨.identifier, "x", ⟨0, 1⟩⟩ :: us, reading', e, hrun, hfinish⟩

theorem parseTokens_of_run (hlimit : 0 < limit)
    (hrun : ts.foldlM (step limit) (.awaiting []) = .ok reading)
    (hfinish : finish reading = .ok e) : parseTokens limit ts = .ok (some e) := by
  cases ts with
  | nil =>
      obtain rfl := pure_eq_ok.mp hrun
      cases hfinish
  | cons t ts =>
      rw [parseTokens, List.isEmpty_cons, if_neg Bool.false_ne_true,
        if_neg (Nat.ne_of_gt hlimit), hrun]
      show (finish reading >>= _) = _
      rw [hfinish]
      rfl

theorem viable_of_run (hlimit : 0 < limit)
    (h : ts.foldlM (step limit) (.awaiting []) = .ok reading) : Viable ts := by
  obtain ⟨us, reading', e, hrun, hfinish⟩ := exists_completion limit reading
  have hall : (ts ++ us).foldlM (step limit) (.awaiting []) = .ok reading' := by
    rw [List.foldlM_append, h]
    exact hrun
  obtain ⟨d, -, haccepts⟩ := accepts_of_parseTokens (parseTokens_of_run hlimit hall hfinish)
  exact ⟨us, e, d, haccepts⟩

/-! ## What cannot follow -/

/-- A higher limit only matters where the lower one was reached. -/
theorem agrees_step (hle : limit ≤ limit') (reading : Reading) (t : Token) :
    Agrees (· = .depthExceeded limit) (step limit reading t) (step limit' reading t) := by
  have hnest : ∀ f fs, Agrees (· = .depthExceeded limit) (nest limit f fs) (nest limit' f fs) := by
    intro f fs
    by_cases hdeep : limit ≤ depth fs
    · exact .inr ⟨_, rfl, nest_eq_error hdeep⟩
    · exact .inl (by rw [nest_eq_ok (by omega), nest_eq_ok (by omega)])
  have hoperand : ∀ fs, Agrees (· = .depthExceeded limit) (operand limit fs t)
      (operand limit' fs t) := by
    intro fs
    unfold operand
    cases t.kind with
    | openParen => exact hnest _ fs
    | root =>
        dsimp only
        split
        · exact agrees_refl _
        · exact hnest .root fs
    | _ => exact agrees_refl _
  cases reading with
  | awaiting fs => exact hoperand fs
  | holding fs v =>
      show Agrees _ (continuation limit fs v t) (continuation limit' fs v t)
      unfold continuation
      cases t.kind with
      | caret => exact hnest (.power v) fs
      | identifier | openParen | root => exact hoperand (multiply fs v)
      | _ => exact agrees_refl _

/-- Tokens that are refused for anything but their depth are refused whatever
follows them. -/
theorem not_viable_of_run (h : ts.foldlM (step limit) (.awaiting []) = .error err)
    (hdepth : err ≠ .depthExceeded limit) : ¬ Viable ts := by
  rintro ⟨us, e, d, haccepts⟩
  have hread := parseTokens_of_accepts haccepts (Nat.le_max_right limit d)
  obtain ⟨-, reading, hrun, -⟩ := parseTokens_eq_ok hread
  rw [List.foldlM_append] at hrun
  obtain ⟨reading', hts, -⟩ := bind_eq_ok.mp hrun
  have hagrees := agrees_foldlM (agrees_step (Nat.le_max_left limit d)) ts (.awaiting [])
  have hfail := hagrees.eq h fun err' herr => Except.error.inj herr ▸ hdepth
  rw [hts] at hfail
  cases hfail

end Reading

/-! ## The errors -/

open Reading

/-- The error names the first token that cannot be continued. -/
def IsRefused (ts : List Token) (err : ParseError) : Prop :=
  ∃ i t expected, ts[i]? = some t ∧ err = .unexpectedToken t.kind t.span expected ∧
    Viable (ts.take i) ∧ ¬ Viable (ts.take (i + 1))

/-- The tokens can be continued, and an operand has to come first. -/
def LacksOperand (ts : List Token) (err : ParseError) : Prop :=
  Viable ts ∧ (∃ t, ts.getLast? = some t ∧ endsOperand t.kind = false) ∧
    err = .unexpectedEndOfInput

/-- The tokens can be continued, and all they lack is the end of a group. -/
def LacksClosing (ts : List Token) (err : ParseError) : Prop :=
  Viable ts ∧ (∃ t, ts.getLast? = some t ∧ endsOperand t.kind = true) ∧
    ∃ opening, (unclosed ts).head? = some opening ∧ err = .unterminatedGroup opening.span

theorem parseTokens_eq_error (hne : ts ≠ []) (hlimit : 0 < limit)
    (h : parseTokens limit ts = .error err) :
    ts.foldlM (step limit) (.awaiting []) = .error err ∨
      ∃ reading, ts.foldlM (step limit) (.awaiting []) = .ok reading ∧
        finish reading = .error err := by
  have hempty : ts.isEmpty = false := List.isEmpty_eq_false_iff.mpr hne
  rw [parseTokens, hempty, if_neg Bool.false_ne_true, if_neg (Nat.ne_of_gt hlimit)] at h
  cases hrun : ts.foldlM (step limit) (.awaiting []) with
  | error err' =>
      rw [hrun] at h
      exact .inl (congrArg _ (Except.error.inj h))
  | ok reading =>
      rw [hrun] at h
      refine .inr ⟨reading, rfl, ?_⟩
      cases hfinish : finish reading with
      | error err' =>
          have h : (finish reading >>= fun e => pure (some e)) = .error err := h
          rw [hfinish] at h
          exact congrArg _ (Except.error.inj h)
      | ok e =>
          have h : (finish reading >>= fun e => pure (some e)) = .error err := h
          rw [hfinish] at h
          cases h

theorem isRefused_of_run (hnum : ∀ t ∈ ts, t.kind = .number → (Numeral.read? t.text).isSome)
    (hlimit : ts.length < limit) (h : ts.foldlM (step limit) (.awaiting []) = .error err) :
    IsRefused ts err := by
  obtain ⟨front, t, back, reading, rfl, hfront, ht⟩ := foldlM_eq_error h
  have hlength : front.length + 1 ≤ (front ++ t :: back).length := by simp
  have hrefuses := step_advances limit reading t
  rw [ht] at hrefuses
  cases hrefuses with
  | @unexpected expected =>
      have hget : (front ++ t :: back)[front.length]? = some t := by
        rw [List.getElem?_append_right (Nat.le_refl _), Nat.sub_self]
        rfl
      have htake : (front ++ t :: back).take (front.length + 1) = front ++ [t] :=
        List.take_length_add_append 1
      have hrefused : (front ++ [t]).foldlM (step limit) (.awaiting []) =
          .error (.unexpectedToken t.kind t.span expected) := by
        rw [List.foldlM_append, hfront]
        show (step limit reading t >>= pure) = _
        rw [ht]
        rfl
      refine ⟨front.length, t, expected, hget, rfl, ?_, ?_⟩
      · rw [List.take_left]
        exact viable_of_run (by omega) hfront
      · rw [htake]
        exact not_viable_of_run hrefused nofun
  | invalid hkind hread =>
      have hsome := hnum t (List.mem_append_right front List.mem_cons_self) hkind
      rw [hread] at hsome
      cases hsome
  | deep hdeep =>
      have hdepth := (tracks_run hfront).depth
      omega

theorem lacks_of_finish (hne : ts ≠ []) (hlimit : 0 < limit)
    (hrun : ts.foldlM (step limit) (.awaiting []) = .ok reading)
    (hfinish : finish reading = .error err) : LacksOperand ts err ∨ LacksClosing ts err := by
  have htracks := tracks_run hrun
  have hviable := viable_of_run hlimit hrun
  have hlast := List.getLast?_eq_some_getLast hne
  have hholding := htracks.isHolding
  rw [hlast] at hholding
  cases reading with
  | awaiting fs =>
      obtain rfl := Except.error.inj hfinish
      exact .inl ⟨hviable, ⟨_, hlast, hholding.symm⟩, rfl⟩
  | holding fs v =>
      rw [finish] at hfinish
      split at hfinish
      · next opened hopen =>
          obtain rfl := Except.error.inj hfinish
          rw [openGroup?_eq_head?] at hopen
          have hgroups : groups fs = (unclosed ts).map Token.span := htracks.groups
          rw [hgroups, List.head?_map, Option.map_eq_some_iff] at hopen
          obtain ⟨opening, hopening, rfl⟩ := hopen
          exact .inr ⟨hviable, ⟨_, hlast, hholding.symm⟩, opening, hopening, rfl⟩
      · cases hfinish

/-- An input with enough levels is refused for exactly one of three reasons: a
token that cannot be continued, and it is the first one; an operand that is
missing at the end; or a group that is left open, and it is the last one. -/
theorem parseTokens_error_cases (hne : ts ≠ [])
    (hnum : ∀ t ∈ ts, t.kind = .number → (Numeral.read? t.text).isSome)
    (hlimit : ts.length < limit) (h : parseTokens limit ts = .error err) :
    (IsRefused ts err ∨ LacksOperand ts err ∨ LacksClosing ts err) ∧
      ¬ (IsRefused ts err ∧ LacksOperand ts err) ∧ ¬ (IsRefused ts err ∧ LacksClosing ts err) ∧
      ¬ (LacksOperand ts err ∧ LacksClosing ts err) ∧
      (∀ n, err ≠ .depthExceeded n) ∧ (∀ span, err ≠ .invalidNumber span) ∧
      err ≠ .emptyInput := by
  have hcases : IsRefused ts err ∨ LacksOperand ts err ∨ LacksClosing ts err := by
    rcases parseTokens_eq_error hne (by omega) h with hrun | ⟨reading, hrun, hfinish⟩
    · exact .inl (isRefused_of_run hnum hlimit hrun)
    · exact .inr (lacks_of_finish hne (by omega) hrun hfinish)
  refine ⟨hcases, ?_, ?_, ?_, ?_⟩
  · rintro ⟨⟨i, t, expected, -, rfl, -⟩, -, -, herr⟩
    cases herr
  · rintro ⟨⟨i, t, expected, -, rfl, -⟩, -, -, opening, -, herr⟩
    cases herr
  · rintro ⟨⟨-, -, rfl⟩, -, -, opening, -, herr⟩
    cases herr
  · rcases hcases with ⟨i, t, expected, -, rfl, -⟩ | ⟨-, -, rfl⟩ | ⟨-, -, opening, -, rfl⟩
    · exact ⟨nofun, nofun, nofun⟩
    · exact ⟨nofun, nofun, nofun⟩
    · exact ⟨nofun, nofun, nofun⟩

/-- The tokens of `2((x)(y`. -/
def nestedGroups : List Token :=
  [⟨.number, "2", ⟨0, 1⟩⟩, ⟨.openParen, "(", ⟨1, 2⟩⟩, ⟨.openParen, "(", ⟨2, 3⟩⟩,
    ⟨.identifier, "x", ⟨3, 4⟩⟩, ⟨.closeParen, ")", ⟨4, 5⟩⟩, ⟨.openParen, "(", ⟨5, 6⟩⟩,
    ⟨.identifier, "y", ⟨6, 7⟩⟩]

/-- Of the three groups the second one is closed, and the third one is the last
that is not. -/
theorem parseTokens_error_nestedGroups :
    nestedGroups ≠ [] ∧
      (∀ t ∈ nestedGroups, t.kind = .number → (Numeral.read? t.text).isSome) ∧
      nestedGroups.length < 8 ∧
      parseTokens 8 nestedGroups = .error (.unterminatedGroup ⟨5, 6⟩) ∧
      LacksClosing nestedGroups (.unterminatedGroup ⟨5, 6⟩) := by
  have hne : nestedGroups ≠ [] := List.cons_ne_nil _ _
  have hnum : ∀ t ∈ nestedGroups, t.kind = .number → (Numeral.read? t.text).isSome := by decide
  have hlimit : nestedGroups.length < 8 := by decide
  have h : parseTokens 8 nestedGroups = .error (.unterminatedGroup ⟨5, 6⟩) := by rfl
  refine ⟨hne, hnum, hlimit, h, ?_⟩
  rcases (parseTokens_error_cases hne hnum hlimit h).1 with hrefused | hoperand | hclosing
  · obtain ⟨i, t, expected, -, herr, -⟩ := hrefused
    cases herr
  · obtain ⟨-, -, herr⟩ := hoperand
    cases herr
  · exact hclosing

end Surd
