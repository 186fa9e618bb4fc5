import Surd.Proofs.Counting
import Surd.Simplifier.Program

/-!
# A simplifier can be used again

A call leaves the simplifier with the count it began with, so the next call
begins like the first one. What has gone wrong in between makes no difference,
and neither does what has gone wrong inside a call that has a result after all.

For the program this means that its expressions have nothing to do with each
other: what it writes about them is what it writes about each of them alone,
in order, and it fails exactly if it fails for one of them. The two loops come
to the same. A line of the input is an expression once it is trimmed and its
root signs are put in, and an empty one makes no tokens, so the simplifier has
nothing to say about it that the loop does not say by itself.
-/

namespace Surd.Simplifier

open CommandLine

variable {options : Options}

/-! ## Calls -/

theorem keeps_simplify (s : Simplifier) (e : Expr) :
    Keeps s (simplify e) ((level s.options (s.options.maxDepth - s.depth)).simplify e) := by
  have hroom : s.options.maxDepth - s.depth < s.options.maxDepth + 1 := by omega
  have hcount := (Counting.keeps_level s.options hroom).simplify e
  show (((Counting.level s.options _).simplify e).run.run s.depth).bind _ = _
  rw [hcount]
  rfl

theorem keeps_simplify_new (e : Expr) :
    Keeps (new options) (simplify e) (Surd.simplify options e) :=
  keeps_simplify (new options) e

theorem keeps_simplifyText_new (src : String) :
    Keeps (new options) (simplifyText src) (Surd.simplifyText options src) := by
  refine .get ((Keeps.lift _).bind fun e? => ?_)
  cases e? with
  | none => exact .pure none
  | some e => exact (keeps_simplify_new e).adapt.bind fun e' => .pure (some e')

/-- What a call comes back with when there is no simplifier to be left in any
state. -/
def Call.alone (options : Options) : Call → Answer
  | .expression e => .expression (Surd.simplify options e)
  | .text src => .text (Surd.simplifyText options src)

theorem run_call_new (call : Call) :
    call.run.run (new options) = some (call.alone options, new options) := by
  cases call with
  | expression e =>
      rw [Call.run, StateT.run_bind, keeps_simplify_new]
      rfl
  | text src =>
      rw [Call.run, StateT.run_bind, keeps_simplifyText_new]
      rfl

/-- Steps that all leave the state as it was are taken as if each of them were
the first. -/
theorem run_mapM {σ α β : Type} {f : α → StateT σ Option β} {g : α → β} {s : σ}
    (h : ∀ a, (f a).run s = some (g a, s)) (as : List α) :
    (as.mapM f).run s = some (as.map g, s) := by
  induction as with
  | nil => rfl
  | cons a as ih => simp [List.mapM_cons, h, ih]

theorem run_runCalls_new (calls : List Call) :
    (runCalls calls).run (new options) = some (calls.map (Call.alone options), new options) :=
  run_mapM run_call_new calls

/-! ## The two loops -/

theorem run_answer_new (src : String) :
    (answer src).run (new options) = some (Entry.ofText options src, new options) := by
  rw [answer, StateT.run_bind, keeps_simplifyText_new, Entry.ofText]
  match Surd.simplifyText options src with
  | .ok (some e) => rfl
  | .ok none => rfl
  | .error e => rfl

theorem run_answerAll_new (srcs : List String) : (answerAll srcs).run (new options) =
    some (.ofEntries (srcs.map (Entry.ofText options)), new options) := by
  simp [answerAll, run_mapM run_answer_new]

/-- No text makes no tokens, and no tokens make no expression. -/
theorem ofText_empty : Entry.ofText options "" = .nothing := by
  have hread : parse options.maxDepth "" = .ok none := rfl
  rw [Entry.ofText, Surd.simplifyText, hread]
  rfl

/-- An empty line is answered in the same way with the simplifier and without
it. -/
theorem run_answerLine_new (line : List Char) : (answerLine line).run (new options) =
    some (Entry.ofText options (String.ofList (Text.withRootSigns line)), new options) := by
  cases line with
  | nil =>
      show _ = some (Entry.ofText options "", new options)
      rw [ofText_empty]
      rfl
  | cons c cs => exact run_answer_new _

theorem run_answerLines_new (lines : List (Option String)) :
    (answerLines lines).run (new options) =
      some (CommandLine.answerLines options lines, new options) := by
  induction lines with
  | nil => rfl
  | cons line? lines ih =>
      cases line? with
      | none => rfl
      | some line =>
          rw [answerLines, CommandLine.answerLines]
          by_cases hquit : isQuit line
          · rw [if_pos hquit, if_pos (of_decide_eq_true hquit)]
            rfl
          · rw [if_neg hquit, if_neg fun h => hquit (decide_eq_true h)]
            simp [run_answerLine_new, ih, Entry.ofLine]

theorem run_answerArguments_new (given : Arguments) (stdin : List UInt8) :
    (answerArguments given stdin).run (new options) =
      some (if given.expressions.isEmpty then
          CommandLine.answerLines options ((Text.splitLines stdin).map Text.decode?)
        else .ofEntries (given.expressions.map (Entry.ofText options)), new options) := by
  rw [answerArguments]
  split
  · exact run_answerLines_new _
  · exact run_answerAll_new _

/-- The program does not need its simplifier to be the same one throughout. -/
theorem program_eq_run (args : List String) (stdin : List UInt8) :
    program args stdin = some (CommandLine.run args stdin) := by
  rw [program, CommandLine.run]
  match Arguments.read {} args with
  | .error .usageError | .error .help | .error .version => rfl
  | .ok given =>
    show ((answerArguments given stdin).run (new given.options)).map _ = _
    rw [run_answerArguments_new]
    rfl

/-! ## One expression after the other -/

/-- What several runs write when they come one after the other, and whether one
of them has failed. -/
def inSequence (outcomes : List Outcome) : Outcome where
  code := if outcomes.any fun o => o.code ≠ 0 then 1 else 0
  stdout := String.join (outcomes.map Outcome.stdout)
  stderr := String.join (outcomes.map Outcome.stderr)

/-- The simplifier, when it is new, has an error for the text. -/
def IsFailure (options : Options) (src : String) : Prop :=
  ∃ e, (simplifyText src).run.run (new options) = some (.error e, new options)

/-- The outcome of some expressions is made up of those that each of them has
alone, in order, and is a failure exactly if one of them is. -/
structure AnsweredApart (options : Options) (srcs : List String) (o : Outcome) : Prop where
  eq_inSequence : ∃ alone : String → Outcome,
    (∀ src, (answerAll [src]).run (new options) = some (alone src, new options)) ∧
      o = inSequence (srcs.map alone)
  code_eq_one_iff : o.code = 1 ↔ ∃ src ∈ srcs, IsFailure options src

theorem inSequence_followedBy (entry : Entry) (outcomes : List Outcome) :
    inSequence (.ofEntries [entry] :: outcomes) = entry.followedBy (inSequence outcomes) := by
  cases entry with
  | simplified src e | nothing | failed src e =>
      simp [inSequence, Outcome.ofEntries, Entry.followedBy, Entry.isFailure, Outcome.done]

theorem ofEntries_eq_inSequence (entries : List Entry) :
    Outcome.ofEntries entries = inSequence (entries.map fun entry => .ofEntries [entry]) := by
  induction entries with
  | nil => rfl
  | cons entry entries ih =>
      rw [List.map_cons, inSequence_followedBy, ← ih]
      rfl

theorem code_ofEntries (entries : List Entry) :
    (Outcome.ofEntries entries).code = 1 ↔ ∃ entry ∈ entries, entry.isFailure := by
  induction entries with
  | nil => simp [Outcome.ofEntries, Outcome.done]
  | cons entry entries ih =>
      have hcode : (Outcome.ofEntries (entry :: entries)).code =
          if entry.isFailure then 1 else (Outcome.ofEntries entries).code := rfl
      cases hentry : entry.isFailure <;> simp [hcode, hentry, ih]

theorem isFailure_iff {src : String} :
    IsFailure options src ↔ (Entry.ofText options src).isFailure := by
  rw [IsFailure, keeps_simplifyText_new, Entry.ofText]
  match Surd.simplifyText options src with
  | .ok (some e) | .ok none | .error e => simp [Entry.isFailure]

theorem answeredApart_ofEntries (options : Options) (srcs : List String) :
    AnsweredApart options srcs (.ofEntries (srcs.map (Entry.ofText options))) where
  eq_inSequence := by
    refine ⟨fun src => .ofEntries [Entry.ofText options src],
      fun src => run_answerAll_new [src], ?_⟩
    rw [ofEntries_eq_inSequence, List.map_map]
    rfl
  code_eq_one_iff := by
    simp only [code_ofEntries, isFailure_iff]
    constructor
    · rintro ⟨entry, hentry, hfails⟩
      obtain ⟨src, hsrc, rfl⟩ := List.mem_map.mp hentry
      exact ⟨src, hsrc, hfails⟩
    · rintro ⟨src, hsrc, hfails⟩
      exact ⟨_, List.mem_map_of_mem hsrc, hfails⟩

/-! ## The lines of the input -/

/-- The expression that a line stands for. -/
def ofLine (line : String) : String :=
  String.ofList (Text.withRootSigns (Text.trim line.toList))

theorem answerLines_eq_ofEntries (lines : List String) :
    CommandLine.answerLines options (lines.map some) =
      .ofEntries (((lines.takeWhile fun line => !isQuit line).map ofLine).map
        (Entry.ofText options)) := by
  induction lines with
  | nil => rfl
  | cons line lines ih =>
      rw [List.map_cons, CommandLine.answerLines, ih]
      cases hquit : isQuit line with
      | true => simp [hquit, Outcome.ofEntries]
      | false => simp [hquit, Outcome.ofEntries, Entry.ofLine, ofLine]

/-! ## Runs -/

/-- Calls of one simplifier, in any number and order, come back with what each
of them comes back with when it is the first one, and leave the simplifier as
it was. So the outcome of the program is that of its expressions apart from
each other, whether they are its arguments or the lines of its input. -/
theorem calls_independent (options : Options) :
    (∀ call : Call, call.run.run (new options) = some (call.alone options, new options)) ∧
    (∀ calls : List Call, (runCalls calls).run (new options) =
      some (calls.map (Call.alone options), new options)) ∧
    ∀ args given stdin, Arguments.read {} args = .ok given →
      program args stdin = some (CommandLine.run args stdin) ∧
      (given.expressions ≠ [] →
        AnsweredApart given.options given.expressions (CommandLine.run args stdin)) ∧
      (given.expressions = [] → ∀ lines : List String,
        (Text.splitLines stdin).map Text.decode? = lines.map some →
          AnsweredApart given.options ((lines.takeWhile fun line => !isQuit line).map ofLine)
            (CommandLine.run args stdin)) := by
  refine ⟨run_call_new, run_runCalls_new, fun args given stdin hread => ?_⟩
  have hrun : CommandLine.run args stdin =
      if given.expressions.isEmpty then
        CommandLine.answerLines given.options ((Text.splitLines stdin).map Text.decode?)
      else .ofEntries (given.expressions.map (Entry.ofText given.options)) := by
    rw [CommandLine.run, hread]
  refine ⟨program_eq_run args stdin, fun hne => ?_, fun hnil lines hlines => ?_⟩
  · rw [hrun, if_neg (by simpa using hne)]
    exact answeredApart_ofEntries _ _
  · rw [hrun, if_pos (by simp [hnil]), hlines, answerLines_eq_ofEntries]
    exact answeredApart_ofEntries _ _

/-- The first expression has a result in spite of an error inside it, the second
one has none, and the third one is what it is alone. -/
theorem calls_independent_failureBetween :
    AnsweredApart {} ["(x/2)^2", "x/2 + 1", "x + x"]
      (CommandLine.run ["(x/2)^2", "x/2 + 1", "x + x"] []) ∧
    CommandLine.run ["(x/2)^2", "x/2 + 1", "x + x"] [] =
      ⟨1, "(x/2)^2 => (x/2)^2\nx + x => 2x\n",
        "Unable to simplify \"x/2 + 1\": unable to simplify \"x/2\" because division isn't " ++
          "supported\n"⟩ :=
  ⟨((calls_independent {}).2.2 ["(x/2)^2", "x/2 + 1", "x + x"]
      { expressions := ["(x/2)^2", "x/2 + 1", "x + x"] } [] rfl).2.1 (by decide),
    rfl⟩

end Surd.Simplifier
