import RegisterColoring.Host
import RegisterColoring.Proofs.Basics
import RegisterColoring.Proofs.Parsing
import RegisterColoring.Proofs.Scanning

namespace RegisterColoring

theorem countWhile_append_cons {p : Char → Bool} {b : Char} (stops : p b = false)
    (w rest : List Char) : countWhile p (w ++ b :: rest) = countWhile p w := by
  unfold countWhile
  induction w with
  | nil => simp [stops]
  | cons c w ih =>
    rw [List.cons_append, List.takeWhile_cons, List.takeWhile_cons]
    cases p c with
    | false => rfl
    | true => exact congrArg Nat.succ ih

/-- Every lexeme but a row of blanks ends with the line. -/
theorem stopsAt_newline {w : List Char} (some : w ≠ []) (blank : isBlank (w.headD ' ') = false)
    (rest : List Char) : StopsAt w ('\n' :: rest) := by
  have apart : Apart ('\n' :: rest) := rfl
  intro rule
  by_cases other : rule = .comment
  · subst other
    have start : ['/', '/'] <+: w ++ '\n' :: rest ↔ ['/', '/'] <+: w :=
      prefix_append_iff (by decide) some apart
    rw [Rule.longest_comment, Rule.longest_comment]
    by_cases slashes : ['/', '/'] <+: w
    · have inside : 2 ≤ w.length := slashes.length_le
      rw [if_pos slashes, if_pos (start.mpr slashes), List.drop_append_of_le_length inside,
        countWhile_append_cons (by decide)]
    · rw [if_neg slashes, if_neg fun long => slashes (start.mp long)]
  · exact longest_append other some blank apart

/-- The tokens of two texts on different lines. -/
theorem tokensOf_append_newline (w rest : List Char) :
    tokensOf (w ++ '\n' :: rest) = tokensOf w ++ tokensOf rest := by
  rw [tokensOf_append fun _ back _ some blank => stopsAt_newline some blank rest,
    tokensOf_blank rfl rest]

namespace Source

/-- The functions of two texts, one below the other, are the functions of both. -/
theorem parse_below {upper lower : String} {above below : Program}
    (first : parse upper = .ok above) (second : parse lower = .ok below) :
    parse (upper ++ "\n" ++ lower) = .ok (above ++ below) := by
  have tokens : tokensOf (upper ++ "\n" ++ lower).toList =
      tokensOf upper.toList ++ tokensOf lower.toList := by
    rw [String.toList_append, String.toList_append, List.append_assoc]
    exact tokensOf_append_newline upper.toList lower.toList
  rw [parse_eq_ok, scan_tokens, tokens]
  exact (parse_eq_ok.mp first).append (parse_eq_ok.mp second)

end Source

namespace Outcome

theorem after_nil (o : Outcome) : o.after [] = o := rfl

theorem after_after (o : Outcome) (first then_ : List Output) :
    (o.after then_).after first = o.after (first ++ then_) := by
  unfold after
  rw [List.append_assoc]

theorem outText_after (o p : Outcome) (clock : String) :
    (o.after p.outputs).outText clock = p.outText clock ++ o.outText clock := by
  unfold outText after
  rw [List.map_append, String.join_append]

theorem errText_after (o p : Outcome) : (o.after p.outputs).errText = p.errText ++ o.errText := by
  unfold errText after
  rw [List.map_append, String.join_append]

end Outcome

namespace Session

/-- What a session makes of a written function. -/
def work (s : Session) (pinParams : Bool) (src : Source.Func) : Except Failure String :=
  (Func.ofSource src pinParams).bind s.text

/-- An earlier failure shows only in the code. -/
theorem runFuncs_failed (s : Session) (funcs : List (String × Except Failure Func)) :
    s.runFuncs true funcs = ⟨(s.runFuncs false funcs).outputs, 1⟩ := by
  induction funcs with
  | nil => rfl
  | cons func rest ih =>
    unfold runFuncs
    split
    · rw [ih]
      rfl
    · split
      · rfl
      · rw [ih]
        rfl

theorem runFuncs_ok (s : Session) (failed : Bool) {func : String × Except Failure Func}
    {text : String} (result : func.2.bind s.text = .ok text)
    (rest : List (String × Except Failure Func)) :
    s.runFuncs failed (func :: rest) = (s.runFuncs failed rest).after
      (s.progress func.2 ++ s.timed (quoted func.1 ++ ": ") ++ [.out text]) := by
  rw [runFuncs, result]

theorem runFuncs_error (s : Session) (failed : Bool) {func : String × Except Failure Func}
    {e : Failure} (result : func.2.bind s.text = .error e) (goesOn : endsWith e = false)
    (rest : List (String × Except Failure Func)) :
    s.runFuncs failed (func :: rest) = (s.runFuncs true rest).after
      (s.progress func.2 ++ [.err (e.message ++ "\n")]) := by
  rw [runFuncs, result]
  simp only [goesOn, Bool.false_eq_true, if_false]

/-- Later functions are worked on as if they were the only ones, if none before ends the session. -/
theorem runFuncs_append (s : Session) {funcs others : List (String × Except Failure Func)}
    (goesOn : ∀ func ∈ funcs, ∀ e, func.2.bind s.text = .error e → endsWith e = false)
    (failed : Bool) :
    s.runFuncs failed (funcs ++ others) =
      (s.runFuncs (decide ((s.runFuncs failed funcs).code ≠ 0)) others).after
        (s.runFuncs failed funcs).outputs := by
  induction funcs generalizing failed with
  | nil => cases failed <;> rfl
  | cons func rest ih =>
    have later := ih fun other member => goesOn other (List.mem_cons_of_mem _ member)
    rw [List.cons_append]
    cases result : func.2.bind s.text with
    | ok text =>
      rw [s.runFuncs_ok failed result, s.runFuncs_ok failed result, later, Outcome.after_after]
      rfl
    | error e =>
      have open_ := goesOn func List.mem_cons_self e result
      rw [s.runFuncs_error failed result open_, s.runFuncs_error failed result open_, later,
        Outcome.after_after]
      rfl

end Session

theorem resolveProgram_eq_ok {program : Source.Program} {pinParams : Bool}
    (resolves : ∀ src ∈ program, ∀ reason, Func.ofSource src pinParams ≠ .error (.fault reason)) :
    resolveProgram program pinParams =
      .ok (program.map fun src => (src.name, Func.ofSource src pinParams)) := by
  induction program with
  | nil => rfl
  | cons src rest ih =>
    have later := ih fun other member => resolves other (List.mem_cons_of_mem _ member)
    unfold resolveProgram
    split
    next reason fault => exact absurd fault (resolves src List.mem_cons_self reason)
    next =>
      rw [later]
      rfl

/-- Nothing but errors is written. -/
def Session.Silent (s : Session) : Prop := ∀ e : Entry, e.level ≠ .error → s.admits e = false

/-- Without a specification only errors are written. -/
theorem Filter.admits_empty (e : Entry) (other : e.level ≠ .error) :
    ({} : Filter).admits e = false := by
  have high : ¬ e.level.rank ≤ Level.error.rank := by
    cases level : e.level with
    | error => exact absurd level other
    | warn | info | debug | trace => decide
  simp [Filter.admits, Filter.limit, Limit.admits, high]

namespace Session

theorem timed_eq_nil {s : Session} (silent : s.Silent) (text : String) :
    s.timed text = [] := by
  unfold timed
  rw [silent _ Level.noConfusion]
  rfl

/-- A session about functions that all have a result each. -/
theorem runSource_eq {s : Session} (silent : s.Silent) {pinParams : Bool} {source : String}
    {program : Source.Program} (read : Source.parse source = .ok program)
    (works : ∀ src ∈ program, ∀ reason, s.work pinParams src ≠ .error (.fault reason)) :
    s.runSource pinParams source =
      s.runFuncs false (program.map fun src => (src.name, Func.ofSource src pinParams)) := by
  have resolves : ∀ src ∈ program, ∀ reason,
      Func.ofSource src pinParams ≠ .error (.fault reason) := by
    intro src member reason fault
    refine works src member reason ?_
    rw [work, fault]
    rfl
  unfold runSource
  rw [read]
  simp only [resolveProgram_eq_ok resolves, timed_eq_nil silent, Outcome.after_nil]

end Session

/-- An invocation that gets to work on its source text, with the settings of a session, and keeps no
journal. -/
structure Invocation.Starts (i : Invocation) (readers : Readers)
    (optionText : Except ReadFailure String) (filterSpec : String) (options : Options)
    (s : Session) : Prop where
  read : i.readOptions readers optionText = .ok options
  valid : i.settings options = .ok s.settings
  invocation : s.invocation = i
  admits : s.admits = (readers.entries filterSpec i.level?).1
  accepted : (readers.entries filterSpec i.level?).2 = []
  silent : s.Silent

theorem Invocation.Starts.run_eq {i : Invocation} {readers : Readers}
    {optionText : Except ReadFailure String} {filterSpec : String} {options : Options} {s : Session}
    (starts : i.Starts readers optionText filterSpec options s) (source : String) :
    i.run readers optionText (.ok source) filterSpec = s.runSource options.pinParams source := by
  obtain ⟨read, valid, invocation, admits, accepted, silent⟩ := starts
  have session : s = ⟨i, s.settings, (readers.entries filterSpec i.level?).1⟩ := by
    rw [← admits, ← invocation]
  unfold Invocation.run
  rw [read]
  simp only [valid, accepted, List.map_nil, Outcome.after_nil]
  rw [← session]

/-- Two source texts, one below the other, are read as the functions of both. A session about them
writes what a session about the upper one writes and then what one about the lower one writes, and
ends with code 0 if both do. This holds unless an operation has no result or the upper text ends its
session. -/
theorem Invocation.run_below {upper lower : String} {above below : Source.Program}
    (first : Source.parse upper = .ok above) (second : Source.parse lower = .ok below) :
    Source.parse (upper ++ "\n" ++ lower) = .ok (above ++ below) ∧
      ∀ (i : Invocation) (readers : Readers) (optionText : Except ReadFailure String)
        (filterSpec : String) (options : Options) (s : Session),
        i.Starts readers optionText filterSpec options s →
        (∀ src ∈ above ++ below, ∀ reason, s.work options.pinParams src ≠ .error (.fault reason)) →
        (∀ src ∈ above, ∀ e, s.work options.pinParams src = .error e → e.isFatal = false) →
        ∀ both one other,
          i.run readers optionText (.ok (upper ++ "\n" ++ lower)) filterSpec = both →
          i.run readers optionText (.ok upper) filterSpec = one →
          i.run readers optionText (.ok lower) filterSpec = other →
          (∀ clock, both.outText clock = one.outText clock ++ other.outText clock) ∧
            both.errText = one.errText ++ other.errText ∧
            (both.code = 0 ↔ one.code = 0 ∧ other.code = 0) := by
  have parsed := Source.parse_below first second
  refine ⟨parsed, ?_⟩
  intro i readers optionText filterSpec options s starts works mild both one other runBoth runOne runOther
  have worksAbove := fun src member => works src (List.mem_append_left _ member)
  have worksBelow := fun src member => works src (List.mem_append_right _ member)
  rw [starts.run_eq, s.runSource_eq starts.silent parsed works, List.map_append] at runBoth
  rw [starts.run_eq, s.runSource_eq starts.silent first worksAbove] at runOne
  rw [starts.run_eq, s.runSource_eq starts.silent second worksBelow] at runOther
  have goesOn : ∀ func ∈ above.map fun src => (src.name, Func.ofSource src options.pinParams),
      ∀ e, func.2.bind s.text = .error e → Session.endsWith e = false := by
    intro func member e failed
    obtain ⟨src, inside, rfl⟩ := List.mem_map.mp member
    cases e with
    | fault reason => exact absurd failed (worksAbove src inside reason)
    | internal | malformed | config => exact mild src inside _ failed
  rw [s.runFuncs_append goesOn, runOne] at runBoth
  by_cases clean : one.code = 0
  · rw [clean, show decide ((0 : Nat) ≠ 0) = false from rfl, runOther] at runBoth
    rw [← runBoth]
    refine ⟨fun clock => Outcome.outText_after other one clock, Outcome.errText_after other one, ?_⟩
    exact ⟨fun code => ⟨clean, code⟩, fun codes => codes.2⟩
  · rw [decide_eq_true clean, s.runFuncs_failed, runOther] at runBoth
    rw [← runBoth]
    refine ⟨fun clock => Outcome.outText_after _ one clock, Outcome.errText_after _ one, ?_⟩
    exact ⟨fun code => absurd code Nat.one_ne_zero, fun codes => absurd codes.1 clean⟩

/-- A function that jumps to nowhere, one that needs spill code with two registers, and a comment up
to the end of the text. -/
def commentedText : String :=
  "fn bad() \x7b goto x; \x7d fn sum(t0, t1, t2) \x7b t3 <- t0 + t1; t4 <- t3 + t2; ret t4; \x7d // end"

def commentedProgram : Source.Program :=
  [⟨"bad", [], [.statement (.goto "x")]⟩,
    ⟨"sum", [⟨0, none⟩, ⟨1, none⟩, ⟨2, none⟩],
      [.statement (.assign 3 (.binary .add (.temp 0) (.temp 1))),
        .statement (.assign 4 (.binary .add (.temp 3) (.temp 2))),
        .statement (.ret (some (.temp 4)))]⟩]

def zeroText : String := "fn zero() \x7b ret $0; \x7d"

def zeroProgram : Source.Program := [⟨"zero", [], [.statement (.ret (some (.const 0)))]⟩]

/-- An allocation with two registers. -/
def twoRegisters : Session :=
  ⟨⟨"sum.ir", .allocation, some 2, false, none, false, false, false⟩, { colors := 2 },
    ({} : Filter).admits⟩

theorem commentedText_below :
    ∃ options, twoRegisters.invocation.Starts .standard (.ok "") "" options twoRegisters ∧
      (∀ src ∈ commentedProgram ++ zeroProgram, ∀ reason,
        twoRegisters.work options.pinParams src ≠ .error (.fault reason)) ∧
      (∀ src ∈ commentedProgram, ∀ e,
        twoRegisters.work options.pinParams src = .error e → e.isFatal = false) ∧
      Source.parse (commentedText ++ "\n" ++ zeroText) = .ok (commentedProgram ++ zeroProgram) ∧
      ∃ both one other,
        twoRegisters.invocation.run .standard (.ok "") (.ok (commentedText ++ "\n" ++ zeroText)) "" =
          both ∧
        twoRegisters.invocation.run .standard (.ok "") (.ok commentedText) "" = one ∧
        twoRegisters.invocation.run .standard (.ok "") (.ok zeroText) "" = other ∧
        (∀ clock, both.outText clock = one.outText clock ++ other.outText clock) ∧
        both.errText = one.errText ++ other.errText ∧
        (both.code = 0 ↔ one.code = 0 ∧ other.code = 0) := by
  have nothing : Filter.parse "" = ({}, []) := by decide +kernel
  have admits : twoRegisters.admits =
      (Readers.standard.entries "" twoRegisters.invocation.level?).1 := by
    simp only [Readers.standard, nothing]
    rfl
  have starts : twoRegisters.invocation.Starts .standard (.ok "") "" { colors := 2 } twoRegisters :=
    ⟨by decide +kernel, by decide +kernel, rfl, admits, by decide +kernel, Filter.admits_empty⟩
  have open_ : ∀ src ∈ commentedProgram ++ zeroProgram,
      (twoRegisters.work false src).mapError Session.endsWith ≠ .error true := by
    decide +kernel
  have works : ∀ src ∈ commentedProgram ++ zeroProgram, ∀ reason,
      twoRegisters.work false src ≠ .error (.fault reason) := by
    intro src member reason fault
    refine open_ src member ?_
    rw [fault]
    rfl
  have mild : ∀ src ∈ commentedProgram, ∀ e,
      twoRegisters.work false src = .error e → e.isFatal = false := by
    intro src member e failed
    cases e with
    | internal func reason state =>
      refine absurd ?_ (open_ src (List.mem_append_left _ member))
      rw [failed]
      rfl
    | malformed | config | fault => rfl
  have first : Source.parse commentedText = .ok commentedProgram :=
    Source.parse_eq_run.mpr (by decide +kernel)
  have second : Source.parse zeroText = .ok zeroProgram :=
    Source.parse_eq_run.mpr (by decide +kernel)
  obtain ⟨parsed, composed⟩ := Invocation.run_below first second
  exact ⟨_, starts, works, mild, parsed, _, _, _, rfl, rfl, rfl,
    composed _ _ _ _ _ _ starts works mild _ _ _ rfl rfl rfl⟩

end RegisterColoring
