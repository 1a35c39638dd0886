import RegisterColoring.Proofs.Acceptance
import RegisterColoring.Proofs.Agreement
import RegisterColoring.Proofs.CheckedColoring
import RegisterColoring.Proofs.Limits
import RegisterColoring.Proofs.Rounds
import RegisterColoring.Proofs.Selection
import RegisterColoring.Proofs.Spelling

namespace RegisterColoring

namespace Checked

/-- Draws fail only at the last number. -/
theorem drawn_agrees {α : Type} {f : Func} (room : f.nextTemp ≤ maxIndex) (next : Nat) (a : α) :
    Agrees (f.drawn next a) (f.drawn next a) := by
  unfold Func.drawn
  split
  · exact .ok _
  · exact .error (Nat.max_eq_right room)

section Derived

variable {f : Func} (derived : f.Derived)
include derived

theorem analyze_agrees (bound : Nat) :
    Agrees (Liveness.analyzeM bound f) (Liveness.analyze bound f) := by
  refine .of_lifts (lifts_analyze derived.wellFormed derived.numbered bound) fun e run => ?_
  rw [Liveness.analyze_error run]
  trivial

theorem eliminate_agrees (bound : Nat) :
    (DeadCode.eliminateM bound f : Func × Except Halt DeadCode).1 = (DeadCode.eliminate bound f).1 ∧
      Agrees (DeadCode.eliminateM bound f).2 (DeadCode.eliminate bound f).2 := by
  rw [DeadCode.eliminateM, lifts_eliminateFrom derived.wellFormed derived.numbered]
  refine ⟨rfl, .of_lifts rfl fun e run => ?_⟩
  obtain ⟨_, _, failed⟩ := DeadCode.eliminateFrom_trims derived.wellFormed
    (show DeadCode.eliminate bound f = (_, _) from rfl)
  rcases failed e run with unsettled | unsettled
  · rw [unsettled]
    trivial
  · rw [unsettled]
    trivial

theorem pruneUnreachable_agrees : Agrees f.pruneUnreachableM f.pruneUnreachable := by
  refine .of_lifts (lifts_pruneUnreachable derived.wellFormed derived.numbered) fun e run => ?_
  obtain ⟨n, g, _, pruned, _⟩ := Func.pruneUnreachable_prunes derived.wellFormed
  cases pruned.symm.trans run

theorem spill_agrees (temps : List Temp) : Agrees (f.spillM temps) (f.spill temps) := by
  obtain ⟨tempRoom, slotRoom⟩ := derived.withinLimits
  unfold Func.spill
  by_cases none : temps = []
  · subst none
    exact .ok (∅, f)
  · rw [Func.spillM_eq f none, Func.spillM_eq f none]
    split
    · exact (drawn_agrees (f := f.withSlots temps) tempRoom _ _).map _
    · exact .error (Nat.max_eq_right slotRoom)

theorem freshTemp_agrees : Agrees f.freshTempM f.freshTemp := by
  unfold Func.freshTemp Func.freshTempM
  split
  · exact .ok _
  · rename_i full
    exact .error (Nat.le_antisymm derived.withinLimits.temps (Nat.not_lt.mp full))

theorem freshSpillTemp_agrees : Agrees f.freshSpillTempM f.freshSpillTemp :=
  (freshTemp_agrees derived).bind fun _ _ => .ok _

theorem allocSlot_agrees : Agrees f.allocSlotM f.allocSlot := by
  unfold Func.allocSlot Func.allocSlotM
  split
  · exact .ok _
  · rename_i full
    exact .error (Nat.le_antisymm derived.withinLimits.slots (Nat.not_lt.mp full))

theorem build_agrees {bound : Nat} {l : Liveness} (run : Liveness.analyze bound f = .ok l) :
    Agrees (Interference.buildM f l) (Interference.build f l) := by
  refine .of_lifts (lifts_build derived.numbered run) fun e failed => ?_
  obtain ⟨g, built, _⟩ := Interference.build_represents derived.wellFormed run
  cases built.symm.trans failed

end Derived

theorem checkPins_agrees {g : Interference} (valid : g.graph.Valid) (colors : Nat) (func : String) :
    Agrees (g.checkPinsM colors func) (g.checkPins colors func) := by
  refine .of_lifts (lifts_checkPins valid colors func) fun e run => ?_
  obtain ⟨_, ⟨_, _, rfl⟩ | ⟨_, _, _, rfl⟩⟩ := Interference.checkPins_error run
  · trivial
  · trivial

theorem color_agrees {g : Interference} (valid : g.graph.Valid) (cost : Temp → Cost) (colors : Nat)
    (f : Func) : Agrees (g.colorM cost colors f) (g.color cost colors f) := by
  refine .of_lifts (lifts_color valid cost colors f) fun e run => ?_
  rcases Interference.color_cases valid cost colors f with
    ⟨c, found, _⟩ | ⟨_, _, _, _, _, _, failed⟩
  · cases run.symm.trans found
  · cases run.symm.trans failed
    trivial

section Allocation

variable {f : Func}

theorem runDeadCode_agrees (derived : f.Derived) (s : Settings) :
    (f.runDeadCodeM s : Func × Except Halt (Liveness × List Eliminated)).1 = (f.runDeadCode s).1 ∧
      Agrees (f.runDeadCodeM s).2 (f.runDeadCode s).2 := by
  unfold Func.runDeadCode Func.runDeadCodeM
  cases valid : s.validate with
  | error e =>
    obtain ⟨reason, rfl⟩ := Settings.validate_error valid
    exact ⟨rfl, .error trivial⟩
  | ok =>
    simp only
    split
    · obtain ⟨left, outcome⟩ := eliminate_agrees derived s.maxIterations
      exact ⟨left, outcome.map _⟩
    · exact ⟨rfl, (analyze_agrees derived s.maxIterations).map _⟩

theorem attempt_agrees (derived : f.Derived) (s : Settings) :
    Agrees (f.attemptM s) (f.attempt s) := by
  obtain ⟨left, outcome⟩ := runDeadCode_agrees derived s
  -- What elimination leaves is derived too, so the stages that follow agree on it.
  have after := derived.runDeadCode s
  have found : (f.runDeadCodeM s : Func × Except Halt (Liveness × List Eliminated)) =
      ((f.runDeadCode s).1, (f.runDeadCodeM s).2) := Prod.ext left rfl
  rw [Func.attempt_def]
  unfold Func.attemptM
  rw [found]
  refine outcome.bind fun pair found => ?_
  obtain ⟨l, gone⟩ := pair
  have prepares := Func.runDeadCode_ok derived.wellFormed (Prod.ext rfl found)
  refine (build_agrees after prepares.liveness).bind fun graph built => ?_
  obtain ⟨g, run, represents⟩ :=
    Interference.build_represents after.wellFormed prepares.liveness
  cases built.symm.trans run
  refine (checkPins_agrees represents.valid s.colors _).bind fun _ _ => ?_
  have costs : (Pass.look (f.runDeadCode s).1.spillCostsM : Except Halt (IndexMap Cost)) =
      .ok (f.runDeadCode s).1.spillCosts := finds_spillCosts after.wellFormed after.numbered
  rw [costs]
  exact (color_agrees represents.valid _ s.colors _).map _

theorem allocateFrom_agrees (derived : f.Derived) (s : Settings) (maxRounds pruned left : Nat)
    (rounds : List Round) (slots : IndexMap Slot) :
    Agrees (Allocation.allocateFromM s maxRounds pruned left rounds slots f)
      (Allocation.allocateFrom s maxRounds pruned left rounds slots f) := by
  induction left generalizing rounds slots f with
  | zero => exact .error trivial
  | succ left ih =>
    rw [Allocation.allocateFrom_succ]
    refine (attempt_agrees derived s).bind fun a attempt => ?_
    have middle := derived.attempt attempt
    refine (spill_agrees middle _).bind fun result spills => ?_
    obtain ⟨spilled, g⟩ := result
    simp only
    split
    · exact .ok _
    · -- The next round starts from what this one has spilled.
      exact ih (.spill middle spills) _ _

theorem allocate_agrees (derived : f.Derived) (s : Settings) :
    Agrees (f.allocateM s) (f.allocate s) := by
  have valid : Agrees (Pass.lift s.validate) s.validate := .of_lifts (.lift _) fun e failed => by
    obtain ⟨reason, rfl⟩ := Settings.validate_error failed
    trivial
  rw [Func.allocate_def]
  refine valid.bind fun _ _ => (pruneUnreachable_agrees derived).bind fun result pruned => ?_
  exact allocateFrom_agrees (.prune derived pruned) s _ _ _ _ _

end Allocation

end Checked

namespace Func

/-- Every pass agrees with its checked run on the function. -/
structure Faultless (f : Func) : Prop where
  analyze : ∀ bound, Checked.Agrees (Liveness.analyzeM bound f) (Liveness.analyze bound f)
  eliminate : ∀ bound,
    (DeadCode.eliminateM bound f : Func × Except Checked.Halt DeadCode).1 =
      (DeadCode.eliminate bound f).1 ∧
    Checked.Agrees (DeadCode.eliminateM bound f).2 (DeadCode.eliminate bound f).2
  pruneUnreachable : Checked.Agrees f.pruneUnreachableM f.pruneUnreachable
  spillCosts : (f.spillCostsM : Except Checked.Halt (IndexMap Cost)) = .ok f.spillCosts
  build : ∀ bound l, Liveness.analyze bound f = .ok l →
    Checked.Agrees (Interference.buildM f l) (Interference.build f l)
  checkPins : ∀ bound l g, Liveness.analyze bound f = .ok l → Interference.build f l = .ok g →
    ∀ colors, Checked.Agrees (g.checkPinsM colors f.name) (g.checkPins colors f.name)
  color : ∀ bound l g, Liveness.analyze bound f = .ok l → Interference.build f l = .ok g →
    ∀ cost colors, Checked.Agrees (g.colorM cost colors f) (g.color cost colors f)
  spill : ∀ temps, Checked.Agrees (f.spillM temps) (f.spill temps)
  freshTemp : Checked.Agrees f.freshTempM f.freshTemp
  freshSpillTemp : Checked.Agrees f.freshSpillTempM f.freshSpillTemp
  allocSlot : Checked.Agrees f.allocSlotM f.allocSlot
  allocate : ∀ s, Checked.Agrees (f.allocateM s) (f.allocate s)

theorem Derived.faultless {f : Func} (derived : f.Derived) : f.Faultless := by
  have valid : ∀ bound l g, Liveness.analyze bound f = .ok l → Interference.build f l = .ok g →
      g.graph.Valid := by
    intro bound l g run built
    obtain ⟨h, found, represents⟩ := Interference.build_represents derived.wellFormed run
    cases built.symm.trans found
    exact represents.valid
  exact
    { analyze := Checked.analyze_agrees derived
      eliminate := Checked.eliminate_agrees derived
      pruneUnreachable := Checked.pruneUnreachable_agrees derived
      spillCosts := Checked.finds_spillCosts derived.wellFormed derived.numbered
      build := fun bound l run => Checked.build_agrees derived run
      checkPins := fun bound l g run built colors =>
        Checked.checkPins_agrees (valid bound l g run built) colors f.name
      color := fun bound l g run built cost colors =>
        Checked.color_agrees (valid bound l g run built) cost colors f
      spill := Checked.spill_agrees derived
      freshTemp := Checked.freshTemp_agrees derived
      freshSpillTemp := Checked.freshSpillTemp_agrees derived
      allocSlot := Checked.allocSlot_agrees derived
      allocate := Checked.allocate_agrees derived }

/-- The function `g` is what one pass leaves of `f`. -/
def Leaves (f g : Func) : Prop :=
  (∃ op : Operation, op.apply f = .ok g) ∨ ∃ s alloc, f.allocate s = .ok alloc ∧ alloc.func = g

theorem Derived.leaves {f g : Func} (derived : f.Derived) (leaves : f.Leaves g) : g.Derived := by
  rcases leaves with ⟨op, run⟩ | ⟨s, alloc, run, rfl⟩
  · rcases op.apply_derived derived with ⟨h, found, next⟩ | failed
    · cases found.symm.trans run
      exact next
    · cases failed.symm.trans run
  · exact derived.allocate run

end Func

/-- Nothing goes wrong unnoticed in a program that was read. A function of it that fails a check is
reported as malformed, one that passes them overflows a counter exactly if it mentions the last temp
or the last slot, and every other one is resolved. On what is resolved and on what passes leave of
it, passes look for nothing that does not exist, and they overflow only where a fresh temp or a slot
is asked for and the counter stands at the last number. -/
theorem Source.faultless_of_parse {source : String} {program : Source.Program}
    (parsed : Source.parse source = .ok program) {src : Source.Func} (member : src ∈ program)
    (automatic : Bool) :
    ((∃ reason, Func.ofSource src automatic = .error (.malformed src.name reason)) ↔
        ¬ src.Accepted) ∧
      (Func.ofSource src automatic = .error (.fault .counterExhausted) ↔
        src.Accepted ∧ src.MentionsLast) ∧
      ((∃ f, Func.ofSource src automatic = .ok f) ↔
        src.Accepted ∧ ¬ src.MentionsLast) ∧
      ∀ f g, Func.ofSource src automatic = .ok f → Relation.ReflTransGen Func.Leaves f g →
        g.Faultless := by
  have passes : ∀ f g, Func.ofSource src automatic = .ok f →
      Relation.ReflTransGen Func.Leaves f g → g.Faultless := by
    intro f g resolved left
    have derived : g.Derived := by
      induction left with
      | refl => exact .source resolved
      | tail _ step ih => exact ih.leaves step
    exact derived.faultless
  obtain ⟨temps, slots⟩ := Source.parse_inRange parsed member
  rcases Source.Func.ofSource_cases temps slots automatic with
    ⟨refused, reason, run⟩ | ⟨accepted, full, run⟩ | ⟨accepted, room, f, run⟩
  · simp [run, refused]
  · simp [run, accepted, full]
  · refine ⟨?_, ?_, ?_, passes⟩
    · simp [run, accepted]
    · simp [run, room]
    · simp [run, accepted, room]

/-- A function that overflows, one that is malformed though it mentions the last temp, and one that
mentions the last temp but one and has a block that nothing reaches. -/
def lastText : String :=
  "fn last() \x7b t0 <- &slot4294967295; ret; \x7d fn lost(t4294967295) \x7b goto away; \x7d " ++
  "fn edge(t0, t4294967294) \x7b t0 <- t0 + t4294967294; ret t0; ret; \x7d"

def lastSource : Source.Func :=
  ⟨"last", [], [.statement (.assign 0 (.slotAddr 4294967295)), .statement (.ret none)]⟩

def lostSource : Source.Func := ⟨"lost", [⟨4294967295, none⟩], [.statement (.goto "away")]⟩

def edgeSource : Source.Func :=
  ⟨"edge", [⟨0, none⟩, ⟨4294967294, none⟩],
    [.statement (.assign 0 (.binary .add (.temp 0) (.temp 4294967294))),
      .statement (.ret (some (.temp 0))), .statement (.ret none)]⟩

theorem lastText_faultless : ∃ f g,
    Source.parse lastText = .ok [lastSource, lostSource, edgeSource] ∧
    (lastSource.Accepted ∧ lastSource.MentionsLast) ∧
    (¬ lostSource.Accepted ∧ lostSource.MentionsLast) ∧
    Func.ofSource edgeSource false = .ok f ∧ f.pruneUnreachable = .ok (1, g) ∧ g.Faultless ∧
    g.nextTemp = maxIndex ∧
    (g.allocateM { colors := 1 }).map (·.rounds.length) =
      .error (Checked.Halt.freshTemp maxIndex) ∧
    (g.allocate { colors := 2 }).map (·.rounds.length) = .ok 1 := by
  have first : (Source.State.top []).run (tokensOf (
      "fn last() \x7b t0 <- &slot4294967295; ret; \x7d fn lost(t4294967295) \x7b goto away; \x7d ").toList) =
      some (.top [lastSource, lostSource]) := by decide +kernel
  have second : (Source.State.top [lastSource, lostSource]).run (tokensOf
      "fn edge(t0, t4294967294) \x7b t0 <- t0 + t4294967294; ret t0; ret; \x7d".toList) =
      some (.top [lastSource, lostSource, edgeSource]) := by decide +kernel
  have read : Source.parse lastText = .ok [lastSource, lostSource, edgeSource] := by
    rw [Source.parse_eq_run, scan_tokens]
    exact (Source.State.run_text (by decide +kernel) first _).trans second
  have result : (Func.ofSource edgeSource false).bind (fun f => f.pruneUnreachable.map fun r =>
      (r.1, r.2.nextTemp, (r.2.allocateM { colors := 1 }).map (·.rounds.length),
        (r.2.allocate { colors := 2 }).map (·.rounds.length))) =
      .ok (1, maxIndex, .error (Checked.Halt.freshTemp maxIndex), .ok 1) := by decide +kernel
  obtain ⟨f, resolved, result⟩ := bind_eq_ok.mp result
  obtain ⟨⟨n, g⟩, pruned, values⟩ := map_eq_ok.mp result
  simp only [Prod.mk.injEq] at values
  obtain ⟨rfl, counter, small, large⟩ := values
  obtain ⟨_, last, _⟩ := Source.faultless_of_parse read (by simp : lastSource ∈ _) false
  obtain ⟨lost, _⟩ := Source.faultless_of_parse read (by simp : lostSource ∈ _) false
  obtain ⟨_, _, _, edge⟩ := Source.faultless_of_parse read (by simp : edgeSource ∈ _) false
  refine ⟨f, g, read, last.mp (by decide +kernel),
    ⟨lost.mp ⟨.unknownLabel "away", by decide +kernel⟩, .inl (by decide)⟩, resolved, pruned,
    edge f g resolved ?_, counter, small, large⟩
  exact .single (.inl ⟨.prune, map_eq_ok.mpr ⟨_, pruned, rfl⟩⟩)

end RegisterColoring
