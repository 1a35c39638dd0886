import RegisterColoring.Proofs.Limits
import RegisterColoring.Proofs.Rounds
import RegisterColoring.Proofs.SpillDeadCode

namespace RegisterColoring

/-- An elimination that finds nothing leaves the function as it is. -/
theorem DeadCode.eliminate_of_none {f : Func} {bound : Nat} {l : Liveness}
    (run : Liveness.analyze bound f = .ok l) (none : f.deadCode l = []) :
    eliminate bound f = (f, .ok ⟨l, [], 1⟩) := by
  cases bound with
  | zero => cases run
  | succ bound =>
    exact (eliminateFrom_of_ok run).trans (if_pos (List.isEmpty_iff.mpr none))

theorem Func.eliminated_of_attempt {f : Func} {s : Settings} {l : Liveness} {a : Attempt}
    (on : s.deadCode = true) (run : Liveness.analyze s.maxIterations f = .ok l)
    (none : f.deadCode l = []) (attempt : f.attempt s = .ok a) : a.eliminated = [] := by
  rw [Func.attempt_def] at attempt
  cases ended : f.runDeadCode s with
  | mk g outcome =>
    simp only [ended] at attempt
    obtain ⟨⟨found, gone⟩, result, attempt⟩ := bind_eq_ok.mp attempt
    obtain ⟨_, _, attempt⟩ := bind_eq_ok.mp attempt
    obtain ⟨_, _, attempt⟩ := bind_eq_ok.mp attempt
    obtain ⟨_, _, rfl⟩ := map_eq_ok.mp attempt
    subst result
    cases valid : s.validate with
    | error e =>
      rw [Func.runDeadCode_of_error valid] at ended
      cases ended
    | ok =>
      rw [Func.runDeadCode_of_ok valid, if_pos on, DeadCode.eliminate_of_none run none] at ended
      cases ended
      rfl

/-- What an allocation with elimination passes through: after the first round there is no dead code,
and no round after the first has removed any. -/
structure Tidy (s : Settings) (rounds : List Round) (f : Func) : Prop where
  derived : f.Derived
  clean : rounds ≠ [] → ∃ l, Liveness.analyze s.maxIterations f = .ok l ∧ f.deadCode l = []
  later : ∀ r ∈ rounds.tail, r.eliminated = []

namespace Tidy

variable {s : Settings} {rounds : List Round} {f g : Func} {a : Attempt} {spilled : IndexMap Slot}

theorem eliminated (tidy : Tidy s rounds f) (on : s.deadCode = true) (attempt : f.attempt s = .ok a)
    (number : Nat) : ∀ r ∈ (rounds ++ [a.round number spilled]).tail, r.eliminated = [] := by
  cases rounds with
  | nil => exact fun r member => absurd member List.not_mem_nil
  | cons first rest =>
    obtain ⟨l, run, none⟩ := tidy.clean (List.cons_ne_nil first rest)
    rw [List.cons_append, List.tail_cons, List.forall_mem_append, List.forall_mem_singleton]
    exact ⟨tidy.later, Func.eliminated_of_attempt on run none attempt⟩

theorem next (tidy : Tidy s rounds f) (on : s.deadCode = true) (attempt : f.attempt s = .ok a)
    (spill : a.func.spill a.coloring.spilled.toList = .ok (spilled, g)) (number : Nat) :
    Tidy s (rounds ++ [a.round number spilled]) g := by
  have derived := tidy.derived.attempt attempt
  have prepares := (Func.attempt_ok tidy.derived.wellFormed attempt).prepares
  have spills := Func.spill_ok spill
  obtain ⟨m, again, _⟩ := spills.analyze_ok derived.wellFormed prepares.liveness
  have lively := spills.lively derived.wellFormed prepares.liveness again (prepares.lively on)
  exact ⟨.spill derived spill, fun _ => ⟨m, again, (Func.deadCode_eq_nil_iff again).mpr lively⟩,
    tidy.eliminated on attempt number⟩

end Tidy

theorem Reached.tidy {s : Settings} {f₀ f : Func} {rounds : List Round} {slots : IndexMap Slot}
    (reached : Reached s f₀ rounds slots f) (derived : f₀.Derived) (on : s.deadCode = true) :
    Tidy s rounds f := by
  induction reached with
  | start =>
    exact ⟨derived, fun some => absurd rfl some, fun r member => absurd member List.not_mem_nil⟩
  | next _ attempt spill _ ih => exact ih.next on attempt spill _

theorem Func.Derived.later_rounds {f : Func} {s : Settings} {alloc : Allocation}
    (derived : f.Derived) (on : s.deadCode = true) (run : f.allocate s = .ok alloc) :
    ∀ r ∈ alloc.rounds.tail, r.eliminated = [] := by
  obtain ⟨n, g, r, pruned, _⟩ := Func.pruneUnreachable_prunes derived.wellFormed
  obtain ⟨rounds, slots, h, a, reached, attempt, _, rfl⟩ := Func.allocate_ok pruned run
  exact (reached.tidy (.prune derived pruned) on).eliminated on attempt _

/-- How the liveness `m` of `g` follows from the liveness `l` of `f`, if `g` is `f` with temps
spilled. -/
structure Func.LiveWithout (f : Func) (l : Liveness) (temps : List Temp) (slots : IndexMap Slot)
    (g : Func) (m : Liveness) : Prop where
  dead : f.deadCode l = [] → g.deadCode m = []
  liveIn : ∀ b, m.liveIn b = (l.liveIn b).diff (.ofList temps)
  liveOut : ∀ b, m.liveOut b = (l.liveOut b).diff (.ofList temps)
  /-- Behind an instruction itself the temps that were there before are live as they were, apart
  from spilled ones, and behind its code no others are. -/
  liveAfter : ∀ b block, f.blocks[b]? = some block → ∃ first : Nat, f.nextTemp ≤ first ∧
    g.blocks[b]? = some { block with instrs := (Spill.instrsCode slots first block.instrs).1 } ∧
    ∀ pre i rest, block.instrs = pre ++ i :: rest →
      (∀ t : Nat, t < f.nextTemp → (t ∈ m.liveAfter b (Spill.corePosition slots first pre i) ↔
        t ∈ l.liveAfter b pre.length ∧ t ∉ temps)) ∧
      m.liveAfter b (Spill.lastPosition slots first pre i) =
        (l.liveAfter b pre.length).diff (.ofList temps)

theorem Func.Spills.liveWithout {f g : Func} {temps : List Temp} {slots : IndexMap Slot}
    {bound : Nat} {l m : Liveness} (spills : f.Spills temps slots g) (wf : f.WellFormed)
    (run : Liveness.analyze bound f = .ok l) (again : Liveness.analyze bound g = .ok m) :
    f.LiveWithout l temps slots g m where
  dead none := (Func.deadCode_eq_nil_iff again).mpr
    (spills.lively wf run again ((Func.deadCode_eq_nil_iff run).mp none))
  liveIn b := (spills.boundaries_eq wf run again b).1
  liveOut b := (spills.boundaries_eq wf run again b).2
  liveAfter b block found := by
    obtain ⟨first, low, _, place⟩ := spills.place found
    refine ⟨first, low, place, fun pre i rest split => ?_⟩
    by_cases reach : b ∈ f.reachable
    · exact ⟨fun t => spills.mem_liveAfter_core wf run again reach found low place split,
        spills.liveAfter_last wf run again reach found low place split⟩
    · obtain ⟨_, _, before⟩ := Liveness.block_of_unreachable run reach
      obtain ⟨_, _, after⟩ :=
        Liveness.block_of_unreachable again (fun inside => reach (spills.reachable_eq ▸ inside))
      rw [before, after, after]
      exact ⟨fun t _ => by simp only [IndexSet.not_mem_empty, false_and], rfl⟩

/-- Whatever temps are spilled, the analysis finds what it found before without them, and if there
was no dead code there is none afterwards. So an allocation removes dead code in its first round
only. -/
theorem Func.spill_liveWithout {f : Func} (derived : f.Derived) :
    (∀ bound l temps slots g, Liveness.analyze bound f = .ok l → f.spill temps = .ok (slots, g) →
      ∃ m, Liveness.analyze bound g = .ok m ∧ m.passes ≤ l.passes ∧
        f.LiveWithout l temps slots g m) ∧
      ∀ s alloc, s.deadCode = true → f.allocate s = .ok alloc →
        ∀ r ∈ alloc.rounds.tail, r.eliminated = [] := by
  refine ⟨fun bound l temps slots g run spill => ?_, fun s alloc on => derived.later_rounds on⟩
  have spills := Func.spill_ok spill
  obtain ⟨m, again, few⟩ := spills.analyze_ok derived.wellFormed run
  exact ⟨m, again, few, spills.liveWithout derived.wellFormed run again⟩

/-- A sum of three parameters, and a value that nobody reads. -/
def slackSource : Source.Func :=
  ⟨"slack", [⟨0, none⟩, ⟨1, none⟩, ⟨2, none⟩],
    [.statement (.assign 3 (.move (.const 7))),
      .statement (.assign 4 (.binary .add (.temp 0) (.temp 1))),
      .statement (.assign 5 (.binary .add (.temp 4) (.temp 2))),
      .statement (.ret (some (.temp 5)))]⟩

/-- With two registers there are four rounds, and the first one removes the unread value. Without
that value nothing is dead, also if a parameter and a sum are spilled. -/
theorem slackSource_liveWithout : ∃ f alloc h d l slots g m,
    Func.ofSource slackSource false = .ok f ∧ f.allocate { colors := 2 } = .ok alloc ∧
    alloc.rounds.map (·.eliminated.length) = [1, 0, 0, 0] ∧
    (∀ r ∈ alloc.rounds.tail, r.eliminated = []) ∧ DeadCode.eliminate 2 f = (h, .ok d) ∧
    Liveness.analyze 2 h = .ok l ∧ h.deadCode l = [] ∧ h.spill [0, 4] = .ok (slots, g) ∧
    Liveness.analyze 2 g = .ok m ∧ g.deadCode m = [] ∧ h.LiveWithout l [0, 4] slots g m := by
  have result : (Func.ofSource slackSource false).bind (fun f =>
      (f.allocate { colors := 2 }).bind fun alloc => (DeadCode.eliminate 2 f).2.bind fun d =>
        ((DeadCode.eliminate 2 f).1.spill [0, 4]).map fun _ =>
          (alloc.rounds.map (·.eliminated.length), (DeadCode.eliminate 2 f).1.deadCode d.liveness)) =
      .ok ([1, 0, 0, 0], []) := by decide +kernel
  obtain ⟨f, resolved, rest⟩ := bind_eq_ok.mp result
  obtain ⟨alloc, allocated, rest⟩ := bind_eq_ok.mp rest
  obtain ⟨d, ended, rest⟩ := bind_eq_ok.mp rest
  obtain ⟨⟨slots, g⟩, spill, values⟩ := map_eq_ok.mp rest
  obtain ⟨counts, none⟩ := Prod.mk.inj values
  have source : f.Derived := .source resolved
  have eliminated : DeadCode.eliminate 2 f = ((DeadCode.eliminate 2 f).1, .ok d) :=
    Prod.ext rfl ended
  have run := ((DeadCode.eliminateFrom_trims source.wellFormed eliminated).2.1 d rfl).1
  obtain ⟨m, again, _, live⟩ := (Func.spill_liveWithout (.eliminate source eliminated)).1 2
    d.liveness [0, 4] slots g run spill
  exact ⟨f, alloc, _, d, d.liveness, slots, g, m, resolved, allocated, counts,
    (Func.spill_liveWithout source).2 _ alloc rfl allocated, eliminated, run, none, spill, again,
    live.dead none, live⟩

end RegisterColoring
