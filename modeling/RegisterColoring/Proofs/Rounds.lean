import RegisterColoring.Proofs.ProgressSteps

namespace RegisterColoring

namespace Allocation

/-- A successful allocation ends with a round that spills nothing. -/
theorem allocateFrom_ok {s : Settings} {maxRounds pruned left : Nat} {f₀ f : Func}
    {rounds : List Round} {slots : IndexMap Slot} {alloc : Allocation}
    (reached : Reached s f₀ rounds slots f)
    (run : allocateFrom s maxRounds pruned left rounds slots f = .ok alloc) :
    ∃ rounds slots f a, Reached s f₀ rounds slots f ∧ f.attempt s = .ok a ∧
      a.coloring.spilled.toList = [] ∧
      alloc = ⟨a.func, assignmentOf a.coloring.colors slots,
        rounds ++ [a.round (rounds.length + 1) ∅], pruned⟩ := by
  induction left generalizing rounds slots f with
  | zero => cases run
  | succ left ih =>
    rw [allocateFrom_succ] at run
    obtain ⟨a, attempt, run⟩ := bind_eq_ok.mp run
    obtain ⟨⟨spilled, g⟩, spill, run⟩ := bind_eq_ok.mp run
    simp only at run
    split at run
    · rename_i empty
      obtain ⟨none, rfl, rfl⟩ := Func.Spills.of_isEmpty spill empty
      cases run
      exact ⟨rounds, slots, f, a, reached, attempt, none, rfl⟩
    · rename_i some
      exact ih (.next reached attempt spill (by simpa using some)) run

/-- An allocation fails in some round, or runs out of rounds. -/
theorem allocateFrom_error {s : Settings} {maxRounds pruned left : Nat} {f₀ f : Func}
    {rounds : List Round} {slots : IndexMap Slot} {e : Failure}
    (reached : Reached s f₀ rounds slots f)
    (run : allocateFrom s maxRounds pruned left rounds slots f = .error e) :
    (∃ last slots f, Reached s f₀ last slots f ∧ last.length = rounds.length + left ∧
        e = .internal f.name (.allocationUnsettled maxRounds) none) ∨
      ∃ last slots f, Reached s f₀ last slots f ∧
        (f.attempt s = .error e ∨ e = .fault .counterExhausted) := by
  induction left generalizing rounds slots f with
  | zero =>
    cases run
    exact Or.inl ⟨rounds, slots, f, reached, rfl, rfl⟩
  | succ left ih =>
    rw [allocateFrom_succ] at run
    rcases bind_eq_error.mp run with failed | ⟨a, attempt, run⟩
    · exact Or.inr ⟨rounds, slots, f, reached, Or.inl failed⟩
    · rcases bind_eq_error.mp run with failed | ⟨⟨spilled, g⟩, spill, run⟩
      · exact Or.inr ⟨rounds, slots, f, reached, Or.inr (Func.spill_error failed)⟩
      · simp only at run
        split at run
        · cases run
        · rename_i some
          rcases ih (.next reached attempt spill (by simpa using some)) run with
            ⟨last, slots, f, later, length, same⟩ | failed
          · refine Or.inl ⟨last, slots, f, later, ?_, same⟩
            rw [length, List.length_append, List.length_singleton]
            omega
          · exact Or.inr failed

end Allocation

theorem Settings.validate_error {s : Settings} {e : Failure} (run : s.validate = .error e) :
    ∃ reason, e = .config reason := by
  unfold Settings.validate at run
  split at run
  · cases run
    exact ⟨_, rfl⟩
  · split at run
    · cases run
      exact ⟨_, rfl⟩
    · cases run

/-- The rounds begin with what pruning leaves of the function. -/
theorem Func.rounds_start {src : Source.Func} {automatic : Bool} {f : Func}
    (source : Func.ofSource src automatic = .ok f) :
    ∃ n g r, f.pruneUnreachable = .ok (n, g) ∧ f.Prunes g r ∧ Progress g [] ∅ g := by
  have wf := Func.ofSource_wellFormed source
  obtain ⟨pins, blocks, _, _, built⟩ := Func.ofSource_ok source
  obtain ⟨n, g, r, pruned, prunes⟩ := Func.pruneUnreachable_prunes wf
  refine ⟨n, g, r, pruned, prunes, .start (prunes.wellFormed wf)
    (fun c bound => prunes.mem_reachable wf bound) ?_ ?_⟩
  · rw [prunes.fields]
    exact built.spillTemps
  · rw [prunes.fields]
    exact built.stackParams

theorem Func.allocate_ok {f g : Func} {s : Settings} {n : Nat} {alloc : Allocation}
    (pruned : f.pruneUnreachable = .ok (n, g)) (run : f.allocate s = .ok alloc) :
    ∃ rounds slots h a, Reached s g rounds slots h ∧ h.attempt s = .ok a ∧
      a.coloring.spilled.toList = [] ∧
      alloc = ⟨a.func, Allocation.assignmentOf a.coloring.colors slots,
        rounds ++ [a.round (rounds.length + 1) ∅], n⟩ := by
  rw [Func.allocate_def] at run
  obtain ⟨_, _, run⟩ := bind_eq_ok.mp run
  rw [pruned] at run
  exact Allocation.allocateFrom_ok .start run

theorem Func.allocate_error {f g : Func} {s : Settings} {n : Nat} {e : Failure}
    (pruned : f.pruneUnreachable = .ok (n, g)) (run : f.allocate s = .error e) :
    s.validate = .error e ∨
      (∃ rounds slots h, Reached s g rounds slots h ∧ rounds.length = s.roundBound g ∧
        e = .internal h.name (.allocationUnsettled (s.roundBound g)) none) ∨
      ∃ rounds slots h, Reached s g rounds slots h ∧
        (h.attempt s = .error e ∨ e = .fault .counterExhausted) := by
  rw [Func.allocate_def] at run
  rcases bind_eq_error.mp run with invalid | ⟨_, _, run⟩
  · exact Or.inl invalid
  · rw [pruned] at run
    have failed := Allocation.allocateFrom_error .start run
    simpa using Or.inr failed

/-- There are more rounds than temps, so without a bound of its own an allocation only fails in one
of its rounds. -/
theorem Func.allocate_error_of_unbounded {f g : Func} {s : Settings} {n : Nat} {e : Failure}
    (first : Progress g [] ∅ g) (pruned : f.pruneUnreachable = .ok (n, g))
    (unbounded : s.maxRounds = none) (run : f.allocate s = .error e) :
    s.validate = .error e ∨ e = .fault .counterExhausted ∨
      ∃ rounds slots h, Reached s g rounds slots h ∧ h.attempt s = .error e := by
  rcases Func.allocate_error pruned run with invalid | ⟨rounds, slots, h, reached, length, _⟩ |
    ⟨rounds, slots, h, reached, failed | fault⟩
  · exact Or.inl invalid
  · have bound := (reached.progress first).rounds_le
    rw [length, Settings.roundBound, unbounded, Option.getD_none] at bound
    omega
  · exact Or.inr (Or.inr ⟨rounds, slots, h, reached, failed⟩)
  · exact Or.inr (Or.inl fault)

/-- Rounds that spill each temp of `g` at most once, and never a pinned temp or one that spill code
introduced on the way to `h`. -/
structure Round.Orderly (g h : Func) (rounds : List Round) : Prop where
  disjoint : rounds.Pairwise fun r q =>
    ∀ t, r.spilled.contains t = true → q.spilled.contains t = false
  temps : ∀ r ∈ rounds, ∀ t, r.spilled.contains t = true →
    t ∈ g.allTemps ∧ g.pinned.contains t = false ∧ t ∉ h.spillTemps

theorem Progress.orderly {f₀ f : Func} {rounds : List Round} {slots : IndexMap Slot}
    (progress : Progress f₀ rounds slots f) : Round.Orderly f₀ f rounds where
  disjoint := progress.disjoint
  temps r member t inside := by
    obtain ⟨slot, found⟩ := IndexMap.contains_iff.mp inside
    obtain ⟨old, unpinned, _⟩ := progress.origin t slot ((progress.spilled t slot).mpr
      ⟨r, member, found⟩)
    refine ⟨old, unpinned, fun spill => ?_⟩
    have small := progress.initial.temps t old
    have large := progress.fresh t spill
    omega

/-- A last round that spills nothing keeps the rounds orderly. -/
theorem Round.Orderly.append {g h : Func} {rounds : List Round} (orderly : Round.Orderly g h rounds)
    {last : Round} (empty : last.spilled = ∅) : Round.Orderly g h (rounds ++ [last]) where
  disjoint := by
    refine List.pairwise_append.mpr ⟨orderly.disjoint, List.pairwise_singleton _ _, ?_⟩
    intro r _ q final t _
    rw [List.mem_singleton.mp final, empty]
    rfl
  temps r member t inside := by
    rcases List.mem_append.mp member with before | final
    · exact orderly.temps r before t inside
    · rw [List.mem_singleton.mp final, empty] at inside
      cases inside

/-- How the allocation of `f` proceeds once pruning has left `g`. -/
structure Func.Settles (f g : Func) (s : Settings) : Prop where
  /-- Before it ends, every round spills, and spills other temps. -/
  reached : ∀ rounds slots h, Reached s g rounds slots h → Round.Orderly g h rounds ∧
    (∀ r ∈ rounds, r.spilled.isEmpty = false) ∧ rounds.length ≤ g.allTemps.size
  /-- Only the last round of a successful allocation spills nothing. -/
  ended : ∀ a, f.allocate s = .ok a → Round.Orderly g a.func a.rounds ∧
    a.rounds.length ≤ g.allTemps.size + 1 ∧ ∃ init last, a.rounds = init ++ [last] ∧
      last.spilled.isEmpty = true ∧ ∀ r ∈ init, r.spilled.isEmpty = false
  inTime : ∀ name bound state,
    f.allocate s ≠ .error (.internal name (.allocationUnsettled bound) state)

/-- Without a bound of its own an allocation never runs out of rounds. The sets of temps spilled in
different rounds are disjoint and lie in the pruned function, and only the last round spills none. -/
theorem Func.allocate_settles {src : Source.Func} {automatic : Bool} {f : Func} {s : Settings}
    (source : Func.ofSource src automatic = .ok f) (unbounded : s.maxRounds = none) :
    ∃ n g, f.pruneUnreachable = .ok (n, g) ∧ f.Settles g s := by
  obtain ⟨n, g, r, pruned, _, first⟩ := Func.rounds_start source
  refine ⟨n, g, pruned, fun rounds slots h reached => ?_, fun alloc run => ?_,
    fun name bound state run => ?_⟩
  · have progress := reached.progress first
    exact ⟨progress.orderly, progress.nonempty, progress.rounds_le⟩
  · obtain ⟨rounds, slots, h, a, reached, attempt, _, rfl⟩ := Func.allocate_ok pruned run
    have progress := reached.progress first
    have trims := (Func.attempt_ok progress.wellFormed attempt).prepares.trims
    have orderly : Round.Orderly g a.func rounds := by
      refine ⟨progress.orderly.disjoint, ?_⟩
      rw [show a.func.spillTemps = h.spillTemps by rw [trims.fields]]
      exact progress.orderly.temps
    refine ⟨orderly.append rfl, ?_, rounds, _, rfl, rfl, progress.nonempty⟩
    have bound := progress.rounds_le
    rw [List.length_append, List.length_singleton]
    omega
  · rcases Func.allocate_error_of_unbounded first pruned unbounded run with
      invalid | fault | ⟨rounds, slots, h, reached, failed⟩
    · obtain ⟨_, same⟩ := Settings.validate_error invalid
      exact nomatch same
    · exact nomatch fault
    · rcases Func.attempt_error (reached.progress first).wellFormed failed with
        invalid | same | same | ⟨_, ⟨_, _, same⟩ | ⟨_, _, _, _, same⟩⟩ |
          ⟨_, _, _, _, _, _, _, _, _, _, _, same⟩
      · obtain ⟨_, same⟩ := Settings.validate_error invalid
        exact nomatch same
      all_goals exact nomatch same

/-- A sum of three parameters, all of which are live at the start. -/
def sumSource : Source.Func :=
  ⟨"sum", [⟨0, none⟩, ⟨1, none⟩, ⟨2, none⟩],
    [.statement (.assign 3 (.binary .add (.temp 0) (.temp 1))),
      .statement (.assign 4 (.binary .add (.temp 3) (.temp 2))),
      .statement (.ret (some (.temp 4)))]⟩

/-- The same function resolved. -/
def sumFunc : Func :=
  { name := "sum"
    params := [0, 1, 2]
    pinned := ∅
    blocks :=
      [{ id := 0
         label := "sum.entry"
         instrs :=
           [.binary .add 3 (.temp 0) (.temp 1), .binary .add 4 (.temp 3) (.temp 2),
             .ret (some (.temp 4))]
         succs := []
         preds := [] }]
    spillTemps := ∅
    stackParams := ∅
    numSlots := 0
    nextTemp := 5 }

theorem ofSource_sumSource : Func.ofSource sumSource false = .ok sumFunc := rfl

theorem sumFunc_allocates : ∃ alloc, sumFunc.allocate { colors := 2 } = .ok alloc := by
  have some : (sumFunc.allocate { colors := 2 }).toOption.isSome = true := by decide +kernel
  cases run : sumFunc.allocate { colors := 2 } with
  | ok alloc => exact ⟨alloc, rfl⟩
  | error e =>
    rw [run] at some
    cases some

/-- With two registers the parameters are spilled one after another. -/
theorem sumFunc_settles :
    (∃ n g, sumFunc.pruneUnreachable = .ok (n, g) ∧ sumFunc.Settles g { colors := 2 }) ∧
      ((sumFunc.allocate { colors := 2 }).toOption.map (·.rounds.length)) = some 4 :=
  ⟨Func.allocate_settles ofSource_sumSource rfl, by decide +kernel⟩

end RegisterColoring
