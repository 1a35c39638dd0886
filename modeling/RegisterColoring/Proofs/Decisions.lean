import Mathlib.Data.List.Induction
import RegisterColoring.Proofs.Selection

namespace RegisterColoring

/-- Whether the decision was to push a temp. -/
def Event.isPush : Event → Bool
  | .simplify .. | .candidate .. => true
  | .assign .. | .spill _ => false

namespace Coloring

variable {g : Interference} {cost : Temp → Cost} {colors : Nat} {f : Func}

/-- Every temp that remains is pushed, and no other. -/
theorem Pushes.mem_temps {remaining : List Temp} {events : List Event}
    (pushes : Pushes g cost colors remaining events) {t : Temp} :
    t ∈ events.map (·.temp) ↔ t ∈ remaining := by
  have cons : ∀ {remaining : List Temp} {u : Temp} {temps : List Temp}, u ∈ remaining →
      (t ∈ temps ↔ t ∈ remaining.filter (· ≠ u)) → (t ∈ u :: temps ↔ t ∈ remaining) := by
    intro remaining u temps member later
    rw [List.mem_cons, later, List.mem_filter, decide_eq_true_eq]
    by_cases same : t = u
    · simp [same, member]
    · simp [same]
  induction pushes with
  | done => exact Iff.rfl
  | simplify member _ _ ih => exact cons member ih
  | candidate member _ _ _ ih => exact cons member ih

/-- No temp is pushed twice. -/
theorem Pushes.nodup {remaining : List Temp} {events : List Event}
    (pushes : Pushes g cost colors remaining events) : (events.map (·.temp)).Nodup := by
  have cons : ∀ {remaining : List Temp} {u : Temp} {events : List Event},
      Pushes g cost colors (remaining.filter (· ≠ u)) events → (events.map (·.temp)).Nodup →
      (u :: events.map (·.temp)).Nodup := by
    intro remaining u events later nodup
    refine List.nodup_cons.mpr ⟨fun twice => ?_, nodup⟩
    simpa using later.mem_temps.mp twice
  induction pushes with
  | done => exact .nil
  | simplify _ _ later ih => exact cons later ih
  | candidate _ _ _ later ih => exact cons later ih

theorem Pushes.isPush {remaining : List Temp} {events : List Event}
    (pushes : Pushes g cost colors remaining events) : ∀ e ∈ events, e.isPush = true := by
  induction pushes with
  | done => exact fun e member => absurd member List.not_mem_nil
  | simplify _ _ _ ih => exact List.forall_mem_cons.mpr ⟨rfl, ih⟩
  | candidate _ _ _ _ ih => exact List.forall_mem_cons.mpr ⟨rfl, ih⟩

/-- The states of popping: `c` is the coloring once the decisions `events` have been taken. -/
inductive Decided (g : Interference) (colors : Nat) (f : Func) (pushes : List Event) :
    List Event → Coloring → Prop
  | start : Decided g colors f pushes [] ⟨g.pinned, ∅, pushes⟩
  | assign {events : List Event} {c : Coloring} {t : Temp} {id : Nat} :
      Decided g colors f pushes events c → g.graph.id? t = some id →
      freeColor g c.colors id < colors →
      Decided g colors f pushes (events ++ [Event.assign t (freeColor g c.colors id)])
        ⟨c.colors.insert t (freeColor g c.colors id), c.spilled,
          c.trace ++ [Event.assign t (freeColor g c.colors id)]⟩
  | spill {events : List Event} {c : Coloring} {t : Temp} {id : Nat} :
      Decided g colors f pushes events c → g.graph.id? t = some id →
      colors ≤ freeColor g c.colors id → t ∉ f.spillTemps →
      Decided g colors f pushes (events ++ [Event.spill t])
        ⟨c.colors, c.spilled.insert t, c.trace ++ [Event.spill t]⟩

/-- Popping takes a decision about each temp in turn. -/
theorem Decided.popAll {pushes events : List Event} {temps : List Temp} {c final : Coloring}
    (decided : Decided g colors f pushes events c) (run : popAll g colors f temps c = .ok final) :
    ∃ more, Decided g colors f pushes (events ++ more) final ∧ more.map (·.temp) = temps := by
  induction temps generalizing events c with
  | nil =>
    cases run
    exact ⟨[], by rwa [List.append_nil], rfl⟩
  | cons t rest ih =>
    cases found : g.graph.id? t with
    | none =>
      rw [popAll_of_none found] at run
      cases run
    | some id =>
      rw [popAll_of_some found] at run
      split at run
      · rename_i below
        obtain ⟨more, done, temps⟩ := ih (decided.assign found below) run
        rw [List.append_assoc] at done
        exact ⟨_, done, congrArg (t :: ·) temps⟩
      · rename_i above
        split at run
        · cases run
        · rename_i written
          obtain ⟨more, done, temps⟩ := ih (decided.spill found (Nat.not_lt.mp above) written) run
          rw [List.append_assoc] at done
          exact ⟨_, done, congrArg (t :: ·) temps⟩

/-- The states of popping are those that popping some of the temps leads to. -/
theorem Decided.popped {pushes events : List Event} {c : Coloring}
    (decided : Decided g colors f pushes events c) :
    Coloring.popAll g colors f (events.map (·.temp)) ⟨g.pinned, ∅, pushes⟩ = .ok c := by
  induction decided with
  | start => rfl
  | assign _ found below ih =>
    rw [List.map_append, popAll_append, ih]
    exact (popAll_singleton found colors f _).trans (if_pos below)
  | spill _ found above written ih =>
    rw [List.map_append, popAll_append, ih]
    refine (popAll_singleton found colors f _).trans ?_
    rw [if_neg (Nat.not_lt.mpr above), if_neg written]

section Decided

variable {pushes events : List Event} {c : Coloring}

theorem Decided.trace_eq (decided : Decided g colors f pushes events c) :
    c.trace = pushes ++ events := by
  induction decided with
  | start => exact (List.append_nil pushes).symm
  | assign _ _ _ ih => rw [ih, List.append_assoc]
  | spill _ _ _ _ ih => rw [ih, List.append_assoc]

/-- What a decision rests on. -/
theorem Decided.last {e : Event} (decided : Decided g colors f pushes (events ++ [e]) c) :
    ∃ mid id, Decided g colors f pushes events mid ∧ g.graph.id? e.temp = some id ∧
      (e = .assign e.temp (freeColor g mid.colors id) ∧ freeColor g mid.colors id < colors ∨
        e = .spill e.temp ∧ colors ≤ freeColor g mid.colors id ∧ e.temp ∉ f.spillTemps) := by
  generalize whole : events ++ [e] = all at decided
  cases decided with
  | start => exact absurd whole (by simp)
  | @assign earlier mid t id before found below =>
    obtain ⟨rfl, last⟩ := List.append_inj' whole rfl
    obtain rfl := List.singleton_inj.mp last
    exact ⟨mid, id, before, found, .inl ⟨rfl, below⟩⟩
  | @spill earlier mid t id before found above written =>
    obtain ⟨rfl, last⟩ := List.append_inj' whole rfl
    obtain rfl := List.singleton_inj.mp last
    exact ⟨mid, id, before, found, .inr ⟨rfl, above, written⟩⟩

/-- Decisions are taken one after the other. -/
theorem Decided.before {early late : List Event}
    (decided : Decided g colors f pushes (early ++ late) c) :
    ∃ mid, Decided g colors f pushes early mid := by
  induction late using List.reverseRecOn generalizing c with
  | nil => exact ⟨c, by rwa [List.append_nil] at decided⟩
  | append_singleton front e ih =>
    rw [← List.append_assoc] at decided
    obtain ⟨mid, _, earlier, _⟩ := decided.last
    exact ih earlier

/-- The same for a decision in the middle. -/
theorem Decided.at {early late : List Event} {e : Event}
    (decided : Decided g colors f pushes (early ++ e :: late) c) :
    ∃ mid id, Decided g colors f pushes early mid ∧ g.graph.id? e.temp = some id ∧
      (e = .assign e.temp (freeColor g mid.colors id) ∧ freeColor g mid.colors id < colors ∨
        e = .spill e.temp ∧ colors ≤ freeColor g mid.colors id ∧ e.temp ∉ f.spillTemps) := by
  rw [← List.singleton_append, ← List.append_assoc] at decided
  obtain ⟨_, upTo⟩ := decided.before
  exact upTo.last

/-- Spilled are the temps about which that was decided. -/
theorem Decided.mem_spilled (decided : Decided g colors f pushes events c) {t : Temp} :
    t ∈ c.spilled ↔ .spill t ∈ events := by
  induction decided with
  | start => simp
  | assign _ _ _ ih => simpa using ih
  | spill _ _ _ _ ih => simp [ih, or_comm]

/-- The colors are the pins and those that were given. -/
theorem Decided.get?_colors (decided : Decided g colors f pushes events c)
    (nodup : (events.map (·.temp)).Nodup)
    (unpinned : ∀ e ∈ events, g.pinned.contains e.temp = false) {t : Temp} {k : Color} :
    c.colors.get? t = some k ↔ g.pinned.get? t = some k ∨ .assign t k ∈ events := by
  induction decided with
  | start => simp
  | @assign events c u id before found below ih =>
    rw [List.map_append, List.nodup_append] at nodup
    rw [List.forall_mem_append] at unpinned
    have free : g.pinned.get? u = none :=
      IndexMap.contains_eq_false.mp (unpinned.2 _ List.mem_cons_self)
    have once : ∀ m, .assign u m ∉ events := fun m twice =>
      nodup.2.2 u (List.mem_map.mpr ⟨_, twice, rfl⟩) u List.mem_cons_self rfl
    have earlier := ih nodup.1 unpinned.1
    rw [IndexMap.get?_insert, List.mem_append, List.mem_singleton]
    by_cases same : t = u
    · subst same
      simp [free, once, eq_comm]
    · simp [same, earlier]
  | spill _ _ _ _ ih =>
    rw [List.map_append, List.nodup_append] at nodup
    rw [List.forall_mem_append] at unpinned
    simp [ih nodup.1 unpinned.1]

end Decided

/-- Temp `u` has the color `k` once the decisions `before` have been taken. -/
def HeldBefore (g : Interference) (before : List Event) (u : Temp) (k : Color) : Prop :=
  g.pinned.get? u = some k ∨ .assign u k ∈ before

/-- A decision about a popped temp that the coloring bears out. -/
def BearsOut (c : Coloring) (e : Event) : Prop :=
  (∃ k, e = .assign e.temp k ∧ c.colors.get? e.temp = some k) ∨
    e = .spill e.temp ∧ e.temp ∈ c.spilled

/-- What a coloring of a graph with colors below `colors` has to satisfy. -/
structure Valid (g : Interference) (colors : Nat) (f : Func) (c : Coloring) : Prop where
  placed : ∀ t, t ∈ g.graph.nodes ↔ c.colors.contains t = true ∨ t ∈ c.spilled
  once : ∀ t, ¬ (c.colors.contains t = true ∧ t ∈ c.spilled)
  pinned : ∀ t k, g.pinned.get? t = some k → c.colors.get? t = some k
  smallest : ∀ t k, c.colors.get? t = some k → g.pinned.contains t = false → k < colors ∧
    ∃ before after, c.trace = before ++ .assign t k :: after ∧
      IsLeast {m | ∀ u, g.interferes t u = true → ¬ HeldBefore g before u m} k
  proper : ∀ t u k, g.interferes t u = true → c.colors.get? t = some k →
    c.colors.get? u = some k → g.pinned.contains t = true ∧ g.pinned.contains u = true
  checked : ∀ func, g.checkPins colors func = .ok () → ∀ t u k, g.interferes t u = true →
    c.colors.get? t = some k → c.colors.get? u ≠ some k
  ascending : c.spilled.toList.Pairwise (· < ·)
  spared : ∀ t ∈ c.spilled, g.pinned.contains t = false ∧ t ∉ f.spillTemps
  trace : ∃ pushes decisions, c.trace = pushes ++ decisions ∧ (∀ e ∈ pushes, e.isPush = true) ∧
    (pushes.map (·.temp)).Nodup ∧
    (∀ t, t ∈ pushes.map (·.temp) ↔ t ∈ g.graph.nodes ∧ g.pinned.contains t = false) ∧
    decisions.map (·.temp) = (pushes.map (·.temp)).reverse ∧ ∀ e ∈ decisions, c.BearsOut e

/-- The coloring `c` comes from these pushes, and from these decisions in the opposite order. -/
structure Traced (g : Interference) (cost : Temp → Cost) (colors : Nat) (f : Func)
    (pushes decisions : List Event) (c : Coloring) : Prop where
  made : Pushes g cost colors g.unplaced pushes
  decided : Decided g colors f pushes decisions c
  temps : decisions.map (·.temp) = (pushes.map (·.temp)).reverse
  selected : Selected g colors f g.unplaced c

namespace Traced

variable {pushes decisions : List Event} {c : Coloring}

theorem nodup (traced : Traced g cost colors f pushes decisions c) :
    (decisions.map (·.temp)).Nodup := by
  rw [traced.temps]
  exact List.nodup_reverse.mpr traced.made.nodup

theorem unpinned (traced : Traced g cost colors f pushes decisions c) :
    ∀ e ∈ decisions, g.pinned.contains e.temp = false := by
  intro e member
  have named : e.temp ∈ decisions.map (·.temp) := List.mem_map_of_mem member
  rw [traced.temps, List.mem_reverse, traced.made.mem_temps] at named
  exact (Interference.mem_unplaced.mp named).2

theorem get?_colors (traced : Traced g cost colors f pushes decisions c) {t : Temp} {k : Color} :
    c.colors.get? t = some k ↔ g.pinned.get? t = some k ∨ .assign t k ∈ decisions :=
  traced.decided.get?_colors traced.nodup traced.unpinned

theorem bearsOut (traced : Traced g cost colors f pushes decisions c) :
    ∀ e ∈ decisions, c.BearsOut e := by
  intro e member
  obtain ⟨early, late, split⟩ := List.append_of_mem member
  have cut := traced.decided
  rw [split] at cut
  obtain ⟨_, _, _, _, ⟨same, _⟩ | ⟨same, _⟩⟩ := cut.at
  · exact .inl ⟨_, same, traced.get?_colors.mpr (.inr (same ▸ member))⟩
  · exact .inr ⟨same, traced.decided.mem_spilled.mpr (same ▸ member)⟩

/-- A color that was given was the smallest that no neighbor had then. -/
theorem smallest (traced : Traced g cost colors f pushes decisions c) (valid : g.graph.Valid)
    {t : Temp} {k : Color} (given : .assign t k ∈ decisions) : k < colors ∧
      ∃ before after, c.trace = before ++ .assign t k :: after ∧
        IsLeast {m | ∀ u, g.interferes t u = true → ¬ HeldBefore g before u m} k := by
  obtain ⟨early, late, split⟩ := List.append_of_mem given
  have cut := traced.decided
  have nodup := traced.nodup
  have unpinned := traced.unpinned
  rw [split] at cut nodup unpinned
  rw [List.map_append] at nodup
  obtain ⟨mid, id, before, found, ⟨same, below⟩ | ⟨spilled, _⟩⟩ := cut.at
  · have colored : ∀ u m, mid.colors.get? u = some m ↔ HeldBefore g (pushes ++ early) u m := by
      intro u m
      have none : .assign u m ∉ pushes := fun member =>
        Bool.false_ne_true (traced.made.isPush _ member)
      rw [before.get?_colors (List.nodup_append.mp nodup).1 (List.forall_mem_append.mp unpinned).1,
        HeldBefore, List.mem_append]
      simp only [none, false_or]
    have value : k = freeColor g mid.colors id := by injection same
    refine ⟨value ▸ below, pushes ++ early, late, ?_, ?_⟩
    · rw [cut.trace_eq, List.append_assoc]
    · simp only [← colored, value]
      exact freeColor_isLeast valid found mid.colors
  · cases spilled

end Traced

/-- Popping what was pushed leaves a trace of both. -/
theorem Pushes.traced {pushes : List Event} {c : Coloring} (valid : g.graph.Valid)
    (made : Pushes g cost colors g.unplaced pushes)
    (run : popAll g colors f (pushes.map (·.temp)).reverse ⟨g.pinned, ∅, pushes⟩ = .ok c) :
    ∃ decisions, Traced g cost colors f pushes decisions c := by
  obtain ⟨decisions, decided, temps⟩ := Decided.start.popAll run
  refine ⟨decisions, made, decided, temps, ?_⟩
  rcases made.select_unplaced valid f with ⟨other, same, facts⟩ | ⟨_, _, _, _, failed⟩
  · cases run.symm.trans same
    exact facts
  · cases run.symm.trans failed

end Coloring

namespace Interference

variable {f h : Func} {l : Liveness} {g : Interference} {cost : Temp → Cost} {colors : Nat}
  {c : Coloring}

/-- Every coloring that succeeds is valid, whatever the function and the sets from which the graph was
built, the costs, and the number of colors. -/
theorem color_valid (built : build f l = .ok g) (run : g.color cost colors h = .ok c) :
    c.Valid g colors h := by
  have graph := represents_of_build built
  have valid := graph.valid
  obtain ⟨pushes, _, made, value⟩ := color_eq_popAll valid cost colors h
  obtain ⟨decisions, traced⟩ := made.traced valid (value.symm.trans run)
  have selected := traced.selected
  refine ⟨fun t => ⟨fun node => ?_, ?_⟩, fun t ⟨color, spilled⟩ => ?_, selected.pinned,
    fun t k color free => ?_, selected.proper, fun func passed t u k edge first second => ?_,
    c.spilled.ascending, fun t spilled => ?_,
    ⟨pushes, decisions, traced.decided.trace_eq, traced.made.isPush, traced.made.nodup,
      fun t => ?_, traced.temps, traced.bearsOut⟩⟩
  · cases pin : g.pinned.contains t with
    | true =>
      obtain ⟨k, color⟩ := IndexMap.contains_iff.mp pin
      exact .inl (IndexMap.contains_iff.mpr ⟨k, selected.pinned t k color⟩)
    | false => exact (selected.settled t (mem_unplaced.mpr ⟨node, pin⟩)).symm
  · rintro (color | spilled)
    · obtain ⟨k, color⟩ := IndexMap.contains_iff.mp color
      rcases selected.origin t k color with pin | ⟨member, _⟩
      · rw [graph.pinned] at pin
        exact (graph.nodes t).mpr (.inr (.inl (IndexMap.contains_iff.mpr ⟨k, pin⟩)))
      · exact (mem_unplaced.mp member).1
    · exact (mem_unplaced.mp (selected.spilled t spilled).1).1
  · rw [IndexMap.contains, (selected.spilled t spilled).2.2] at color
    cases color
  · refine traced.smallest valid ((traced.get?_colors.mp color).resolve_left fun pin => ?_)
    rw [IndexMap.contains_eq_false.mp free] at pin
    cases pin
  -- Only pinned neighbors can share a color, and the check has found none that do.
  · obtain ⟨pin, other⟩ := selected.proper t u k edge first second
    obtain ⟨m, pinT⟩ := IndexMap.contains_iff.mp pin
    obtain ⟨n, pinU⟩ := IndexMap.contains_iff.mp other
    cases first.symm.trans (selected.pinned t m pinT)
    cases second.symm.trans (selected.pinned u n pinU)
    exact (checkPins_ok valid passed).2 t u _ edge pinT pinU
  · obtain ⟨member, written, _⟩ := selected.spilled t spilled
    exact ⟨(mem_unplaced.mp member).2, written⟩
  · rw [traced.made.mem_temps, mem_unplaced]

end Interference

/-- Three parameters, one of them pinned. -/
def threeSource : Source.Func :=
  ⟨"f", [⟨0, some "%rax"⟩, ⟨1, none⟩, ⟨2, none⟩],
    [.statement (.assign 3 (.binary .add (.temp 0) (.temp 1))),
      .statement (.assign 4 (.binary .add (.temp 3) (.temp 2))),
      .statement (.ret (some (.temp 4)))]⟩

/-- Two colors are not enough for three parameters: one is spilled, and the coloring is valid. -/
theorem threeSource_valid : ∃ f l g c, Func.ofSource threeSource false = .ok f ∧
    Liveness.analyze 2 f = .ok l ∧ Interference.build f l = .ok g ∧
    g.color (fun t => f.spillCosts.getD t (.finite 0)) 2 f = .ok c ∧
    c.colors.entries = [(0, 0), (2, 1), (3, 0), (4, 0)] ∧ c.spilled.toList = [1] ∧
    c.Valid g 2 f := by
  have result : (Func.ofSource threeSource false).bind (fun f =>
      (Liveness.analyze 2 f).bind fun l => (Interference.build f l).bind fun g =>
        (g.color (fun t => f.spillCosts.getD t (.finite 0)) 2 f).map fun c =>
          (c.colors.entries, c.spilled.toList)) =
      .ok ([(0, 0), (2, 1), (3, 0), (4, 0)], [1]) := by decide +kernel
  obtain ⟨f, source, rest⟩ := bind_eq_ok.mp result
  obtain ⟨l, analysis, rest⟩ := bind_eq_ok.mp rest
  obtain ⟨g, built, rest⟩ := bind_eq_ok.mp rest
  obtain ⟨c, run, values⟩ := map_eq_ok.mp rest
  obtain ⟨entries, spilled⟩ := Prod.mk.inj values
  exact ⟨f, l, g, c, source, analysis, built, run, entries, spilled,
    Interference.color_valid built run⟩

end RegisterColoring
