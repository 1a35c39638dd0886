import RegisterColoring.Proofs.Representation

namespace RegisterColoring

namespace Func

/-- The counters lie within the limit. -/
structure WithinLimits (f : Func) : Prop where
  temps : f.nextTemp ≤ maxIndex
  slots : f.numSlots ≤ maxIndex

theorem spill_withinLimits {f g : Func} {temps : List Temp} {slots : IndexMap Slot}
    (limits : f.WithinLimits) (run : f.spill temps = .ok (slots, g)) : g.WithinLimits := by
  by_cases none : temps = []
  · subst none
    cases run
    exact limits
  · obtain ⟨slotRoom, tempRoom, _, rfl⟩ := (spill_eq_ok none).mp run
    refine ⟨?_, slotRoom⟩
    rcases tempRoom with fits | unread
    · exact fits
    · exact Nat.le_trans (Nat.le_of_eq unread) limits.temps

theorem freshTemp_withinLimits {f g : Func} {t : Temp} (limits : f.WithinLimits)
    (run : f.freshTemp = .ok (t, g)) : g.WithinLimits := by
  unfold freshTemp freshTempM at run
  split at run
  next room =>
    cases run
    exact ⟨room, limits.slots⟩
  · cases run

theorem allocSlot_withinLimits {f g : Func} {n : Slot} (limits : f.WithinLimits)
    (run : f.allocSlot = .ok (n, g)) : g.WithinLimits := by
  unfold allocSlot allocSlotM at run
  split at run
  next room =>
    cases run
    exact ⟨limits.temps, room⟩
  · cases run

theorem Derived.withinLimits {f : Func} (derived : f.Derived) : f.WithinLimits := by
  induction derived with
  | source resolved =>
    obtain ⟨_, _, _, _, built⟩ := Func.ofSource_ok resolved
    exact ⟨built.tempRoom, built.slotRoom⟩
  | @prune f g n before run limits =>
    obtain ⟨_, _, _, pruned, prunes⟩ := pruneUnreachable_prunes before.wellFormed
    cases pruned.symm.trans run
    rw [prunes.fields]
    exact ⟨limits.temps, limits.slots⟩
  | @eliminate f g bound outcome before run limits =>
    obtain ⟨trims, _⟩ := DeadCode.eliminateFrom_trims before.wellFormed run
    rw [trims.fields]
    exact ⟨limits.temps, limits.slots⟩
  | spill _ run limits => exact spill_withinLimits limits run
  | freshTemp _ run limits => exact freshTemp_withinLimits limits run
  | freshSpillTemp _ run limits =>
    obtain ⟨⟨t, h⟩, fresh, same⟩ := bind_eq_ok.mp run
    cases same
    obtain ⟨temps, slots⟩ := freshTemp_withinLimits limits fresh
    exact ⟨temps, slots⟩
  | allocSlot _ run limits => exact allocSlot_withinLimits limits run

theorem Derived.runDeadCode {f : Func} (derived : f.Derived) (s : Settings) :
    (f.runDeadCode s).1.Derived := by
  cases valid : s.validate with
  | error e =>
    rw [runDeadCode_of_error valid]
    exact derived
  | ok =>
    rw [runDeadCode_of_ok valid]
    split
    · exact .eliminate derived rfl
    · exact derived

theorem Derived.attempt {f : Func} {s : Settings} {a : Attempt} (derived : f.Derived)
    (run : f.attempt s = .ok a) : a.func.Derived := by
  have left := derived.runDeadCode s
  rw [attempt_def] at run
  obtain ⟨_, _, run⟩ := bind_eq_ok.mp run
  obtain ⟨_, _, run⟩ := bind_eq_ok.mp run
  obtain ⟨_, _, run⟩ := bind_eq_ok.mp run
  obtain ⟨_, _, rfl⟩ := map_eq_ok.mp run
  exact left

theorem Derived.allocateFrom {f : Func} {s : Settings} {maxRounds pruned left : Nat}
    {rounds : List Round} {slots : IndexMap Slot} {alloc : Allocation} (derived : f.Derived)
    (run : Allocation.allocateFrom s maxRounds pruned left rounds slots f = .ok alloc) :
    alloc.func.Derived := by
  induction left generalizing rounds slots f with
  | zero => cases run
  | succ left ih =>
    rw [Allocation.allocateFrom_succ] at run
    obtain ⟨a, attempt, run⟩ := bind_eq_ok.mp run
    obtain ⟨⟨spilled, g⟩, spills, run⟩ := bind_eq_ok.mp run
    have next : g.Derived := .spill (derived.attempt attempt) spills
    simp only at run
    split at run
    · cases run
      exact next
    · exact ih next run

/-- What allocation leaves is what the passes leave. -/
theorem Derived.allocate {f : Func} {s : Settings} {alloc : Allocation} (derived : f.Derived)
    (run : f.allocate s = .ok alloc) : alloc.func.Derived := by
  rw [allocate_def] at run
  obtain ⟨_, _, run⟩ := bind_eq_ok.mp run
  obtain ⟨⟨n, g⟩, pruned, run⟩ := bind_eq_ok.mp run
  exact Derived.allocateFrom (.prune derived pruned) run

end Func

end RegisterColoring
