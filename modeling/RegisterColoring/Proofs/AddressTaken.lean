import RegisterColoring.Proofs.Coexistence

namespace RegisterColoring

/-- In code that can be reached `d` gets a value only by copies of `v`. While `d` is live, `v` gets
one only by copies of `d`. -/
structure Func.OnlyCopied (f : Func) (l : Liveness) (d v : Temp) : Prop where
  param : d ∉ f.registerParams
  entry : d ∉ l.liveIn Func.entry
  copies : ∀ b, Path f.succs Func.entry b → ∀ k i, f.instrAt b k = some i → i.dest? = some d →
    i = .move d (.temp v)
  back : ∀ b, Path f.succs Func.entry b → ∀ k i, f.instrAt b k = some i → i.dest? = some v →
    d ∈ l.liveAfter b k → i = .move v (.temp d)

namespace Interference

variable {f : Func} {l : Liveness} {g : Interference} {bound : Nat} {d v : Temp}

/-- An address-taken temp is apart from another one only if that is a copy of it. -/
theorem Represents.onlyCopied (graph : g.Represents f l) (wf : f.WellFormed)
    (run : Liveness.analyze bound f = .ok l) (taken : v ∈ l.addressTaken) (different : d ≠ v)
    (apart : g.interferes v d = false) : f.OnlyCopied l d v := by
  have edges := wf.edgesInside
  have address := (Liveness.mem_addressTaken_of_reached edges run).mp taken
  obtain ⟨first, atEntry⟩ := wf.entry_block
  have liveOnEntry : v ∈ l.liveIn Func.entry :=
    (Liveness.mem_liveIn_iff edges run (Func.entry_mem_reachable wf.nonempty) atEntry).mpr
      (Or.inl address)
  have swapped : g.interferes d v = false := by rwa [graph.interferes_comm]
  have notMet : ¬ Meets f l d v := fun meets =>
    Bool.false_ne_true (swapped.symm.trans ((graph.edges d v).mpr ⟨different, Or.inl meets⟩))
  refine ⟨fun param => ?_, fun live => ?_, fun b path k i here writes => ?_,
    fun b path k i here writes live => ?_⟩
  · exact notMet (Or.inl ⟨Or.inl param, liveOnEntry⟩)
  · exact notMet (Or.inl ⟨Or.inr live, liveOnEntry⟩)
  · obtain ⟨block, found, _⟩ := Func.instrAt_eq_some here
    have reach := Func.reachable_of_path edges path found
    have live := (Liveness.mem_liveAfter_iff edges run reach here).mpr (Or.inl address)
    exact graph.copy_of_apart edges run path here writes live different swapped
  · exact graph.copy_of_apart edges run path here writes live different.symm apart

/-- A copy and nothing else is apart from its source. -/
theorem Represents.apart_of_onlyCopied (graph : g.Represents f l) (wf : f.WellFormed)
    (run : Liveness.analyze bound f = .ok l) (only : f.OnlyCopied l d v) :
    g.interferes v d = false := by
  have edges := wf.edgesInside
  refine Bool.eq_false_iff.mpr fun joined => ?_
  obtain ⟨_, meets⟩ := (graph.edges v d).mp joined
  rcases meets with (⟨_, live⟩ | ⟨p, point, writes, live, other⟩) |
    (⟨param | live, _⟩ | ⟨p, point, writes, _, other⟩)
  · exact only.entry live
  · obtain ⟨b, k, path, here, same⟩ := (Liveness.mem_points_iff edges run).mp point
    rw [same] at live
    rw [only.back b path k p.1 here writes live] at other
    exact other rfl
  · exact only.param param
  · exact only.entry live
  · obtain ⟨b, k, path, here, _⟩ := (Liveness.mem_points_iff edges run).mp point
    rw [only.copies b path k p.1 here writes] at other
    exact other rfl

/-- A temp whose address is taken interferes with every definition but a copy of itself, in every
function that the passes make of a written one. With a copy it interferes too, unless copies are all
that defines the other temp. -/
theorem addressTaken_joined (derived : f.Derived) (run : Liveness.analyze bound f = .ok l) :
    ∃ g, build f l = .ok g ∧ ∀ v ∈ l.addressTaken, ∀ b, Path f.succs Func.entry b →
      ∀ k i d, f.instrAt b k = some i → i.dest? = some d → d ≠ v →
        (i ≠ .move d (.temp v) → g.interferes v d = true) ∧
          (g.interferes v d = false ↔ f.OnlyCopied l d v) := by
  have wf := derived.wellFormed
  obtain ⟨g, built, graph⟩ := build_represents wf run
  refine ⟨g, built, fun v taken b path k i d here writes different => ⟨fun other => ?_, ?_⟩⟩
  · by_contra apart
    have only := graph.onlyCopied wf run taken different (Bool.eq_false_iff.mpr apart)
    exact other (only.copies b path k i here writes)
  · exact ⟨graph.onlyCopied wf run taken different, graph.apart_of_onlyCopied wf run⟩

end Interference

/-- A temp whose address is taken, and a copy of it. -/
def aliasSource : Source.Func :=
  ⟨"f", [],
    [.statement (.assign 0 (.move (.const 1))),
      .statement (.assign 1 (.addrOf 0)),
      .statement (.assign 2 (.move (.temp 0))),
      .statement (.ret (some (.temp 2)))]⟩

theorem aliasSource_graph : ∃ f l g, Func.ofSource aliasSource false = .ok f ∧
    Liveness.analyze 3 f = .ok l ∧ Interference.build f l = .ok g ∧ 0 ∈ l.addressTaken ∧
    f.instrAt Func.entry 1 = some (.addrOf 1 0) ∧
    f.instrAt Func.entry 2 = some (.move 2 (.temp 0)) ∧ g.interferes 0 2 = false := by
  have result : (Func.ofSource aliasSource false).bind (fun f =>
      (Liveness.analyze 3 f).bind fun l => (Interference.build f l).map fun g =>
        (l.addressTaken.toList, f.instrAt Func.entry 1, f.instrAt Func.entry 2,
          g.interferes 0 2)) =
      .ok ([0], some (.addrOf 1 0), some (.move 2 (.temp 0)), false) := by decide +kernel
  obtain ⟨f, source, rest⟩ := bind_eq_ok.mp result
  obtain ⟨l, run, rest⟩ := bind_eq_ok.mp rest
  obtain ⟨g, built, values⟩ := map_eq_ok.mp rest
  simp only [Prod.mk.injEq] at values
  obtain ⟨taken, address, copy, apart⟩ := values
  have member : 0 ∈ l.addressTaken.toList := by rw [taken]; exact List.mem_singleton_self 0
  exact ⟨f, l, g, source, run, built, IndexSet.mem_toList.mp member, address, copy, apart⟩

/-- The copy does not interfere with the temp whose address is taken. -/
theorem aliasSource_apart : ¬ ∀ (src : Source.Func) (automatic : Bool) (f : Func) (bound : Nat)
    (l : Liveness) (g : Interference), Func.ofSource src automatic = .ok f →
    Liveness.analyze bound f = .ok l → Interference.build f l = .ok g →
    ∀ v ∈ l.addressTaken, ∀ b, Path f.succs Func.entry b → ∀ k i d, f.instrAt b k = some i →
      i.dest? = some d → d ≠ v → g.interferes v d = true := by
  intro always
  obtain ⟨f, l, g, source, run, built, taken, _, copy, apart⟩ := aliasSource_graph
  have joined := always aliasSource false f 3 l g source run built 0 taken Func.entry .refl 2 _ 2 copy
    rfl (by decide)
  exact Bool.false_ne_true (apart.symm.trans joined)

/-- The temp that takes the address interferes with it, and the copy is nothing but a copy. -/
theorem aliasSource_joined : ∃ f l g, Func.ofSource aliasSource false = .ok f ∧
    Liveness.analyze 3 f = .ok l ∧ Interference.build f l = .ok g ∧ 0 ∈ l.addressTaken ∧
    g.interferes 0 1 = true ∧ f.OnlyCopied l 2 0 := by
  obtain ⟨f, l, g, source, run, built, taken, address, copy, apart⟩ := aliasSource_graph
  obtain ⟨same, again, all⟩ := Interference.addressTaken_joined (.source source) run
  cases Except.ok.inj (built.symm.trans again)
  have first := all 0 taken Func.entry .refl 1 _ 1 address rfl (by decide)
  have second := all 0 taken Func.entry .refl 2 _ 2 copy rfl (by decide)
  refine ⟨f, l, g, source, run, built, taken, first.1 (by decide), second.2.mp apart⟩

end RegisterColoring
