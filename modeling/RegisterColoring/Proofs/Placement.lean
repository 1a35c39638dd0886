import RegisterColoring.Proofs.Elimination
import RegisterColoring.Proofs.Execution
import RegisterColoring.Proofs.Resolved

namespace RegisterColoring

variable {κ Val Mem : Type}

/-- `p` runs `f` without some dead definitions, with its temps in cells that live temps do not
share, and leaves out copies within one cell only. -/
structure Func.Places (f : Func) (p : Program κ) : Prop where
  code : ∀ (b : BlockId) (block : Block), f.blocks[b]? = some block →
    ∃ kept, p.code b = some kept ∧ f.Thins b block.instrs kept
  missing : ∀ b : BlockId, f.blocks[b]? = none → p.code b = none
  write : ∀ b ∈ f.reachable, ∀ i rest d u, f.At b (i :: rest) → i.dest? = some d →
    f.LiveAt u b rest → u ≠ d → p.place u = p.place d → i.copy? = some (d, u)
  dropped : ∀ i, p.dropped i = true → ∃ d u, i.copy? = some (d, u) ∧ p.place d = p.place u

/-- The two executions are at the same point and agree on what is live there. -/
structure Func.Agrees (f : Func) (p : Program κ) (c : Config Temp Val Mem) (e : Config κ Val Mem) :
    Prop where
  reach : c.block ∈ f.reachable
  here : f.At c.block c.rest
  block : e.block = c.block
  rest : f.Thins c.block c.rest e.rest
  cells : ∀ t, f.LiveAt t c.block c.rest → e.cells (p.place t) = c.cells t
  slots : e.slots = c.slots
  mem : e.mem = c.mem

/-- What is live at the start of a block is live in front of a jump to it. -/
theorem Func.At.liveAt_of_jump {f : Func} {b s : BlockId} {i : Instr} {rest : List Instr}
    {block : Block} {t : Temp} (wf : f.WellFormed) (here : f.At b (i :: rest))
    (terminator : i.isTerminator = true) (target : s ∈ i.targets)
    (found : f.blocks[s]? = some block) (live : f.LiveAt t s block.instrs) :
    f.LiveAt t b (i :: rest) := by
  obtain ⟨rfl, succs⟩ := here.leaves wf terminator
  refine .pass ?_ (.edge (by rw [succs]; exact target) found live)
  rw [Instr.dest?_of_terminator terminator]
  exact nofun

namespace Func.Places

variable {f : Func} {p : Program κ} {m : Machine Val Mem} {c : Config Temp Val Mem}
  {e : Config κ Val Mem}

/-- Both executions enter the block `b`. -/
theorem enter (places : f.Places p) {b : BlockId} {block : Block} (reach : b ∈ f.reachable)
    (found : f.blocks[b]? = some block)
    (cells : ∀ t, f.LiveAt t b block.instrs → e.cells (p.place t) = c.cells t)
    (slots : e.slots = c.slots) (mem : e.mem = c.mem) (events : List (Observation Val)) :
    ∃ kept, p.enter b events e = .go events { e with block := b, rest := kept } ∧
      f.program.enter b events c = .go events { c with block := b, rest := block.instrs } ∧
      f.Agrees p { c with block := b, rest := block.instrs } { e with block := b, rest := kept } := by
  obtain ⟨kept, code, thins⟩ := places.code b block found
  exact ⟨kept, Program.enter_some code events e, Program.enter_some (program_code found) events c,
    ⟨reach, .start found, rfl, thins, cells, slots, mem⟩⟩

theorem actionAt_eq (agrees : f.Agrees p c e) {i : Instr} {rest : List Instr}
    (here : c.rest = i :: rest) : p.actionAt m e i = f.program.actionAt m c i := by
  unfold Program.actionAt
  rw [agrees.slots, agrees.mem]
  refine Instr.action_congr m (fun t used => agrees.cells t ?_) fun s _ => rfl
  rw [here]
  exact .read used

/-- A dead definition is executed on the left only. -/
theorem skip_dead (agrees : f.Agrees p c e) {i : Instr} {rest : List Instr} {d : Temp}
    (here : c.rest = i :: rest) (writes : i.dest? = some d) (quiet : i.hasEffect = false)
    (dead : ¬ f.LiveAt d c.block rest) (later : f.Thins c.block rest e.rest) :
    ∃ c', f.program.step m c = .go [] c' ∧ f.Agrees p c' e ∧ c'.rest = rest := by
  obtain ⟨v, result⟩ := Instr.action_of_quiet m quiet (fun t => c.cells (f.program.place t)) c.slots
    c.mem
  have ordinary := Instr.not_terminator_of_next m (congrArg Action.control result)
  have point := agrees.here
  rw [here] at point
  refine ⟨_, Program.step_result here rfl writes result, ⟨agrees.reach, point.next ordinary,
    agrees.block, later, fun t live => ?_, agrees.slots, agrees.mem⟩, rfl⟩
  have other : t ≠ d := by
    rintro rfl
    exact dead live
  simp only [program_place, id_eq]
  rw [Function.update_of_ne other]
  refine agrees.cells t ?_
  rw [here]
  refine .pass (fun same => other ?_) live
  exact (Option.some.inj (writes.symm.trans same)).symm

/-- A copy within one cell is executed on the left and left out on the right. -/
theorem drop_copy (places : f.Places p) (agrees : f.Agrees p c e) {i : Instr}
    {rest kept : List Instr} (here : c.rest = i :: rest) (later : f.Thins c.block rest kept)
    (dropped : p.dropped i = true) :
    ∃ c', f.program.step m c = .go [] c' ∧ f.Agrees p c' { e with rest := kept } := by
  obtain ⟨d, u, copies, shared⟩ := places.dropped i dropped
  obtain ⟨writes, used⟩ := Instr.dest?_of_copy copies
  have result : f.program.actionAt m c i = .result (c.cells u) c.mem :=
    Instr.action_copy m copies _ _ _
  have ordinary := Instr.not_terminator_of_next m (congrArg Action.control result)
  have point := agrees.here
  rw [here] at point
  refine ⟨_, Program.step_result here rfl writes result, agrees.reach, point.next ordinary,
    agrees.block, later, fun t live => ?_, agrees.slots, agrees.mem⟩
  simp only [program_place, id_eq]
  by_cases isD : t = d
  · subst isD
    rw [Function.update_self, shared]
    exact agrees.cells u (by rw [here]; exact .read used)
  · rw [Function.update_of_ne isD]
    refine agrees.cells t ?_
    rw [here]
    refine .pass (fun same => isD ?_) live
    exact (Option.some.inj (writes.symm.trans same)).symm

variable [DecidableEq κ]

/-- An instruction that both sides execute. -/
theorem agrees_after (places : f.Places p) {i : Instr} {rest kept : List Instr}
    (agrees : f.Agrees p c e) (here : c.rest = i :: rest) (later : f.Thins c.block rest kept)
    (same : p.actionAt m e i = f.program.actionAt m c i)
    (goes : (f.program.actionAt m c i).control = .next) :
    f.Agrees p (f.program.after m c i rest) (p.after m e i kept) := by
  have at_ := agrees.here
  rw [here] at at_
  have ordinary := Instr.not_terminator_of_next m goes
  refine ⟨agrees.reach, at_.next ordinary, agrees.block, later, fun t live => ?_, ?_, ?_⟩
  · have before : i.dest? ≠ some t → e.cells (p.place t) = c.cells t := fun other =>
      agrees.cells t (by rw [here]; exact .pass other live)
    unfold Program.after
    simp only [same]
    cases writes : i.dest? with
    | none =>
      rw [writes] at before
      exact before (Option.some_ne_none t).symm
    | some d =>
      obtain ⟨v, value⟩ := Instr.value_of_next m goes writes
      simp only [Action.writeCells, Option.map_some, value, program_place, id_eq]
      by_cases isD : t = d
      · subst isD
        rw [Function.update_self, Function.update_self]
      · rw [Function.update_of_ne isD]
        by_cases shared : p.place t = p.place d
        -- Only the source of a copy may share the place that is written, and it has the value.
        · have copies := places.write c.block agrees.reach i rest d t at_ writes live isD shared
          have result := Instr.action_copy m copies (fun t => c.cells (f.program.place t)) c.slots
            c.mem
          have read : v = c.cells t := by
            have same := value
            rw [result] at same
            exact (Option.some.inj same).symm
          rw [shared, Function.update_self, read]
        · rw [Function.update_of_ne shared]
          refine before fun same => isD ?_
          exact (Option.some.inj (writes.symm.trans same)).symm
  · unfold Program.after
    simp only [same, agrees.slots]
  · unfold Program.after
    simp only [same]

/-- Both executions leave the block behind its last instruction. -/
theorem fall (places : f.Places p) (wf : f.WellFormed) (agrees : f.Agrees p c e)
    (done : c.rest = []) :
    (∃ outcome, f.program.step m c = .halt outcome ∧ p.step m e = .halt outcome) ∨
      ∃ c' e', f.program.step m c = .go [] c' ∧ p.step m e = .go [] e' ∧ f.Agrees p c' e' := by
  have ended : e.rest = [] := by
    have thins := agrees.rest
    rw [done] at thins
    exact List.eq_nil_of_sublist_nil thins.sublist
  have here := agrees.here
  rw [done] at here
  rw [Program.step_nil done, Program.step_nil ended, agrees.block]
  cases found : f.blocks[c.block + 1]? with
  | none =>
    refine Or.inl ⟨.finished c.mem, Program.enter_none (program_code_none found) _ _, ?_⟩
    rw [Program.enter_none (places.missing _ found), agrees.mem]
  | some block =>
    have edge : c.block + 1 ∈ f.succs c.block := by
      rw [here.falls wf, if_pos (List.getElem?_eq_some_iff.mp found).1]
      exact List.mem_singleton_self _
    obtain ⟨kept, right, left, next⟩ := places.enter
      (succ_mem_reachable wf.edgesInside agrees.reach edge) found
      (fun t live => agrees.cells t (by rw [done]; exact .edge edge found live)) agrees.slots
      agrees.mem []
    exact Or.inr ⟨_, _, left, right, next⟩

/-- Both executions execute an instruction. -/
theorem both (places : f.Places p) (wf : f.WellFormed) (agrees : f.Agrees p c e) {i : Instr}
    {rest kept : List Instr} (here : c.rest = i :: rest) (there : e.rest = i :: kept)
    (later : f.Thins c.block rest kept) (executed : p.dropped i = false) :
    (∃ outcome, f.program.step m c = .halt outcome ∧ p.step m e = .halt outcome) ∨
      ∃ es c' e', f.program.step m c = .go es c' ∧ p.step m e = .go es e' ∧ f.Agrees p c' e' := by
  have same := actionAt_eq (m := m) agrees here
  have point := agrees.here
  rw [here] at point
  cases control : (f.program.actionAt m c i).control with
  | stop outcome =>
    exact Or.inl ⟨outcome, Program.step_stop here rfl control,
      Program.step_stop there executed (by rw [same]; exact control)⟩
  | next =>
    refine Or.inr ⟨_, _, _, Program.step_next here rfl control, ?_,
      places.agrees_after agrees here later same control⟩
    rw [Program.step_next there executed (by rw [same]; exact control), same]
  | jump b =>
    have terminator := Instr.terminator_of_jump m control
    have target := Instr.mem_targets_of_jump m control
    have edge : b ∈ f.succs c.block := by
      rw [(point.leaves wf terminator).2]
      exact target
    obtain ⟨block, found⟩ : ∃ block, f.blocks[b]? = some block :=
      ⟨_, List.getElem?_eq_getElem (wf.edgesInside c.block b edge)⟩
    have cells : ∀ t, f.LiveAt t b block.instrs →
        (p.after m e i kept).cells (p.place t) = (f.program.after m c i rest).cells t := by
      intro t live
      rw [Program.after_cells_of_terminator terminator,
        Program.after_cells_of_terminator terminator]
      refine agrees.cells t ?_
      rw [here]
      exact point.liveAt_of_jump wf terminator target found live
    obtain ⟨kept, right, left, next⟩ := places.enter
      (succ_mem_reachable wf.edgesInside agrees.reach edge) found cells
      (by simp only [Program.after, same, agrees.slots]) (by simp only [Program.after, same])
      (f.program.actionAt m c i).shown
    refine Or.inr ⟨_, _, _, (Program.step_jump here rfl control).trans left, ?_, next⟩
    rw [Program.step_jump there executed (by rw [same]; exact control), same, right]

/-- The moves of the two executions, by what is still to come on the left. -/
theorem moves (places : f.Places p) (wf : f.WellFormed) (agrees : f.Agrees p c e) :
    (∃ outcome, f.program.step m c = .halt outcome ∧ p.step m e = .halt outcome) ∨
      (∃ es c' e', f.program.step m c = .go es c' ∧ p.step m e = .go es e' ∧ f.Agrees p c' e') ∨
      ∃ c', f.program.step m c = .go [] c' ∧ f.Agrees p c' e ∧ c'.rest.length < c.rest.length := by
  cases here : c.rest with
  | nil =>
    rcases places.fall wf agrees here with halts | ⟨c', e', left, right, next⟩
    · exact Or.inl halts
    · exact Or.inr (Or.inl ⟨[], c', e', left, right, next⟩)
  | cons i rest =>
    have thins := agrees.rest
    rw [here] at thins
    generalize there : e.rest = kept at thins
    cases thins with
    | keep later =>
      cases dropped : p.dropped i with
      | true =>
        obtain ⟨c', left, next⟩ := places.drop_copy (m := m) agrees here later dropped
        exact Or.inr (Or.inl ⟨[], c', _, left, Program.step_dropped there dropped, next⟩)
      | false =>
        rcases places.both wf agrees here there later dropped with halts | goes
        · exact Or.inl halts
        · exact Or.inr (Or.inl goes)
    | drop writes quiet dead later =>
      rw [← there] at later
      obtain ⟨c', left, next, shorter⟩ := skip_dead (m := m) agrees here writes quiet dead later
      exact Or.inr (Or.inr ⟨c', left, next, by rw [shorter]; exact Nat.lt_succ_self _⟩)

theorem simulation (places : f.Places p) (wf : f.WellFormed) (m : Machine Val Mem) :
    Simulation (f.program.step m) (p.step m) (f.Agrees p) fun c => c.rest.length := by
  refine .of_moves fun {c e} agrees => ?_
  rcases places.moves (m := m) wf agrees with
    ⟨outcome, left, right⟩ | ⟨es, c', e', left, right, later⟩ | silent
  · exact Or.inl ⟨outcome, 0, e, left, .refl e, right⟩
  · exact Or.inr (Or.inl ⟨es, c', 0, e', left, .one right, later⟩)
  · exact Or.inr (Or.inr silent)

/-- Executions that agree on what is live on entry behave the same. -/
theorem sameBehavior (places : f.Places p) (wf : f.WellFormed) (m : Machine Val Mem)
    {cells : Temp → Val} {others : κ → Val} {block : Block}
    (found : f.blocks[entry]? = some block)
    (live : ∀ t, f.LiveAt t entry block.instrs → others (p.place t) = cells t) (slots : Slot → Val)
    (mem : Mem) :
    SameBehavior (f.program.step m) (f.program.start cells slots mem)
      (p.step m) (p.start others slots mem) := by
  obtain ⟨kept, code, thins⟩ := places.code entry block found
  refine (places.simulation wf m).sameBehavior ?_
  unfold Program.start
  rw [program_code found, code]
  exact ⟨entry_mem_reachable wf.nonempty, .start found, rfl, thins, live, rfl, rfl⟩

end Func.Places

namespace Func

/-- Removing dead code leaves the behavior. -/
theorem Trims.places {f g : Func} (trims : f.Trims g) : f.Places g.program where
  code b block found := by
    obtain ⟨image, place, _, _, thins⟩ := trims.blocks b block found
    exact ⟨image.instrs, program_code place, thins⟩
  missing b missing := by
    refine program_code_none (List.getElem?_eq_none ?_)
    rw [trims.length]
    exact List.getElem?_eq_none_iff.mp missing
  write _ _ _ _ _ _ _ _ _ different shared := absurd shared different
  dropped _ dropped := nomatch dropped

theorem places_self (f : Func) : f.Places f.program where
  code _ block found := ⟨block.instrs, program_code found, .refl _⟩
  missing _ missing := program_code_none missing
  write _ _ _ _ _ _ _ _ _ different shared := absurd shared different
  dropped _ dropped := nomatch dropped

theorem TrimsStar.sameBehavior {f g : Func} (trims : f.TrimsStar g) (wf : f.WellFormed)
    (m : Machine Val Mem) (cells : Temp → Val) (slots : Slot → Val) (mem : Mem) :
    SameBehavior (f.program.step m) (f.program.start cells slots mem)
      (g.program.step m) (g.program.start cells slots mem) := by
  induction trims with
  | refl => exact ⟨fun _ => Iff.rfl, fun _ _ => Iff.rfl⟩
  | @tail h g first step ih =>
    have between := TrimsStar.wellFormed first wf
    obtain ⟨block, found⟩ := between.entry_block
    exact ih.trans (step.places.sameBehavior between m found (fun _ _ => rfl) slots mem)

end Func

/-- Dead code elimination preserves meaning, also where a watchdog stops it between two rounds; and
where it comes to an end, no dead definition is left. -/
theorem DeadCode.eliminate_sameBehavior {src : Source.Func} {automatic : Bool} {bound : Nat}
    {f g : Func} {outcome : Except Failure DeadCode}
    (source : Func.ofSource src automatic = .ok f)
    (run : DeadCode.eliminate bound f = (g, outcome)) :
    ((∃ d, outcome = .ok d ∧ Liveness.analyze bound g = .ok d.liveness ∧ g.Lively d.liveness) ∨
      outcome = .error (.internal g.name (.livenessUnsettled bound) none) ∨
      outcome = .error (.internal g.name (.deadCodeUnsettled bound) none)) ∧
    ∀ (m : Machine Val Mem) (cells : Temp → Val) (slots : Slot → Val) (mem : Mem),
      SameBehavior (f.program.step m) (f.program.start cells slots mem)
        (g.program.step m) (g.program.start cells slots mem) := by
  have wf := Func.ofSource_wellFormed source
  obtain ⟨trims, finished, failed⟩ := DeadCode.eliminateFrom_trims wf run
  refine ⟨?_, trims.sameBehavior wf⟩
  cases outcome with
  | ok d => exact Or.inl ⟨d, rfl, finished d rfl⟩
  | error e =>
    rcases failed e rfl with same | same
    · exact Or.inr (Or.inl (congrArg Except.error same))
    · exact Or.inr (Or.inr (congrArg Except.error same))

/-- A chain of definitions that only the next one reads, in front of what can be observed. -/
def chainSource : Source.Func :=
  ⟨"chain", [⟨0, none⟩],
    [.statement (.assign 1 (.binary .add (.temp 0) (.const 1))),
      .statement (.assign 2 (.binary .mul (.temp 1) (.temp 1))),
      .statement (.assign 3 (.binary .sub (.temp 2) (.temp 0))),
      .statement (.store 0 (.const 7)),
      .statement (.spillStore 0 0),
      .statement (.ret (some (.temp 0)))]⟩

/-- Two rounds take away two definitions of the chain, and then the watchdog stops. -/
theorem chainSource_sameBehavior : ∃ f g, Func.ofSource chainSource false = .ok f ∧
    DeadCode.eliminate 2 f = (g, .error (.internal g.name (.deadCodeUnsettled 2) none)) ∧
    f.instrs.length = 6 ∧ g.instrs.length = 4 ∧
    SameBehavior (f.program.step { adder with shown := fun _ => true })
      (f.program.start (fun t => (t : Int)) (fun _ => 0) ())
      (g.program.step { adder with shown := fun _ => true })
      (g.program.start (fun t => (t : Int)) (fun _ => 0) ()) := by
  have result : (Func.ofSource chainSource false).map (fun f =>
      (f.instrs.length, (DeadCode.eliminate 2 f).1.instrs.length,
        decide ((DeadCode.eliminate 2 f).2 = .error
          (.internal (DeadCode.eliminate 2 f).1.name (.deadCodeUnsettled 2) none)))) =
      .ok (6, 4, true) := by decide +kernel
  obtain ⟨f, source, values⟩ := map_eq_ok.mp result
  simp only [Prod.mk.injEq, decide_eq_true_eq] at values
  obtain ⟨before, after, stopped⟩ := values
  have run : DeadCode.eliminate 2 f = ((DeadCode.eliminate 2 f).1, .error
      (.internal (DeadCode.eliminate 2 f).1.name (.deadCodeUnsettled 2) none)) :=
    Prod.ext rfl stopped
  exact ⟨f, _, source, run, before, after, (DeadCode.eliminate_sameBehavior source run).2 _ _ _ _⟩

end RegisterColoring
