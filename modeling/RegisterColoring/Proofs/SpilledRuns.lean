import RegisterColoring.Proofs.Execution
import RegisterColoring.Proofs.Spills

namespace RegisterColoring

variable {Val Mem : Type}

namespace Spill

/-- The cells after the given reloads. -/
def loaded (stored : Slot → Val) : List Reload → (Temp → Val) → Temp → Val
  | [], cells => cells
  | r :: rest, cells => loaded stored rest (Function.update cells r.fresh (stored r.slot))

theorem loaded_of_not_fresh {stored : Slot → Val} {loads : List Reload} {cells : Temp → Val}
    {t : Temp} (other : ∀ r ∈ loads, r.fresh ≠ t) : loaded stored loads cells t = cells t := by
  induction loads generalizing cells with
  | nil => rfl
  | cons r rest ih =>
    rw [loaded, ih fun q later => other q (List.mem_cons_of_mem r later)]
    exact Function.update_of_ne (other r List.mem_cons_self).symm _ _

theorem loaded_fresh {stored : Slot → Val} {loads : List Reload} {cells : Temp → Val} {r : Reload}
    (ascending : loads.Pairwise fun r q => r.fresh < q.fresh) (member : r ∈ loads) :
    loaded stored loads cells r.fresh = stored r.slot := by
  induction loads generalizing cells with
  | nil => exact absurd member List.not_mem_nil
  | cons first rest ih =>
    obtain ⟨above, later⟩ := List.pairwise_cons.mp ascending
    rw [loaded]
    rcases List.mem_cons.mp member with rfl | inside
    · rw [loaded_of_not_fresh fun q behind => Nat.ne_of_gt (above q behind),
        Function.update_self]
    · exact ih later inside

/-- The loads in front of an instruction run silently. -/
theorem runs_loadCode (g : Func) (m : Machine Val Mem) (loads : List Reload)
    {e : Config Temp Val Mem} {rest : List Instr} (here : e.rest = loadCode loads ++ rest) :
    Runs (g.program.step m) loads.length e []
      { e with rest, cells := loaded e.slots loads e.cells } := by
  induction loads generalizing e with
  | nil =>
    have same : e = { e with rest, cells := loaded e.slots [] e.cells } := by
      rw [show rest = e.rest from here.symm]
      rfl
    rw [← same]
    exact .refl e
  | cons r later ih =>
    have move : g.program.step m e = .go [] { e with
        rest := loadCode later ++ rest,
        cells := Function.update e.cells r.fresh (e.slots r.slot) } :=
      Program.step_result here rfl rfl rfl
    exact .head move (ih rfl)

variable {slots : IndexMap Slot} {next : Nat} {m : Machine Val Mem}

theorem action_redirect {i : Instr}
    (address : ∀ t s, i.addressTaken? = some t → slots.get? t = some s →
      m.tempAddress t = m.slotAddress s) (read : Temp → Val) (stored : Slot → Val) (mem : Mem) :
    (redirect slots i).action m read stored mem = i.action m read stored mem := by
  rcases redirect_cases slots i with ⟨same, _⟩ | ⟨d, v, slot, rfl, found, same⟩
  · rw [same]
  · rw [same, Instr.action, Instr.action, address v slot rfl found]

/-- An instruction does the same with what it reads replaced. -/
theorem action_renamed {i : Instr} {read fresh : Temp → Val} {stored others : Slot → Val}
    (address : ∀ t s, i.addressTaken? = some t → slots.get? t = some s →
      m.tempAddress t = m.slotAddress s)
    (kept : ∀ t ∈ i.uses, slots.get? t = none → fresh t = read t)
    (reloaded : ∀ r ∈ loadsOf slots next i, fresh r.fresh = read r.temp)
    (same : ∀ s, i.slot? = some s → others s = stored s) (mem : Mem) :
    (renamed slots next i).action m fresh others mem = i.action m read stored mem := by
  have fixed : ∀ t, (redirect slots i).addressTaken? = some t →
      standIn (loadsOf slots next i) t = t := by
    intro t taken
    rcases redirect_cases slots i with ⟨plain, absent⟩ | ⟨d, v, slot, _, _, moved⟩
    · have used : t ∈ (redirect slots i).uses := Instr.mem_uses_of_addressTaken taken
      rw [plain] at taken
      rcases standIn_eq next used with ⟨_, same⟩ | ⟨r, inside, rfl, _⟩
      · exact same
      · cases (absent _ taken).symm.trans (mem_reloads inside).2.1
    · rw [moved] at taken
      exact nomatch taken
  have reads : ∀ t ∈ (redirect slots i).uses,
      (fresh ∘ standIn (loadsOf slots next i)) t = read t := by
    intro t used
    rcases standIn_eq next used with ⟨absent, same⟩ | ⟨r, inside, rfl, same⟩
    · exact (congrArg fresh same).trans (kept t (uses_redirect used) absent)
    · exact (congrArg fresh same).trans (reloaded r inside)
  rw [renamed, Instr.action_mapUses m _ fixed, ← action_redirect address read stored mem]
  rcases redirect_cases slots i with ⟨plain, _⟩ | ⟨d, v, slot, _, _, moved⟩
  · refine Instr.action_congr m reads ?_
    rw [plain]
    exact same
  · rw [moved]
    rfl

/-- In the code for an instruction one instruction stands behind the loads that acts like it, and
after that a store if the instruction writes a spilled temp. -/
theorem instrCode_core (slots : IndexMap Slot) (next : Nat) (i : Instr) :
    ∃ core tail, (instrCode slots next i).1 = loadCode (loadsOf slots next i) ++ core :: tail ∧
      (∀ (m : Machine Val Mem) read stored mem, core.action m read stored mem =
        (renamed slots next i).action m read stored mem) ∧
      ((∀ d, i.dest? = some d → slots.get? d = none) ∧ core.dest? = i.dest? ∧ tail = [] ∨
        ∃ (d : Temp) (slot : Slot) (x : Nat), i.dest? = some d ∧ slots.get? d = some slot ∧
          next ≤ x ∧ core.dest? = some x ∧ tail = [.spillStore slot x]) := by
  rcases instrCode_cases slots next i with ⟨plain, code⟩ | ⟨d, slot, x, free, writes, found, code,
    origin⟩
  · refine ⟨_, [], by rw [code], fun _ _ _ _ => rfl, Or.inl ⟨plain, ?_, rfl⟩⟩
    rw [renamed, Instr.dest?_mapUses, dest?_redirect]
  · refine ⟨(renamed slots next i).mapDest fun _ => x, _, by rw [code],
      fun m _ _ _ => Instr.action_mapDest m _ _, Or.inr ⟨d, slot, x, writes, found, ?_, ?_, rfl⟩⟩
    · rcases origin with ⟨shared, _⟩ | ⟨_, rfl, _⟩
      · obtain ⟨r, inside, _, rfl⟩ := fresh?_mem shared
        exact (fresh_lt inside).1
      · exact Nat.le_add_right _ _
    · rw [Instr.dest?_mapDest, renamed, Instr.dest?_mapUses, dest?_redirect, writes]
      rfl

end Spill

/-- On the right the values of the spilled temps are in their slots, and the other temps of `f` and
the slots that it has are as on the left. -/
structure Func.Mirrors (f : Func) (slots : IndexMap Slot) (cells : Temp → Val) (stored : Slot → Val)
    (others : Temp → Val) (moved : Slot → Val) : Prop where
  kept : ∀ t ∈ f.allTemps, slots.get? t = none → others t = cells t
  spilled : ∀ t s, slots.get? t = some s → moved s = cells t
  named : ∀ s : Nat, s < f.numSlots → moved s = stored s

namespace Func.Mirrors

variable {f g : Func} {temps : List Temp} {slots : IndexMap Slot} {cells others : Temp → Val}
  {stored moved : Slot → Val} {a : Action Val Mem}

/-- Temps of spill code do not matter. -/
theorem fresh (mirrors : f.Mirrors slots cells stored others moved) {changed : Temp → Val}
    (same : ∀ t ∈ f.allTemps, changed t = others t) :
    f.Mirrors slots cells stored changed moved :=
  ⟨fun t member absent => (same t member).trans (mirrors.kept t member absent), mirrors.spilled,
    mirrors.named⟩

/-- Both sides write the same temp. -/
theorem write (mirrors : f.Mirrors slots cells stored others moved) {dest? : Option Temp}
    (plain : ∀ d, dest? = some d → slots.get? d = none)
    (apart : ∀ t s v, slots.get? t = some s → a.slot ≠ some (s, v)) :
    f.Mirrors slots (a.writeCells dest? cells) (a.writeSlots stored) (a.writeCells dest? others)
      (a.writeSlots moved) := by
  refine ⟨fun t member absent => Action.writeCells_congr (mirrors.kept t member absent),
    fun t s found => ?_, fun s below => Action.writeSlots_congr (mirrors.named s below)⟩
  have unwritten : dest? ≠ some t := by
    intro writes
    cases (plain t writes).symm.trans found
  rw [Action.writeSlots_of_ne fun v => apart t s v found, Action.writeCells_of_ne unwritten]
  exact mirrors.spilled t s found

/-- The left side writes a spilled temp, and the right side a temp of spill code that it stores. -/
theorem store (mirrors : f.Mirrors slots cells stored others moved)
    (spills : f.Spills temps slots g) (nodup : temps.Nodup) (wf : f.WellFormed) {d : Temp}
    {slot : Slot} {x : Nat} {v : Val} (found : slots.get? d = some slot) (above : f.nextTemp ≤ x)
    (value : a.value = some v)
    (apart : ∀ t s v, slots.get? t = some s → a.slot ≠ some (s, v)) :
    f.Mirrors slots (a.writeCells (some d) cells) (a.writeSlots stored)
      (a.writeCells (some x) others) (Function.update (a.writeSlots moved) slot v) := by
  refine ⟨fun t member absent => ?_, fun t s place => ?_, fun s below => ?_⟩
  · have notFresh : some x ≠ some t := by
      rintro same
      cases same
      exact absurd above (Nat.not_le_of_lt (wf.temps x member))
    have notSpilled : some d ≠ some t := by
      rintro same
      cases same
      cases absent.symm.trans found
    rw [Action.writeCells_of_ne notFresh, Action.writeCells_of_ne notSpilled]
    exact mirrors.kept t member absent
  · by_cases isD : t = d
    · subst isD
      cases place.symm.trans found
      rw [Function.update_self, Action.writeCells_self value]
    · have other : s ≠ slot := by
        rintro rfl
        exact isD (spills.slot_injective nodup place found)
      rw [Function.update_of_ne other, Action.writeSlots_of_ne fun v => apart t s v place,
        Action.writeCells_of_ne fun same => isD (Option.some.inj same).symm]
      exact mirrors.spilled t s place
  · have other : s ≠ slot := by
      rintro rfl
      exact absurd (spills.slot_bounds found).1 (Nat.not_le_of_lt below)
    rw [Function.update_of_ne other]
    exact Action.writeSlots_congr (mirrors.named s below)

end Func.Mirrors

/-- The right execution is at the code for what is still to come on the left. -/
structure Func.Follows (f : Func) (slots : IndexMap Slot) (c e : Config Temp Val Mem) : Prop where
  here : f.At c.block c.rest
  block : e.block = c.block
  rest : ∃ next : Nat, f.nextTemp ≤ next ∧ e.rest = (Spill.instrsCode slots next c.rest).1
  data : f.Mirrors slots c.cells c.slots e.cells e.slots
  mem : e.mem = c.mem

/-- A machine on which a spilled temp whose address is taken has the address of its slot, and on
which the stores of spill code cannot be observed. -/
structure Func.Suits (f : Func) (slots : IndexMap Slot) (m : Machine Val Mem) : Prop where
  address : ∀ i ∈ f.instrs, ∀ t s, i.addressTaken? = some t → slots.get? t = some s →
    m.tempAddress t = m.slotAddress s
  hidden : ∀ s : Nat, m.shown s = true → s < f.numSlots

namespace Func.Spills

variable {f g : Func} {temps : List Temp} {slots : IndexMap Slot} {m : Machine Val Mem}
  {c e : Config Temp Val Mem}

theorem enter (spills : f.Spills temps slots g) {b : BlockId} {block : Block}
    (found : f.blocks[b]? = some block) {cells others : Temp → Val} {stored moved : Slot → Val}
    (data : f.Mirrors slots cells stored others moved) {mem memory : Mem} (same : memory = mem)
    (events : List (Observation Val)) (from₁ from₂ : BlockId) (left right : List Instr) :
    ∃ c' e', f.program.enter b events ⟨from₁, left, cells, stored, mem⟩ = .go events c' ∧
      g.program.enter b events ⟨from₂, right, others, moved, memory⟩ = .go events e' ∧
      f.Follows slots c' e' := by
  obtain ⟨first, low, _, place⟩ := spills.place found
  exact ⟨_, _, Program.enter_some (program_code found) events _,
    Program.enter_some (program_code place) events _,
    ⟨.start found, rfl, ⟨first, low, rfl⟩, data, same⟩⟩

/-- Both executions leave the block behind its last instruction. -/
theorem fall (spills : f.Spills temps slots g) (follows : f.Follows slots c e)
    (done : c.rest = []) :
    (∃ outcome, f.program.step m c = .halt outcome ∧ g.program.step m e = .halt outcome) ∨
      ∃ c' e', f.program.step m c = .go [] c' ∧ g.program.step m e = .go [] e' ∧
        f.Follows slots c' e' := by
  have ended : e.rest = [] := by
    obtain ⟨next, _, code⟩ := follows.rest
    rw [code, done]
    rfl
  rw [Program.step_nil done, Program.step_nil ended, follows.block]
  cases found : f.blocks[c.block + 1]? with
  | none =>
    have missing : g.blocks[c.block + 1]? = none := by
      rw [List.getElem?_eq_none_iff, spills.length]
      exact List.getElem?_eq_none_iff.mp found
    refine Or.inl ⟨.finished c.mem, Program.enter_none (program_code_none found) _ _, ?_⟩
    rw [Program.enter_none (program_code_none missing), follows.mem]
  | some block => exact Or.inr (spills.enter found follows.data follows.mem [] _ _ _ _)

/-- In front of an instruction the loads run, and then an instruction that acts like it comes. -/
theorem runs_to_core (g : Func) (wf : f.WellFormed) (suits : f.Suits slots m)
    (follows : f.Follows slots c e) {i : Instr} {rest : List Instr} (here : c.rest = i :: rest) :
    ∃ (n later : Nat) (core : Instr) (tail : List Instr) (cells : Temp → Val),
      f.nextTemp ≤ later ∧
      Runs (g.program.step m) n e []
        { e with rest := core :: (tail ++ (Spill.instrsCode slots later rest).1), cells } ∧
      core.action m cells e.slots e.mem = f.program.actionAt m c i ∧
      f.Mirrors slots c.cells c.slots cells e.slots ∧
      ((∀ d, i.dest? = some d → slots.get? d = none) ∧ core.dest? = i.dest? ∧ tail = [] ∨
        ∃ (d : Temp) (slot : Slot) (x : Nat), i.dest? = some d ∧ slots.get? d = some slot ∧
          f.nextTemp ≤ x ∧ core.dest? = some x ∧ tail = [.spillStore slot x]) := by
  obtain ⟨next, low, code⟩ := follows.rest
  obtain ⟨core, tail, shape, acts, forms⟩ := Spill.instrCode_core slots next i
  have point := follows.here
  rw [here] at point
  rw [here, Spill.instrsCode_cons, shape, List.append_assoc, List.cons_append] at code
  have data : f.Mirrors slots c.cells c.slots
      (Spill.loaded e.slots (Spill.loadsOf slots next i) e.cells) e.slots := by
    refine follows.data.fresh fun t member => Spill.loaded_of_not_fresh fun r inside same => ?_
    have above := (Spill.fresh_lt inside).1
    rw [same] at above
    exact absurd (Nat.le_trans low above) (Nat.not_le_of_lt (wf.temps t member))
  refine ⟨_, _, core, tail, _, Nat.le_trans low (Spill.next_le_free slots next i),
    Spill.runs_loadCode g m _ code, ?_, data, forms.imp_right ?_⟩
  swap
  · rintro ⟨d, slot, x, writes, found, above, rest⟩
    exact ⟨d, slot, x, writes, found, Nat.le_trans low above, rest⟩
  rw [acts, follows.mem]
  refine Spill.action_renamed (suits.address i point.mem_instrs) (fun t used absent => ?_)
    (fun r inside => ?_)
    (fun s slot => follows.data.named s (wf.slots i point.mem_instrs s slot)) c.mem
  · exact data.kept t (Func.mem_allTemps.mpr (Or.inr (Or.inr ⟨i, point.mem_instrs,
      Instr.mem_temps.mpr (Or.inr used)⟩))) absent
  · refine (Spill.loaded_fresh (Spill.reloads_ascending slots next _) inside).trans ?_
    exact follows.data.spilled _ _ (Spill.mem_reloads inside).2.1

/-- An instruction of the function names none of the slots of spilled temps. -/
theorem slot_apart (spills : f.Spills temps slots g) (wf : f.WellFormed)
    {i : Instr} (member : i ∈ f.instrs) (t : Temp) (s : Slot) (v : Val)
    (found : slots.get? t = some s) : (f.program.actionAt m c i).slot ≠ some (s, v) := by
  intro stores
  have below := wf.slots i member s (Instr.slot?_of_slot m stores)
  exact absurd (spills.slot_bounds found).1 (Nat.not_le_of_lt below)

theorem step_hidden_store (g : Func) {b : BlockId} {slot : Slot} {x : Temp} {rest : List Instr}
    {cells : Temp → Val} {stored : Slot → Val} {mem : Mem} (hidden : m.shown slot = false) :
    g.program.step m ⟨b, .spillStore slot x :: rest, cells, stored, mem⟩ =
      .go [] ⟨b, rest, cells, Function.update stored slot (cells x), mem⟩ := by
  rw [Program.step_next rfl rfl rfl]
  simp only [Program.after, Program.actionAt, Instr.action, hidden]
  rfl

/-- An instruction that goes on to the next one. -/
theorem pass (spills : f.Spills temps slots g) (nodup : temps.Nodup) (wf : f.WellFormed)
    (suits : f.Suits slots m) (follows : f.Follows slots c e) {i : Instr} {rest : List Instr}
    (here : c.rest = i :: rest) (goes : (f.program.actionAt m c i).control = .next) :
    ∃ n c' e', f.program.step m c = .go (f.program.actionAt m c i).shown c' ∧
      Runs (g.program.step m) (n + 1) e (f.program.actionAt m c i).shown e' ∧
      f.Follows slots c' e' := by
  obtain ⟨n, later, core, tail, cells, low, loads, acts, data, forms⟩ :=
    runs_to_core g wf suits follows here
  have point := follows.here
  rw [here] at point
  have ahead := point.next (Instr.not_terminator_of_next m goes)
  have apart := spills.slot_apart (m := m) (c := c) wf point.mem_instrs
  -- Spill code is the loads, the instruction itself, and a store if it writes a spilled temp.
  have move := loads.trans (.one (step_next rfl acts goes))
  rcases forms with ⟨plain, dest, rfl⟩ | ⟨d, slot, x, writes, found, above, dest, rfl⟩
  · rw [dest] at move
    exact ⟨n, _, _, step_next here rfl goes, move,
      ⟨ahead, follows.block, ⟨later, low, rfl⟩, data.write plain apart, rfl⟩⟩
  · obtain ⟨v, value⟩ := Instr.value_of_next m goes writes
    have silent : m.shown slot = false := by
      rw [← Bool.not_eq_true]
      exact fun shown => absurd (spills.slot_bounds found).1
        (Nat.not_le_of_lt (suits.hidden slot shown))
    have whole := move.trans (.one (step_hidden_store g silent))
    rw [List.nil_append, List.append_nil, dest, Action.writeCells_self value] at whole
    refine ⟨n + 1, _, _, step_next here rfl goes, whole, ?_⟩
    rw [writes]
    exact ⟨ahead, follows.block, ⟨later, low, rfl⟩,
      data.store spills nodup wf found above value apart, rfl⟩

/-- An instruction that leaves its block. -/
theorem leave (spills : f.Spills temps slots g) (wf : f.WellFormed)
    (suits : f.Suits slots m) (follows : f.Follows slots c e) {i : Instr} {rest : List Instr}
    (here : c.rest = i :: rest) {b : BlockId}
    (jumps : (f.program.actionAt m c i).control = .jump b) :
    ∃ n c' e', f.program.step m c = .go (f.program.actionAt m c i).shown c' ∧
      Runs (g.program.step m) (n + 1) e (f.program.actionAt m c i).shown e' ∧
      f.Follows slots c' e' := by
  obtain ⟨n, later, core, tail, cells, low, loads, acts, data, forms⟩ :=
    runs_to_core g wf suits follows here
  have point := follows.here
  rw [here] at point
  have terminator := Instr.terminator_of_jump m jumps
  have edge : b ∈ f.succs c.block := by
    rw [(point.leaves wf terminator).2]
    exact Instr.mem_targets_of_jump m jumps
  have found := List.getElem?_eq_getElem (wf.edgesInside c.block b edge)
  have move := step_jump (f := g) (c := { e with
    rest := core :: (tail ++ (Spill.instrsCode slots later rest).1), cells }) rfl acts jumps
  rcases forms with ⟨plain, dest, rfl⟩ | ⟨d, slot, x, writes, _⟩
  · rw [dest] at move
    have written := data.write plain (spills.slot_apart (m := m) (c := c) wf point.mem_instrs)
    obtain ⟨c', e', left, right, next⟩ := spills.enter found written rfl _ _ _ _ _
    exact ⟨n, c', e', (step_jump here rfl jumps).trans left,
      loads.trans (.one (move.trans right)), next⟩
  · cases (Instr.dest?_of_terminator terminator).symm.trans writes

/-- What the two executions do, by what is still to come on the left. -/
theorem moves (spills : f.Spills temps slots g) (nodup : temps.Nodup) (wf : f.WellFormed)
    (suits : f.Suits slots m) (follows : f.Follows slots c e) :
    (∃ outcome n u, f.program.step m c = .halt outcome ∧ Runs (g.program.step m) n e [] u ∧
        g.program.step m u = .halt outcome) ∨
      ∃ es next n u, f.program.step m c = .go es next ∧ Runs (g.program.step m) (n + 1) e es u ∧
        f.Follows slots next u := by
  cases here : c.rest with
  | nil =>
    rcases spills.fall (m := m) follows here with ⟨outcome, left, right⟩ | ⟨c', e', left, right, next⟩
    · exact Or.inl ⟨outcome, 0, e, left, .refl e, right⟩
    · exact Or.inr ⟨[], c', 0, e', left, .one right, next⟩
  | cons i rest =>
    cases control : (f.program.actionAt m c i).control with
    | next =>
      obtain ⟨n, c', e', left, right, next⟩ := spills.pass nodup wf suits follows here control
      exact Or.inr ⟨_, c', n, e', left, right, next⟩
    | jump b =>
      obtain ⟨n, c', e', left, right, next⟩ := spills.leave wf suits follows here control
      exact Or.inr ⟨_, c', n, e', left, right, next⟩
    | stop outcome =>
      obtain ⟨n, later, core, tail, cells, _, loads, acts, _⟩ :=
        runs_to_core g wf suits follows here
      exact Or.inl ⟨outcome, n, _, Program.step_stop here rfl control, loads,
        Program.step_stop rfl rfl ((congrArg Action.control acts).trans control)⟩

theorem simulation (spills : f.Spills temps slots g) (nodup : temps.Nodup) (wf : f.WellFormed)
    (suits : f.Suits slots m) :
    Simulation (f.program.step m) (g.program.step m) (f.Follows slots) fun _ => 0 :=
  .of_moves fun follows => (spills.moves nodup wf suits follows).imp_right fun moves => Or.inl moves

/-- Executions that start with the same values follow each other from the start. -/
theorem follows_start (spills : f.Spills temps slots g) (wf : f.WellFormed)
    {cells others : Temp → Val} {stored moved : Slot → Val}
    (data : f.Mirrors slots cells stored others moved) (mem : Mem) :
    f.Follows slots (f.program.start cells stored mem) (g.program.start others moved mem) := by
  obtain ⟨block, found⟩ := wf.entry_block
  obtain ⟨first, low, _, place⟩ := spills.place found
  unfold Program.start
  rw [program_code found, program_code place]
  exact ⟨.start found, rfl, ⟨first, low, rfl⟩, data, rfl⟩

/-- With the values of the spilled temps in their slots, spill code leaves the behavior. -/
theorem sameBehavior (spills : f.Spills temps slots g) (nodup : temps.Nodup) (wf : f.WellFormed)
    (suits : f.Suits slots m) {cells : Temp → Val} {stored : Slot → Val}
    (held : ∀ t s, slots.get? t = some s → stored s = cells t) (mem : Mem) :
    SameBehavior (f.program.step m) (f.program.start cells stored mem)
      (g.program.step m) (g.program.start cells stored mem) :=
  (spills.simulation nodup wf suits).sameBehavior
    (spills.follows_start wf ⟨fun _ _ _ => rfl, held, fun _ _ => rfl⟩ mem)

end Func.Spills

end RegisterColoring
