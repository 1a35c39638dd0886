import RegisterColoring.Proofs.SpillRanges

namespace RegisterColoring

/-- What follows the loads in a cluster of `t`. The instruction for which they were made may be
gone. If it writes `t`, a store of `t` is next. -/
inductive Core (t : Temp) : List Instr → Prop
  | gone : Core t []
  | plain {i : Instr} : i.dest? ≠ some t → Core t [i]
  | stored {i : Instr} {slot : Slot} : i.dest? = some t → Core t [i, .spillStore slot t]

/-- Block `b` is `pre`, loads into temps of spill code, `core` and `post`, and besides the loads
and the core nothing in the function names `t`. -/
structure Func.Cluster (f : Func) (t : Temp) (b : BlockId) (pre loads core post : List Instr) :
    Prop where
  found : ∃ block, f.blocks[b]? = some block ∧ block.instrs = pre ++ (loads ++ (core ++ post))
  loads : ∀ i ∈ loads, i.IsReload f.spillTemps
  core : Core t core
  before : ∀ i ∈ pre, t ∉ i.temps
  behind : ∀ i ∈ post, t ∉ i.temps
  elsewhere : ∀ c ≠ b, ∀ block, f.blocks[c]? = some block → ∀ i ∈ block.instrs, t ∉ i.temps

/-- Every temp of spill code has its cluster. -/
def Func.Clustered (f : Func) : Prop :=
  ∀ t ∈ f.spillTemps, ∃ b pre loads core post, f.Cluster t b pre loads core post

namespace Func.Thins

variable {f : Func} {b : BlockId}

/-- A store stays, and keeps the instruction alive whose result it stores. -/
theorem core {t : Temp} {core post kept : List Instr} (shape : Core t core)
    (thins : f.Thins b (core ++ post) kept) :
    ∃ left back, kept = left ++ back ∧ Core t left ∧ f.Thins b post back := by
  cases shape with
  | gone => exact ⟨[], kept, rfl, .gone, thins⟩
  | @plain i other =>
    cases thins with
    | keep later => exact ⟨[i], _, rfl, .plain other, later⟩
    | drop _ _ _ later => exact ⟨[], kept, rfl, .gone, later⟩
  | @stored i slot writes =>
    have store : ∀ {rest : List Instr}, f.Thins b (.spillStore slot t :: post) rest →
        ∃ back, rest = .spillStore slot t :: back ∧ f.Thins b post back := by
      intro rest later
      cases later with
      | keep last => exact ⟨_, rfl, last⟩
      | drop _ quiet => exact nomatch quiet
    cases thins with
    | keep later =>
      obtain ⟨back, rfl, last⟩ := store later
      exact ⟨[i, .spillStore slot t], back, rfl, .stored writes, last⟩
    | drop same _ dead _ =>
      cases Option.some.inj (writes.symm.trans same)
      exact absurd (.read (List.mem_singleton_self t)) dead

end Func.Thins

theorem Func.Trims.clustered {f g : Func} (trims : f.Trims g) (clustered : f.Clustered) :
    g.Clustered := by
  intro t spill
  have same : g.spillTemps = f.spillTemps := by rw [trims.fields]
  rw [same] at spill
  obtain ⟨b, pre, loads, core, post, cluster⟩ := clustered t spill
  obtain ⟨block, found, split⟩ := cluster.found
  obtain ⟨image, place, _, _, thins⟩ := trims.blocks b block found
  rw [split] at thins
  obtain ⟨front, rest, cut, fewer, thins⟩ := thins.split
  obtain ⟨reloads, rest, rfl, fewerLoads, thins⟩ := thins.split
  obtain ⟨left, back, rfl, shape, thins⟩ := thins.core cluster.core
  refine ⟨b, front, reloads, left, back, ⟨image, place, cut⟩, ?_, shape, ?_, ?_, ?_⟩
  · intro i member
    rw [same]
    exact cluster.loads i (fewerLoads.subset member)
  · exact fun i member => cluster.before i (fewer.subset member)
  · exact fun i member => cluster.behind i (thins.sublist.subset member)
  · intro c other image found i member
    obtain ⟨block, old, _, _, thins⟩ := trims.origin found
    exact cluster.elsewhere c other block old i (thins.sublist.subset member)

theorem Func.TrimsStar.clustered {f g : Func} (trims : f.TrimsStar g) (clustered : f.Clustered) :
    g.Clustered := by
  induction trims with
  | refl => exact clustered
  | tail _ step ih => exact step.clustered ih

namespace Spill

variable {slots : IndexMap Slot} {next : Nat} {t : Temp} {row : List Instr}

theorem instrCode_spillLoad {slot : Slot} (kept : slots.get? t = none) :
    instrCode slots next (.spillLoad t slot) = ([.spillLoad t slot], next) := by
  rcases instrCode_cases slots next (.spillLoad t slot) with ⟨_, code⟩ |
    ⟨d, _, _, _, writes, stored, _⟩
  · exact code
  · cases writes
    cases kept.symm.trans stored

theorem instrCode_spillStore {slot : Slot} (kept : slots.get? t = none) :
    instrCode slots next (.spillStore slot t) = ([.spillStore slot t], next) := by
  have none : loadsOf slots next (.spillStore slot t) = [] := by
    have uses : (redirect slots (.spillStore slot t)).uses = [t] := by
      simp [redirect, Instr.uses, Instr.operands, Operand.temp?, distinct]
    rw [loadsOf, uses, reloads_cons_none kept, reloads_nil]
  rcases instrCode_cases slots next (.spillStore slot t) with ⟨_, code⟩ | ⟨_, _, _, _, writes, _⟩
  · rw [none] at code
    simpa [renamed, none, redirect, Instr.mapUses, standIn, fresh?, loadCode] using code
  · cases writes

/-- Reloads of temps that stay in registers are left alone. -/
theorem instrsCode_reloads {temps : IndexSet} (kept : ∀ t ∈ temps, slots.get? t = none)
    (loads : ∀ i ∈ row, i.IsReload temps) : instrsCode slots next row = (row, next) := by
  induction row with
  | nil => rfl
  | cons i rest ih =>
    obtain ⟨t, member, slot, rfl⟩ := loads i List.mem_cons_self
    rw [instrsCode_cons, instrCode_spillLoad (kept t member),
      ih fun j inside => loads j (List.mem_cons_of_mem _ inside)]
    rfl

/-- The code for a row names a temp only if the row does or if it introduces the temp. -/
theorem not_mem_temps_instrsCode {t : Nat} (unnamed : ∀ i ∈ row, t ∉ i.temps)
    (outside : t < next ∨ (instrsCode slots next row).2 ≤ t) :
    ∀ j ∈ (instrsCode slots next row).1, t ∉ j.temps := by
  intro j member named
  obtain ⟨i, inside, first, low, here, high⟩ := mem_instrsCode member
  rcases temps_instrCode here named with ⟨old, _⟩ | ⟨above, below⟩
  · exact unnamed i inside old
  · rcases outside with early | late
    · exact Nat.lt_irrefl t (Nat.lt_of_lt_of_le early (Nat.le_trans low above))
    · exact Nat.lt_irrefl t (Nat.lt_of_lt_of_le below (Nat.le_trans high late))

/-- The code for an instruction that does not write `t` is a core of `t`, with loads in front, and
perhaps a store of another temp behind. -/
theorem core_instrCode (slots : IndexMap Slot) (next : Nat) {i : Instr} (other : i.dest? ≠ some t) :
    ∃ core extra, (instrCode slots next i).1 = loadCode (loadsOf slots next i) ++ (core ++ extra) ∧
      Core t core ∧ ∀ j ∈ extra, t ∉ j.temps := by
  rcases instrCode_cases slots next i with ⟨_, code⟩ | ⟨d, slot, x, free, writes, _, code, _⟩
  · refine ⟨[renamed slots next i], [], by rw [code]; rfl, .plain ?_, fun j impossible => ?_⟩
    · rw [dest?_renamed]
      exact other
    · exact absurd impossible List.not_mem_nil
  · have dest : ((renamed slots next i).mapDest fun _ => x).dest? = some x := by
      rw [Instr.dest?_mapDest, dest?_renamed, writes]
      rfl
    by_cases same : x = t
    · subst same
      refine ⟨_, [], by rw [code, List.append_nil], .stored dest, fun j impossible => ?_⟩
      exact absurd impossible List.not_mem_nil
    · refine ⟨[_], [.spillStore slot x], by rw [code]; rfl, .plain ?_, fun j member named => ?_⟩
      · rw [dest]
        exact fun equal => same (Option.some.inj equal)
      · rw [List.mem_singleton.mp member, Instr.mem_temps] at named
        rcases named with impossible | used
        · exact nomatch impossible
        · exact same (List.mem_singleton.mp used).symm

theorem core_instrsCode (next : Nat) {core : List Instr} (shape : Core t core)
    (kept : slots.get? t = none) :
    ∃ loads left extra, (instrsCode slots next core).1 = loadCode loads ++ (left ++ extra) ∧
      (∀ r ∈ loads, next ≤ r.fresh ∧ r.fresh < (instrsCode slots next core).2) ∧
      Core t left ∧ ∀ j ∈ extra, t ∉ j.temps := by
  cases shape with
  | gone =>
    exact ⟨[], [], [], rfl, fun r impossible => absurd impossible List.not_mem_nil, .gone,
      fun j impossible => absurd impossible List.not_mem_nil⟩
  | @plain i other =>
    obtain ⟨left, extra, code, shape, unnamed⟩ := core_instrCode slots next other
    refine ⟨_, left, extra, ?_, fun r inside => fresh_lt inside, shape, unnamed⟩
    rw [instrsCode_singleton]
    exact code
  | @stored i slot writes =>
    rcases instrCode_cases slots next i with ⟨_, code⟩ | ⟨d, _, _, _, same, stored, _⟩
    · refine ⟨loadsOf slots next i, [renamed slots next i, .spillStore slot t], [], ?_,
        fun r inside => ?_, .stored (by rw [dest?_renamed]; exact writes),
        fun j impossible => absurd impossible List.not_mem_nil⟩
      · rw [instrsCode_cons, code, instrsCode_singleton, instrCode_spillStore kept]
        simp only [List.append_nil, List.append_assoc, List.singleton_append]
      · have fresh := fresh_lt inside
        rw [instrsCode_cons, instrsCode_singleton, instrCode_spillStore kept]
        exact fresh
    · cases Option.some.inj (writes.symm.trans same)
      cases kept.symm.trans stored

/-- The code for a row in three parts, with the numbers from which the second and the third take
their fresh temps. -/
theorem instrsCode_parts (slots : IndexMap Slot) (next : Nat) (pre mid post : List Instr) :
    ∃ start stop : Nat, start = (instrsCode slots next pre).2 ∧
      stop = (instrsCode slots start mid).2 ∧ next ≤ start ∧ start ≤ stop ∧
      stop ≤ (instrsCode slots next (pre ++ (mid ++ post))).2 ∧
      (instrsCode slots next (pre ++ (mid ++ post))).1 = (instrsCode slots next pre).1 ++
        ((instrsCode slots start mid).1 ++ (instrsCode slots stop post).1) := by
  refine ⟨_, _, rfl, rfl, le_last slots next pre, le_last slots _ mid, ?_, ?_⟩
  · rw [instrsCode_append, instrsCode_append]
    exact le_last slots _ post
  · rw [instrsCode_append, instrsCode_append]

/-- A temp that the code for a row introduces belongs to one of its instructions. -/
theorem instrsCode_fresh {t : Nat} (above : next ≤ t) (below : t < (instrsCode slots next row).2) :
    ∃ pre i post, row = pre ++ i :: post ∧ (instrsCode slots next pre).2 ≤ t ∧
      t < (instrCode slots (instrsCode slots next pre).2 i).2 := by
  induction row generalizing next with
  | nil => exact absurd below (Nat.not_lt_of_le above)
  | cons i rest ih =>
    by_cases here : t < (instrCode slots next i).2
    · exact ⟨[], i, rest, rfl, above, here⟩
    · rw [instrsCode_cons] at below
      obtain ⟨pre, j, post, rfl, low, high⟩ := ih (Nat.not_lt.mp here) below
      refine ⟨i :: pre, j, post, rfl, ?_, ?_⟩
      · rw [instrsCode_cons]
        exact low
      · rw [instrsCode_cons]
        exact high

theorem not_mem_temps_blocksCode {t : Nat} {blocks : List Block}
    (unnamed : ∀ block ∈ blocks, ∀ i ∈ block.instrs, t ∉ i.temps)
    (outside : t < next ∨ (blocksCode slots next blocks).2 ≤ t) :
    ∀ image ∈ (blocksCode slots next blocks).1, ∀ j ∈ image.instrs, t ∉ j.temps := by
  have code := blocksCode_instrs slots next blocks
  have rows : ∀ i ∈ blocks.flatMap (·.instrs), t ∉ i.temps := by
    intro i member
    obtain ⟨block, inside, here⟩ := List.mem_flatMap.mp member
    exact unnamed block inside i here
  have flat : ∀ j ∈ (instrsCode slots next (blocks.flatMap (·.instrs))).1, t ∉ j.temps :=
    not_mem_temps_instrsCode rows (by rw [code]; exact outside)
  intro image inside j member
  refine flat j ?_
  rw [code]
  exact List.mem_flatMap.mpr ⟨image, inside, member⟩

/-- A temp that the code for a list of blocks introduces belongs to one block. -/
theorem blocksCode_fresh {t : Nat} {blocks : List Block}
    (unnamed : ∀ block ∈ blocks, ∀ i ∈ block.instrs, t ∉ i.temps) (above : next ≤ t)
    (below : t < (blocksCode slots next blocks).2) :
    ∃ (b : BlockId) (block : Block) (first : Nat), blocks[b]? = some block ∧
      next ≤ first ∧ first ≤ t ∧ t < (instrsCode slots first block.instrs).2 ∧
      (instrsCode slots first block.instrs).2 ≤ (blocksCode slots next blocks).2 ∧
      (blocksCode slots next blocks).1[b]? =
        some { block with instrs := (instrsCode slots first block.instrs).1 } ∧
      ∀ c ≠ b, ∀ image, (blocksCode slots next blocks).1[c]? = some image →
        ∀ j ∈ image.instrs, t ∉ j.temps := by
  induction blocks generalizing next with
  | nil => exact absurd below (Nat.not_lt_of_le above)
  | cons head rest ih =>
    have unnamedHead := unnamed head List.mem_cons_self
    have unnamedRest : ∀ block ∈ rest, ∀ i ∈ block.instrs, t ∉ i.temps :=
      fun block inside => unnamed block (List.mem_cons_of_mem _ inside)
    rw [blocksCode_cons] at below ⊢
    by_cases here : t < (instrsCode slots next head.instrs).2
    · have grows : (instrsCode slots next head.instrs).2 ≤
          (blocksCode slots (instrsCode slots next head.instrs).2 rest).2 := by
        have last := le_last slots (instrsCode slots next head.instrs).2 (rest.flatMap (·.instrs))
        rwa [blocksCode_instrs] at last
      refine ⟨0, head, next, rfl, Nat.le_refl _, above, here, grows, rfl,
        fun c other image found => ?_⟩
      cases c with
      | zero => exact absurd rfl other
      | succ c =>
        exact not_mem_temps_blocksCode unnamedRest (Or.inl here) image (List.mem_of_getElem? found)
    · have late := Nat.not_lt.mp here
      obtain ⟨b, block, first, found, low, lower, upper, high, place, apart⟩ :=
        ih unnamedRest late below
      refine ⟨b + 1, block, first, found, Nat.le_trans (le_last slots next head.instrs) low, lower,
        upper, high, place, fun c other image found => ?_⟩
      cases c with
      | zero =>
        cases Option.some.inj found
        exact not_mem_temps_instrsCode unnamedHead (Or.inr late)
      | succ c =>
        exact apart c (fun same => other (congrArg (· + 1) same)) image found

end Spill

namespace Func.Spills

variable {f g : Func} {temps : List Temp} {slots : IndexMap Slot} {t : Nat}

/-- Loads for the spilled temps are put between the loads that are there and the instruction. -/
theorem cluster_old (spills : f.Spills temps slots g) (wf : f.WellFormed)
    (kept : ∀ t ∈ f.spillTemps, slots.get? t = none) (spill : t ∈ f.spillTemps) {b : BlockId}
    {pre loads core post : List Instr} (cluster : f.Cluster t b pre loads core post) :
    ∃ pre loads core post, g.Cluster t b pre loads core post := by
  have bound := wf.spillTemps t spill
  obtain ⟨block, found, split⟩ := cluster.found
  rw [← List.append_assoc loads] at split
  obtain ⟨first, low, high, place⟩ := spills.place found
  obtain ⟨start, stop, _, atStop, afterPre, afterCore, last, code⟩ :=
    Spill.instrsCode_parts slots first pre (loads ++ core) post
  rw [← split] at last code
  have middle : Spill.instrsCode slots start (loads ++ core) =
      (loads ++ (Spill.instrsCode slots start core).1, (Spill.instrsCode slots start core).2) := by
    rw [Spill.instrsCode_append, Spill.instrsCode_reloads kept cluster.loads]
  obtain ⟨new, left, extra, coreCode, fresh, shape, unnamed⟩ :=
    Spill.core_instrsCode start cluster.core (kept t spill)
  rw [middle, coreCode] at code
  rw [middle] at atStop
  refine ⟨(Spill.instrsCode slots first pre).1, loads ++ Spill.loadCode new, left,
    extra ++ (Spill.instrsCode slots stop post).1, ⟨_, place, ?_⟩, fun i member => ?_, shape, ?_,
    fun i member => ?_, fun c other image atC => ?_⟩
  · simp only [code, List.append_assoc]
  · rcases List.mem_append.mp member with old | load
    · obtain ⟨u, inside, slot, same⟩ := cluster.loads i old
      exact ⟨u, (spills.spillTemps u).mpr (Or.inl inside), slot, same⟩
    · obtain ⟨r, inside, same⟩ := Spill.mem_loadCode.mp load
      obtain ⟨least, most⟩ := fresh r inside
      have above : f.nextTemp ≤ r.fresh := Nat.le_trans low (Nat.le_trans afterPre least)
      have below : r.fresh < g.nextTemp := by
        rw [← atStop] at most
        exact Nat.lt_of_lt_of_le most (Nat.le_trans last high)
      exact ⟨r.fresh, (spills.spillTemps r.fresh).mpr (Or.inr ⟨above, below⟩), r.slot, same⟩
  · exact Spill.not_mem_temps_instrsCode cluster.before (Or.inl (by omega))
  · rcases List.mem_append.mp member with store | later
    · exact unnamed i store
    · exact Spill.not_mem_temps_instrsCode cluster.behind (Or.inl (by omega)) i later
  · obtain ⟨old, there, next, above, _, rfl⟩ := spills.origin atC
    exact Spill.not_mem_temps_instrsCode (cluster.elsewhere c other old there) (Or.inl (by omega))

/-- What is introduced has the code of one instruction as its cluster. -/
theorem cluster_new (spills : f.Spills temps slots g) (wf : f.WellFormed) (above : f.nextTemp ≤ t)
    (below : t < g.nextTemp) : ∃ b pre loads core post, g.Cluster t b pre loads core post := by
  have unnamed : ∀ block ∈ f.blocks, ∀ i ∈ block.instrs, t ∉ i.temps := by
    intro block member i inside named
    obtain ⟨b, found⟩ := List.mem_iff_getElem?.mp member
    have bound := wf.temp_lt (Func.mem_instrs.mpr ⟨b, block, found, inside⟩) named
    exact absurd above (Nat.not_le_of_lt bound)
  rw [spills.nextTemp] at below
  obtain ⟨b, block, first, found, low, lower, upper, high, place, apart⟩ :=
    Spill.blocksCode_fresh unnamed above below
  rw [← spills.blocks] at place apart
  rw [← spills.nextTemp] at high
  have rows := unnamed block (List.mem_of_getElem? found)
  obtain ⟨pre, i, post, split, introduced, known⟩ := Spill.instrsCode_fresh lower upper
  obtain ⟨start, stop, atStart, atStop, afterPre, _, last, code⟩ :=
    Spill.instrsCode_parts slots first pre [i] post
  rw [← atStart] at introduced known
  rw [List.singleton_append, ← split] at last code
  rw [split] at rows
  rw [Spill.instrsCode_singleton] at atStop code
  have other : i.dest? ≠ some t := fun writes =>
    rows i (List.mem_append_right _ List.mem_cons_self) (Instr.mem_temps.mpr (Or.inl writes))
  obtain ⟨core, extra, coreCode, shape, unnamedStore⟩ := Spill.core_instrCode slots start other
  rw [coreCode] at code
  refine ⟨b, (Spill.instrsCode slots first pre).1, Spill.loadCode (Spill.loadsOf slots start i), core,
    extra ++ (Spill.instrsCode slots stop post).1, ⟨_, place, ?_⟩, fun j member => ?_, shape, ?_,
    fun j member => ?_, apart⟩
  · simp only [code, List.append_assoc]
  · obtain ⟨r, inside, same⟩ := Spill.mem_loadCode.mp member
    obtain ⟨least, most⟩ := Spill.fresh_lt inside
    have above : f.nextTemp ≤ r.fresh := Nat.le_trans low (Nat.le_trans afterPre least)
    have below : r.fresh < g.nextTemp := by
      rw [← atStop] at most
      exact Nat.lt_of_lt_of_le most (Nat.le_trans last high)
    exact ⟨r.fresh, (spills.spillTemps r.fresh).mpr (Or.inr ⟨above, below⟩), r.slot, same⟩
  · refine Spill.not_mem_temps_instrsCode
      (fun j inside => rows j (List.mem_append_left _ inside)) (Or.inr ?_)
    rw [← atStart]
    exact introduced
  · rcases List.mem_append.mp member with store | later
    · exact unnamedStore j store
    · refine Spill.not_mem_temps_instrsCode (fun k inside => rows k (List.mem_append_right _
        (List.mem_cons_of_mem _ inside))) (Or.inl ?_) j later
      rw [atStop]
      exact known

theorem clustered (spills : f.Spills temps slots g) (wf : f.WellFormed)
    (kept : ∀ t ∈ f.spillTemps, slots.get? t = none) (clustered : f.Clustered) : g.Clustered := by
  intro t spill
  rcases (spills.spillTemps t).mp spill with old | ⟨above, below⟩
  · obtain ⟨b, pre, loads, core, post, cluster⟩ := clustered t old
    exact ⟨b, spills.cluster_old wf kept old cluster⟩
  · exact spills.cluster_new wf above below

end Func.Spills

end RegisterColoring
