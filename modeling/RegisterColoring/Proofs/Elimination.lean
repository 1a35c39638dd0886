import RegisterColoring.DeadCode
import RegisterColoring.Proofs.Trails

namespace RegisterColoring

/-- The second row is the first one without some definitions that have no effect and whose temps
are not live behind them. -/
inductive Func.Thins (f : Func) (b : BlockId) : List Instr → List Instr → Prop
  | nil : Thins f b [] []
  | keep {i : Instr} {rest kept : List Instr} : Thins f b rest kept → Thins f b (i :: rest) (i :: kept)
  | drop {i : Instr} {d : Temp} {rest kept : List Instr} : i.dest? = some d → i.hasEffect = false →
      ¬ f.LiveAt d b rest → Thins f b rest kept → Thins f b (i :: rest) kept

/-- What a row reads before it writes it is live in front of it. -/
theorem Func.LiveAt.of_liveRow {f : Func} {t : Temp} {b : BlockId} {row : List Instr}
    (member : t ∈ liveRow row ∅) : f.LiveAt t b row := by
  induction row with
  | nil => exact absurd member (IndexSet.not_mem_empty t)
  | cons i row ih =>
    rcases Instr.mem_liveBefore.mp member with used | ⟨other, later⟩
    · exact .read used
    · exact .pass other (ih later)

namespace Func.Thins

variable {f : Func} {b : BlockId} {rest kept : List Instr}

theorem refl (rest : List Instr) : f.Thins b rest rest := by
  induction rest with
  | nil => exact .nil
  | cons i rest ih => exact .keep ih

theorem sublist (thins : f.Thins b rest kept) : kept.Sublist rest := by
  induction thins with
  | nil => exact .slnil
  | keep _ ih => exact ih.cons_cons _
  | drop _ _ _ _ ih => exact ih.cons _

/-- What is left of two rows is left of the first and of the second. -/
theorem split {first second : List Instr} (thins : f.Thins b (first ++ second) kept) :
    ∃ front back, kept = front ++ back ∧ front.Sublist first ∧ f.Thins b second back := by
  induction first generalizing kept with
  | nil => exact ⟨[], kept, rfl, .slnil, thins⟩
  | cons i first ih =>
    cases thins with
    | keep later =>
      obtain ⟨front, back, rfl, sublist, rest⟩ := ih later
      exact ⟨i :: front, back, rfl, sublist.cons_cons i, rest⟩
    | drop _ _ _ later =>
      obtain ⟨front, back, rfl, sublist, rest⟩ := ih later
      exact ⟨front, back, rfl, sublist.cons i, rest⟩

/-- A terminator at the end stays. -/
theorem ends {init : List Instr} {i : Instr} (terminator : i.isTerminator = true)
    (thins : f.Thins b (init ++ [i]) kept) : ∃ front, kept = front ++ [i] ∧ front.Sublist init := by
  obtain ⟨front, back, rfl, sublist, last⟩ := thins.split
  cases last with
  | keep none =>
    cases none
    exact ⟨front, rfl, sublist⟩
  | drop _ quiet =>
    rw [Instr.hasEffect_of_terminator terminator] at quiet
    exact nomatch quiet

theorem straight (thins : f.Thins b rest kept) (through : Straight rest) : Straight kept :=
  fun i member => through i (thins.sublist.subset member)

theorem terminatorLast (thins : f.Thins b rest kept) (last : TerminatorLast rest) :
    TerminatorLast kept := by
  rcases last.straight_or with through | ⟨init, i, cut, early, terminator⟩
  · intro pre j behind split stops
    have ordinary := thins.straight through j (by rw [split]; simp)
    rw [ordinary] at stops
    exact nomatch stops
  · subst cut
    obtain ⟨front, rfl, sublist⟩ := thins.ends terminator
    exact .append fun j member => early j (sublist.subset member)

theorem successorsOf_eq (thins : f.Thins b rest kept) (last : TerminatorLast rest) (n c : Nat) :
    successorsOf n c kept = successorsOf n c rest := by
  rcases last.straight_or with through | ⟨init, i, cut, _, terminator⟩
  · rw [successorsOf_straight through, successorsOf_straight (thins.straight through)]
  · subst cut
    obtain ⟨front, rfl, _⟩ := thins.ends terminator
    rw [successorsOf_append terminator, successorsOf_append terminator]

/-- What is left reads no more before it writes. -/
theorem liveRow_subset (thins : f.Thins b rest kept) {t : Temp} (exposed : t ∈ liveRow kept ∅) :
    t ∈ liveRow rest ∅ := by
  induction thins with
  | nil => exact exposed
  | keep _ ih =>
    rw [liveRow_cons, Instr.mem_liveBefore] at exposed ⊢
    exact exposed.imp_right fun ⟨other, later⟩ => ⟨other, ih later⟩
  | @drop i d rest kept writes _ dead _ ih =>
    rw [liveRow_cons, Instr.mem_liveBefore]
    refine Or.inr ⟨fun same => ?_, ih exposed⟩
    cases writes.symm.trans same
    exact dead (.of_liveRow (ih exposed))

end Func.Thins

/-- `g` is `f` without some dead definitions. -/
structure Func.Trims (f g : Func) : Prop where
  blocks : ∀ (b : BlockId) (block : Block), f.blocks[b]? = some block →
    ∃ image, g.blocks[b]? = some image ∧ image.succs = block.succs ∧ image.preds = block.preds ∧
      f.Thins b block.instrs image.instrs
  length : g.blocks.length = f.blocks.length
  headings : g.headings = f.headings
  fields : g = { f with blocks := g.blocks }

namespace Func.Trims

variable {f g : Func}

theorem origin (trims : Trims f g) {b : BlockId} {image : Block} (place : g.blocks[b]? = some image) :
    ∃ block, f.blocks[b]? = some block ∧ image.succs = block.succs ∧ image.preds = block.preds ∧
      f.Thins b block.instrs image.instrs := by
  have bound : b < f.blocks.length := by
    rw [← trims.length]
    exact (List.getElem?_eq_some_iff.mp place).1
  have found := List.getElem?_eq_getElem bound
  obtain ⟨other, otherPlace, facts⟩ := trims.blocks b _ found
  cases Option.some.inj (place.symm.trans otherPlace)
  exact ⟨_, found, facts⟩

theorem succs_eq (trims : Trims f g) (b : BlockId) : g.succs b = f.succs b := by
  cases place : g.blocks[b]? with
  | some image =>
    obtain ⟨block, found, same, _⟩ := trims.origin place
    rw [succs_of_found place, succs_of_found found, same]
  | none =>
    have outside := List.getElem?_eq_none_iff.mp place
    rw [trims.length] at outside
    rw [succs_of_missing place, succs_of_missing (List.getElem?_eq_none outside)]

theorem reachable_eq (trims : Trims f g) : g.reachable = f.reachable :=
  reachable_congr trims.length trims.succs_eq

theorem instrs_sublist (trims : Trims f g) : g.instrs.Sublist f.instrs := by
  have rows : ∀ blocks images : List Block, images.length = blocks.length →
      (∀ (b : Nat) block image, blocks[b]? = some block → images[b]? = some image →
        image.instrs.Sublist block.instrs) →
      (images.flatMap (·.instrs)).Sublist (blocks.flatMap (·.instrs)) := by
    intro blocks
    induction blocks with
    | nil =>
      intro images length _
      rw [List.eq_nil_of_length_eq_zero length]
    | cons block blocks ih =>
      intro images length each
      cases images with
      | nil => exact absurd length (Nat.succ_ne_zero _).symm
      | cons image images =>
        exact (each 0 block image rfl rfl).append
          (ih images (Nat.succ.inj length) fun b => each (b + 1))
  refine rows f.blocks g.blocks trims.length fun b block image found place => ?_
  obtain ⟨other, otherPlace, _, _, thins⟩ := trims.blocks b block found
  cases Option.some.inj (place.symm.trans otherPlace)
  exact thins.sublist

theorem instrs_subset (trims : Trims f g) {i : Instr} (member : i ∈ g.instrs) : i ∈ f.instrs :=
  trims.instrs_sublist.subset member

theorem allTemps_subset (trims : Trims f g) {t : Temp} (member : t ∈ g.allTemps) :
    t ∈ f.allTemps := by
  rw [mem_allTemps] at member ⊢
  rw [trims.fields] at member
  refine member.imp_right (Or.imp_right ?_)
  rintro ⟨i, inside, named⟩
  rw [← trims.fields] at inside
  exact ⟨i, trims.instrs_subset inside, named⟩

theorem wellFormed (trims : Trims f g) (wf : f.WellFormed) : g.WellFormed where
  nonempty := by
    intro empty
    have length := trims.length
    rw [empty] at length
    exact wf.nonempty (List.eq_nil_of_length_eq_zero length.symm)
  linked := by
    refine link_congr wf.linked trims.length (funext fun b => ?_) fun b block other found place => ?_
    · unfold edgesOf
      rw [trims.length]
      cases place : g.blocks[b]? with
      | some image =>
        obtain ⟨block, found, _, _, thins⟩ := trims.origin place
        simp only [found]
        exact thins.successorsOf_eq (wf.terminators block (List.mem_of_getElem? found)) _ _
      | none =>
        have outside := List.getElem?_eq_none_iff.mp place
        rw [trims.length] at outside
        simp only [List.getElem?_eq_none outside]
    · obtain ⟨image, imagePlace, succs, preds, _⟩ := trims.blocks b block found
      cases Option.some.inj (place.symm.trans imagePlace)
      exact ⟨succs, preds⟩
  terminators image member := by
    obtain ⟨b, place⟩ := List.mem_iff_getElem?.mp member
    obtain ⟨block, found, _, _, thins⟩ := trims.origin place
    exact thins.terminatorLast (wf.terminators block (List.mem_of_getElem? found))
  temps t member := by
    rw [trims.fields]
    exact wf.temps t (trims.allTemps_subset member)
  spillTemps t member := by
    rw [trims.fields] at member ⊢
    exact wf.spillTemps t member
  slots i member s named := by
    rw [trims.fields]
    exact wf.slots i (trims.instrs_subset member) s named

end Func.Trims

/-- In code that can be reached, `i` before `rest` only writes a temp, which no path reads and whose
address is not taken. -/
def Func.DeadAt (f : Func) (b : BlockId) (i : Instr) (rest : List Instr) : Prop :=
  b ∈ f.reachable ∧ i.hasEffect = false ∧
    ∃ d, i.dest? = some d ∧ ¬ f.LiveAt d b rest ∧ ¬ f.AddressTaken d

/-- The second row is the first one without some dead instructions. -/
inductive Func.Strips (f : Func) (b : BlockId) : List Instr → List Instr → Prop
  | nil : Strips f b [] []
  | keep {i : Instr} {rest kept : List Instr} :
      Strips f b rest kept → Strips f b (i :: rest) (i :: kept)
  | drop {i : Instr} {rest kept : List Instr} :
      f.DeadAt b i rest → Strips f b rest kept → Strips f b (i :: rest) kept

theorem Func.Strips.refl {f : Func} {b : BlockId} (rest : List Instr) : f.Strips b rest rest := by
  induction rest with
  | nil => exact .nil
  | cons i rest ih => exact .keep ih

theorem Func.Strips.thins {f : Func} {b : BlockId} {rest kept : List Instr}
    (strips : f.Strips b rest kept) : f.Thins b rest kept := by
  induction strips with
  | nil => exact .nil
  | keep _ ih => exact .keep ih
  | drop dead _ ih =>
    obtain ⟨_, quiet, d, writes, unread, _⟩ := dead
    exact .drop writes quiet unread ih

/-- `g` is `f` without some instructions that are dead in it. -/
structure Func.Sheds (f g : Func) : Prop where
  rows : ∀ (b : BlockId) (block : Block), f.blocks[b]? = some block →
    ∃ row, g.blocks[b]? = some { block with instrs := row } ∧ f.Strips b block.instrs row
  length : g.blocks.length = f.blocks.length
  fields : g = { f with blocks := g.blocks }

theorem Func.Sheds.trims {f g : Func} (sheds : f.Sheds g) : f.Trims g where
  blocks b block found := by
    obtain ⟨row, place, strips⟩ := sheds.rows b block found
    exact ⟨_, place, rfl, rfl, strips.thins⟩
  length := sheds.length
  headings := by
    refine List.ext_getElem? fun b => ?_
    simp only [Func.headings, List.getElem?_map]
    cases found : f.blocks[b]? with
    | none =>
      rw [List.getElem?_eq_none (sheds.length ▸ List.getElem?_eq_none_iff.mp found)]
    | some block =>
      obtain ⟨row, place, _⟩ := sheds.rows b block found
      rw [place]
      rfl
  fields := sheds.fields

/-- The analysis finds exactly the dead instructions. -/
theorem Instr.isDead_iff {bound : Nat} {f : Func} {l : Liveness} (edges : f.EdgesInside)
    (run : Liveness.analyze bound f = .ok l) {b : BlockId} {block : Block}
    (reach : b ∈ f.reachable) (found : f.blocks[b]? = some block) {pre rest : List Instr} {i : Instr}
    (split : block.instrs = pre ++ i :: rest) :
    i.isDead (l.liveAfter b pre.length) = true ↔ f.DeadAt b i rest := by
  have live : ∀ d, d ∈ l.liveAfter b pre.length ↔ f.LiveAt d b rest ∨ f.AddressTaken d := by
    intro d
    rw [Liveness.mem_liveAfter edges run reach found split,
      Liveness.mem_addressTaken_of_reached edges run]
  unfold isDead Func.DeadAt
  cases i.dest? with
  | none => simp
  | some d => simp [reach, live]

theorem liveInstrs_strips {bound : Nat} {f : Func} {l : Liveness} (edges : f.EdgesInside)
    (run : Liveness.analyze bound f = .ok l) {b : BlockId} {block : Block}
    (reach : b ∈ f.reachable) (found : f.blocks[b]? = some block) {pre rest : List Instr}
    (split : block.instrs = pre ++ rest) :
    f.Strips b rest (liveInstrs (rest.mapIdx fun k i => (i, l.liveAfter b (pre.length + k)))) := by
  induction rest generalizing pre with
  | nil => exact .nil
  | cons i rest ih =>
    have later := @ih (pre ++ [i]) (by rw [split]; simp)
    have shift : ∀ k, (pre ++ [i]).length + k = pre.length + (k + 1) := by
      intro k
      rw [List.length_append, List.length_singleton]
      omega
    simp only [shift] at later
    rw [List.mapIdx_cons]
    simp only [liveInstrs, List.filter_cons, Nat.add_zero] at later ⊢
    split
    · exact .keep later
    · rename_i dead
      rw [Bool.not_eq_true', Bool.not_eq_false] at dead
      exact .drop ((Instr.isDead_iff edges run reach found split).mp dead) later

theorem withoutDead_sheds {bound : Nat} {f : Func} {l : Liveness} (edges : f.EdgesInside)
    (run : Liveness.analyze bound f = .ok l) : f.Sheds (f.withoutDead l) where
  rows b block found := by
    simp only [Func.withoutDead_def, List.getElem?_mapIdx, found, Option.map_some]
    split
    · rename_i reach
      rw [Liveness.reachable_of_analyze run] at reach
      have strips := liveInstrs_strips edges run reach found (List.nil_append block.instrs).symm
      simp only [List.length_nil, Nat.zero_add, ← Liveness.pairs_def] at strips
      exact ⟨_, rfl, strips⟩
    · exact ⟨_, rfl, .refl _⟩
  length := by
    rw [Func.withoutDead_def]
    exact List.length_mapIdx
  fields := rfl

theorem withoutDead_trims {bound : Nat} {f : Func} {l : Liveness} (wf : f.WellFormed)
    (run : Liveness.analyze bound f = .ok l) : f.Trims (f.withoutDead l) :=
  (withoutDead_sheds wf.edgesInside run).trims

/-- No definition without an effect is dead in code that can be reached. -/
def Func.Lively (f : Func) (l : Liveness) : Prop :=
  ∀ b ∈ f.reachable, ∀ (block : Block) (pre rest : List Instr) (i : Instr) (d : Temp),
    f.blocks[b]? = some block → block.instrs = pre ++ i :: rest → i.dest? = some d →
      i.hasEffect = false → d ∈ l.liveAfter b pre.length

theorem lively_of_deadCode {bound : Nat} {f : Func} {l : Liveness}
    (run : Liveness.analyze bound f = .ok l) (none : (f.deadCode l).isEmpty = true) :
    f.Lively l := by
  intro b reach block pre rest i d found split writes quiet
  by_contra absent
  obtain ⟨bound, value⟩ := List.getElem?_eq_some_iff.mp found
  rw [← Liveness.reachable_of_analyze run] at reach
  have dead : i.isDead (l.liveAfter b pre.length) = true := by
    simp [Instr.isDead, writes, quiet, absent]
  have point : (i, l.liveAfter b pre.length) ∈ l.pairs b block := by
    rw [Liveness.pairs_def]
    refine List.mem_mapIdx.mpr ⟨pre.length, by rw [split]; simp, ?_⟩
    simp [split]
  have gone : (⟨b, i⟩ : Eliminated) ∈ f.deadCode l := by
    rw [Func.deadCode_def]
    refine List.mem_flatten.mpr ⟨_, List.mem_mapIdx.mpr ⟨b, bound, rfl⟩, ?_⟩
    rw [if_pos reach, value]
    exact List.mem_map_of_mem (List.mem_map.mpr ⟨_, List.mem_filter.mpr ⟨point, dead⟩, rfl⟩)
  rw [List.isEmpty_iff] at none
  rw [none] at gone
  exact absurd gone List.not_mem_nil

/-- One function comes from the other by rounds of elimination. -/
abbrev Func.TrimsStar : Func → Func → Prop := Relation.ReflTransGen Func.Trims

theorem Func.TrimsStar.wellFormed {f g : Func} (trims : f.TrimsStar g) (wf : f.WellFormed) :
    g.WellFormed := by
  induction trims with
  | refl => exact wf
  | tail _ step ih => exact step.wellFormed ih

/-- What an elimination does, whether it succeeds or not. -/
theorem DeadCode.eliminateFrom_trims {bound left rounds : Nat} {gone : List Eliminated} {f g : Func}
    {outcome : Except Failure DeadCode} (wf : f.WellFormed)
    (run : eliminateFrom bound left rounds gone f = (g, outcome)) :
    f.TrimsStar g ∧
      (∀ d, outcome = .ok d → Liveness.analyze bound g = .ok d.liveness ∧ g.Lively d.liveness) ∧
      (∀ e, outcome = .error e → e = .internal g.name (.livenessUnsettled bound) none ∨
        e = .internal g.name (.deadCodeUnsettled bound) none) := by
  induction left generalizing rounds gone f with
  | zero =>
    cases run
    refine ⟨.refl, fun d impossible => (nomatch impossible), fun e same => ?_⟩
    cases same
    exact Or.inr rfl
  | succ left ih =>
    cases analysis : Liveness.analyze bound f with
    | error failure =>
      rw [eliminateFrom_of_error analysis] at run
      cases run
      refine ⟨.refl, fun d impossible => (nomatch impossible), fun e same => ?_⟩
      cases same
      exact Or.inl (Liveness.analyze_error analysis)
    | ok l =>
      rw [eliminateFrom_of_ok analysis] at run
      split at run
      · rename_i none
        cases run
        refine ⟨.refl, fun d same => ?_, fun e impossible => nomatch impossible⟩
        cases same
        exact ⟨analysis, lively_of_deadCode analysis none⟩
      · have trims := withoutDead_trims wf analysis
        obtain ⟨star, facts⟩ := ih (trims.wellFormed wf) run
        exact ⟨.head trims star, facts⟩

end RegisterColoring
