import RegisterColoring.Proofs.RowCode

namespace RegisterColoring

namespace Func

/-- The function with all temps below `next` drawn for spill code. -/
def drawTo (f : Func) (next : Nat) : Func :=
  { f with
    nextTemp := next
    spillTemps := f.spillTemps.insertAll (List.range' f.nextTemp (next - f.nextTemp)) }

variable {ε : Type} {m : Type → Type} [Pass ε m] {f : Func} {α β : Type} {a : α} {b : β} {j n : Nat}

/-- The outcome of draws up to `next`, with the result `a` of the run that draws. -/
def drawn (f : Func) (next : Nat) (a : α) : Except ε (α × Func) :=
  if next ≤ maxIndex ∨ next = f.nextTemp then .ok (a, f.drawTo next)
  else .error (Pass.noTemp (max f.nextTemp maxIndex))

theorem drawTo_self (f : Func) : f.drawTo f.nextTemp = f := by
  rw [drawTo, Nat.sub_self]
  rfl

theorem drawTo_drawTo (first : f.nextTemp ≤ j) (second : j ≤ n) :
    (f.drawTo j).drawTo n = f.drawTo n := by
  have temps : (f.spillTemps.insertAll (List.range' f.nextTemp (j - f.nextTemp))).insertAll
      (List.range' j (n - j)) =
      f.spillTemps.insertAll (List.range' f.nextTemp (n - f.nextTemp)) := by
    ext t
    simp only [IndexSet.mem_insertAll, List.mem_range'_1]
    by_cases old : t ∈ f.spillTemps
    · simp only [old, or_true]
    · simp only [old, or_false]
      omega
  simp only [drawTo, temps]

theorem drawn_self : (f.drawn f.nextTemp a : Except ε (α × Func)) = .ok (a, f) := by
  rw [drawn, if_pos (.inr rfl), drawTo_self]

theorem drawn_map (g : α → β) :
    (f.drawn n a).map (fun p => (g p.1, p.2)) = (f.drawn n (g a) : Except ε (β × Func)) := by
  unfold drawn
  split <;> rfl

/-- Draws up to `j` and then up to `n` are draws up to `n`. -/
theorem drawn_bind {next : α × Func → Except ε (β × Func)} (first : f.nextTemp ≤ j)
    (second : j ≤ n) (later : next (a, f.drawTo j) = (f.drawTo j).drawn n b) :
    (f.drawn j a).bind next = f.drawn n b := by
  unfold drawn
  by_cases room : j ≤ maxIndex ∨ j = f.nextTemp
  · have same : max j maxIndex = max f.nextTemp maxIndex := by omega
    have within : (n ≤ maxIndex ∨ n = j) ↔ (n ≤ maxIndex ∨ n = f.nextTemp) := by omega
    rw [if_pos room]
    refine later.trans ?_
    rw [drawn, drawTo_drawTo first second]
    simp only [drawTo, within, same]
  · -- If the first draws fail, no number is left for the later ones.
    rw [if_neg room, if_neg (by omega)]
    rfl

theorem freshSpillTempM_eq (f : Func) :
    (f.freshSpillTempM : Except ε (Temp × Func)) = f.drawn (f.nextTemp + 1) f.nextTemp := by
  unfold freshSpillTempM freshTempM drawn
  by_cases more : f.nextTemp < maxIndex
  · have one : f.nextTemp + 1 - f.nextTemp = 1 := by omega
    rw [if_pos more, if_pos (.inl more)]
    simp only [drawTo, one]
    rfl
  · have last : max f.nextTemp maxIndex = f.nextTemp := by omega
    rw [if_neg more, if_neg (by omega), last]
    rfl

end Func

namespace Spill

variable {ε : Type} {m : Type → Type} [Pass ε m]

/-- A run that draws, step by step. -/
theorem drawing {α β : Type} (x : StateT Func (Except ε) α)
    (next : α → StateT Func (Except ε) β) (f : Func) :
    (x >>= next) f = (x f).bind fun p => next p.1 p.2 := rfl

theorem reloadsM_eq (slots : IndexMap Slot) (f : Func) (temps : List Temp) :
    reloadsM (m := StateT Func (Except ε)) Func.freshSpillTempM slots temps f =
      f.drawn (f.nextTemp + (reloads slots f.nextTemp temps).length)
        (reloads slots f.nextTemp temps) := by
  induction temps generalizing f with
  | nil => exact Func.drawn_self.symm
  | cons t rest ih =>
    cases stored : slots.get? t with
    | none =>
      rw [reloads_cons_none stored]
      simp only [reloadsM, stored]
      exact ih f
    | some slot =>
      have place : f.nextTemp + ((reloads slots (f.nextTemp + 1) rest).length + 1) =
          f.nextTemp + 1 + (reloads slots (f.nextTemp + 1) rest).length := by omega
      rw [reloads_cons_some stored, List.length_cons, place]
      simp only [reloadsM, stored, drawing, f.freshSpillTempM_eq]
      refine Func.drawn_bind (Nat.le_succ _) (Nat.le_add_right _ _) ?_
      simp only [ih]
      exact Func.drawn_map fun loads => Reload.mk t slot f.nextTemp :: loads

/-- A loaded temp is stored again, or one more is drawn. -/
theorem coreCodeM_eq (slots : IndexMap Slot) (f : Func) (i : Instr) :
    coreCodeM (m := StateT Func (Except ε)) Func.freshSpillTempM slots (loadsOf slots f.nextTemp i)
        (redirect slots i) (f.drawTo (f.nextTemp + (loadsOf slots f.nextTemp i).length)) =
      (f.drawTo (f.nextTemp + (loadsOf slots f.nextTemp i).length)).drawn
        (coreOf slots f.nextTemp i).2 (coreOf slots f.nextTemp i).1 := by
  unfold coreOf coreCodeM
  cases (redirect slots i).dest?.bind fun d => (slots.get? d).map fun slot => (d, slot) with
  | none => exact Func.drawn_self.symm
  | some place =>
    obtain ⟨d, slot⟩ := place
    simp only
    cases fresh? (loadsOf slots f.nextTemp i) d with
    | some shared => exact Func.drawn_self.symm
    | none =>
      simp only [drawing, Func.freshSpillTempM_eq]
      exact Func.drawn_map fun fresh =>
        [((redirect slots i).mapUses (standIn (loadsOf slots f.nextTemp i))).mapDest fun _ => fresh,
          .spillStore slot fresh]

theorem instrCodeM_eq (slots : IndexMap Slot) (f : Func) (i : Instr) :
    instrCodeM (m := StateT Func (Except ε)) Func.freshSpillTempM slots i f =
      f.drawn (instrCode slots f.nextTemp i).2 (instrCode slots f.nextTemp i).1 := by
  have more := le_free slots f.nextTemp i
  rw [instrCode_eq] at more ⊢
  simp only [instrCodeM, drawing, reloadsM_eq]
  refine Func.drawn_bind (Nat.le_add_right _ _) more ?_
  simp only
  refine (congrArg (Except.bind · _) (coreCodeM_eq slots f i)).trans ?_
  exact Func.drawn_map fun core => loadCode (loadsOf slots f.nextTemp i) ++ core

theorem instrsCodeM_eq (slots : IndexMap Slot) (f : Func) (instrs : List Instr) :
    instrsCodeM (m := StateT Func (Except ε)) Func.freshSpillTempM slots instrs f =
      f.drawn (instrsCode slots f.nextTemp instrs).2 (instrsCode slots f.nextTemp instrs).1 := by
  induction instrs generalizing f with
  | nil => exact Func.drawn_self.symm
  | cons i rest ih =>
    rw [instrsCode_cons]
    simp only [instrsCodeM, drawing, instrCodeM_eq]
    refine Func.drawn_bind (next_le_free slots _ i) (le_last slots _ rest) ?_
    simp only [ih]
    exact Func.drawn_map fun later => (instrCode slots f.nextTemp i).1 ++ later

theorem blocksCodeM_eq (slots : IndexMap Slot) (f : Func) (blocks : List Block) :
    blocksCodeM (m := StateT Func (Except ε)) Func.freshSpillTempM slots blocks f =
      f.drawn (blocksCode slots f.nextTemp blocks).2 (blocksCode slots f.nextTemp blocks).1 := by
  induction blocks generalizing f with
  | nil => exact Func.drawn_self.symm
  | cons block rest ih =>
    rw [blocksCode_cons]
    simp only [blocksCodeM, drawing, instrsCodeM_eq]
    refine Func.drawn_bind (le_last slots _ block.instrs) (next_le_blocksCode slots _ rest) ?_
    simp only [ih]
    exact Func.drawn_map fun later =>
      ({ block with instrs := (instrsCode slots f.nextTemp block.instrs).1 } : Block) :: later

/-- The slots of the given temps, from `first` on. -/
def slotsFrom (first : Slot) (temps : List Temp) : IndexMap Slot := .ofList (temps.zipIdx first)

theorem slotsM_eq (f : Func) (temps : List Temp) :
    slotsM (m := StateT Func (Except ε)) Func.allocSlotM temps f =
      if f.numSlots + temps.length ≤ maxIndex ∨ temps.length = 0 then
        .ok (temps.zipIdx f.numSlots, { f with numSlots := f.numSlots + temps.length })
      else .error (Pass.noSlot (max f.numSlots maxIndex)) := by
  induction temps generalizing f with
  | nil => exact (if_pos (.inr rfl)).symm
  | cons t rest ih =>
    have place : f.numSlots + (rest.length + 1) = f.numSlots + 1 + rest.length := by omega
    simp only [slotsM, drawing, Func.allocSlotM, List.length_cons, List.zipIdx_cons, place]
    by_cases more : f.numSlots < maxIndex
    · have within : (f.numSlots + 1 + rest.length ≤ maxIndex ∨ rest.length + 1 = 0) ↔
          (f.numSlots + 1 + rest.length ≤ maxIndex ∨ rest.length = 0) := by omega
      have same : max (f.numSlots + 1) maxIndex = max f.numSlots maxIndex := by omega
      rw [if_pos more]
      simp only [Except.bind, ih, within, same]
      by_cases fit : f.numSlots + 1 + rest.length ≤ maxIndex ∨ rest.length = 0
      · simp only [if_pos fit]
        rfl
      · simp only [if_neg fit]
    · have last : max f.numSlots maxIndex = f.numSlots := by omega
      rw [if_neg more, if_neg (by omega), last]
      rfl

end Spill

namespace Func

variable {ε : Type} {m : Type → Type} [Pass ε m]

/-- The function with its slots drawn and its spilled parameters in them. -/
def withSlots (f : Func) (temps : List Temp) : Func :=
  Spill.placeParams (Spill.slotsFrom f.numSlots temps)
    { f with numSlots := f.numSlots + temps.length }

/-- First all slots are drawn, then all temps in the order of the code. -/
theorem spillM_eq (f : Func) {temps : List Temp} (some : temps ≠ []) :
    (f.spillM temps : Except ε (IndexMap Slot × Func)) =
      if f.numSlots + temps.length ≤ maxIndex then
        let slots := Spill.slotsFrom f.numSlots temps
        let code := Spill.blocksCode slots f.nextTemp f.blocks
        ((f.withSlots temps).drawn code.2 code.1).map fun p => (slots, { p.2 with blocks := p.1 })
      else .error (Pass.noSlot (max f.numSlots maxIndex)) := by
  have more : (Spill.slotsFrom f.numSlots temps).isEmpty = false := by
    obtain ⟨t, rest, rfl⟩ := List.exists_cons_of_ne_nil some
    refine Bool.eq_false_iff.mpr fun empty => ?_
    have absent := IndexMap.isEmpty_iff.mp empty t
    have present : (Spill.slotsFrom f.numSlots (t :: rest)).contains t = true :=
      IndexMap.contains_insertAll.mpr (Or.inl ⟨f.numSlots, by simp⟩)
    rw [IndexMap.contains, absent] at present
    cases present
  have within : (f.numSlots + temps.length ≤ maxIndex ∨ temps.length = 0) ↔
      f.numSlots + temps.length ≤ maxIndex :=
    or_iff_left fun none => some (List.eq_nil_of_length_eq_zero none)
  unfold spillM
  rw [Spill.slotsM_eq]
  simp only [within]
  by_cases fit : f.numSlots + temps.length ≤ maxIndex
  · rw [if_pos fit, if_pos fit]
    have entries : (IndexMap.ofList (temps.zipIdx f.numSlots)).isEmpty = false := more
    simp only [Except.bind, entries, Bool.false_eq_true, if_false]
    exact congrArg (Except.map _) (Spill.blocksCodeM_eq _ (f.withSlots temps) f.blocks)
  · rw [if_neg fit, if_neg fit]
    rfl

end Func

end RegisterColoring
