import RegisterColoring.Proofs.Machines

namespace RegisterColoring

variable {Val Mem : Type}

section

variable (m : Machine Val Mem) {read other : Temp → Val} {slots others : Slot → Val} {mem : Mem}

theorem Operand.value_congr {o : Operand} (same : ∀ t, o = .temp t → read t = other t) :
    o.value m read = o.value m other := by
  cases o with
  | const n => rfl
  | temp t => exact same t rfl

theorem Operand.value_map (f : Temp → Temp) (o : Operand) :
    (o.map f).value m read = o.value m (read ∘ f) := by
  cases o <;> rfl

theorem Cond.value_congr {cond : Cond}
    (same : ∀ o ∈ cond.operands, o.value m read = o.value m other) :
    cond.value m read = cond.value m other := by
  cases cond with
  | test arg => simp [value, same arg (by simp [operands])]
  | compare op left right =>
    simp [value, same left (by simp [operands]), same right (by simp [operands])]

theorem Cond.value_map (f : Temp → Temp) (cond : Cond) :
    (cond.map f).value m read = cond.value m (read ∘ f) := by
  cases cond <;> simp [map, value, Operand.value_map]

namespace Instr

/-- An action depends on the temps that are read and on the slot that is named. -/
theorem action_congr {i : Instr} (temps : ∀ t ∈ i.uses, read t = other t)
    (slot : ∀ s, i.slot? = some s → slots s = others s) :
    i.action m read slots mem = i.action m other others mem := by
  have operand : ∀ o ∈ i.operands, o.value m read = o.value m other := by
    intro o member
    refine Operand.value_congr m fun t same => temps t (mem_uses.mpr ?_)
    rw [← same]
    exact member
  have temp : ∀ t, .temp t ∈ i.operands → read t = other t := fun t member =>
    operand (.temp t) member
  cases i with
  | binary op d left right =>
    simp [action, operand left (by simp [operands]), operand right (by simp [operands])]
  | unary op d arg => simp [action, operand arg (by simp [operands])]
  | move d arg => simp [action, operand arg (by simp [operands])]
  | load d addr => simp [action, temp addr (by simp [operands])]
  | store addr value =>
    simp [action, temp addr (by simp [operands]), operand value (by simp [operands])]
  | call d callee args =>
    have same : args.map (·.value m read) = args.map (·.value m other) :=
      List.map_congr_left fun o member => operand o member
    simp [action, same]
  | spillLoad d s => simp [action, slot s rfl]
  | spillStore s value => simp [action, temp value (by simp [operands])]
  | branch cond yes no => simp [action, Cond.value_congr m operand]
  | ret value =>
    cases value with
    | none => rfl
    | some value => simp [action, operand value (by simp [operands])]
  | addrOf | slotAddr | jump => rfl

/-- Renamed temps are read under their new names. An address is that of the old name. -/
theorem action_mapUses {i : Instr} (f : Temp → Temp)
    (address : ∀ t, i.addressTaken? = some t → f t = t) :
    (i.mapUses f).action m read slots mem = i.action m (read ∘ f) slots mem := by
  cases i with
  | addrOf d var => simp [mapUses, action, address var rfl]
  | ret value => cases value <;> simp [mapUses, action, Operand.value_map]
  | branch cond yes no => simp [mapUses, action, Cond.value_map]
  | call d callee args =>
    simp [mapUses, action, Operand.value_map, Function.comp_def]
  | _ => simp [mapUses, action, Operand.value_map]

theorem action_mapDest (f : Temp → Temp) (i : Instr) :
    (i.mapDest f).action m read slots mem = i.action m read slots mem := by
  cases i <;> rfl

theorem action_mapTargets (r : BlockId → BlockId) (i : Instr) :
    (i.mapTargets r).action m read slots mem =
      { i.action m read slots mem with control := (i.action m read slots mem).control.map r } := by
  cases i with
  | branch cond yes no =>
    have renumbered : (branch cond yes no).mapTargets r = .branch cond (r yes) (r no) := rfl
    simp only [renumbered, action]
    cases cond.value m read with
    | none => rfl
    | some holds => cases holds <;> rfl
  | binary op d left right =>
    have same : (binary op d left right).mapTargets r = .binary op d left right := rfl
    simp only [same, action]
    split <;> rfl
  | _ => rfl

/-- Without an effect only a value results. -/
theorem action_of_quiet {i : Instr} (quiet : i.hasEffect = false) (read : Temp → Val)
    (slots : Slot → Val) (mem : Mem) : ∃ v, i.action m read slots mem = .result v mem := by
  cases i with
  | binary op d left right =>
    have total : op.mayTrap = false := quiet
    refine ⟨m.binary op (left.value m read) (right.value m read), ?_⟩
    simp [action, total]
  | unary | move | load | addrOf | slotAddr | spillLoad => exact ⟨_, rfl⟩
  | store | call | spillStore | jump | branch | ret => exact nomatch quiet

theorem mem_targets_of_jump {i : Instr} {b : BlockId}
    (jumps : (i.action m read slots mem).control = .jump b) : b ∈ i.targets := by
  cases i with
  | jump target =>
    cases jumps
    exact List.mem_singleton_self _
  | branch cond yes no =>
    simp only [action] at jumps
    split at jumps
    · exact nomatch jumps
    · cases jumps
      unfold targets
      rw [mem_distinct]
      split <;> simp
  | binary op d left right =>
    simp only [action] at jumps
    split at jumps <;> exact nomatch jumps
  | _ => exact nomatch jumps

theorem not_terminator_of_next {i : Instr}
    (goes : (i.action m read slots mem).control = .next) : i.isTerminator = false := by
  cases i with
  | branch cond yes no =>
    simp only [action] at goes
    split at goes <;> exact nomatch goes
  | jump | ret => exact nomatch goes
  | _ => rfl

theorem terminator_of_jump {i : Instr} {b : BlockId}
    (jumps : (i.action m read slots mem).control = .jump b) : i.isTerminator = true := by
  by_contra ordinary
  have target := mem_targets_of_jump m jumps
  rw [targets_of_not_terminator (Bool.not_eq_true _ ▸ ordinary)] at target
  exact absurd target List.not_mem_nil

theorem slot?_of_slot {i : Instr} {s : Slot} {v : Val}
    (stores : (i.action m read slots mem).slot = some (s, v)) : i.slot? = some s := by
  cases i with
  | binary op d left right =>
    simp only [action] at stores
    split at stores <;> exact nomatch stores
  | branch cond yes no =>
    simp only [action] at stores
    split at stores <;> exact nomatch stores
  | spillStore slot value =>
    cases stores
    rfl
  | _ => exact nomatch stores

theorem value_of_next {i : Instr} {d : Temp} (goes : (i.action m read slots mem).control = .next)
    (writes : i.dest? = some d) : ∃ v, (i.action m read slots mem).value = some v := by
  cases i with
  | binary op e left right =>
    simp only [action] at goes ⊢
    split at goes
    · exact nomatch goes
    · rename_i total
      rw [if_neg total]
      exact ⟨_, rfl⟩
  | store | spillStore | jump | branch | ret => exact nomatch writes
  | _ => exact ⟨_, rfl⟩

theorem action_copy {i : Instr} {d u : Temp} (copies : i.copy? = some (d, u)) (read : Temp → Val)
    (slots : Slot → Val) (mem : Mem) : i.action m read slots mem = .result (read u) mem := by
  rw [copy?_eq_some.mp copies]
  rfl

theorem dest?_of_copy {i : Instr} {d u : Temp} (copies : i.copy? = some (d, u)) :
    i.dest? = some d ∧ u ∈ i.uses := by
  rw [copy?_eq_some.mp copies]
  exact ⟨rfl, List.mem_singleton_self _⟩

end Instr

end

end RegisterColoring
