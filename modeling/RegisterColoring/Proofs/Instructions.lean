import Mathlib.Data.List.Nodup
import RegisterColoring.SpillCost

namespace RegisterColoring

theorem distinct_nodup (l : List Nat) : (distinct l).Nodup := by
  induction l with
  | nil => exact .nil
  | cons x rest ih =>
    refine List.nodup_cons.mpr ⟨?_, ih.filter _⟩
    simp

theorem distinct_sublist (l : List Nat) : (distinct l).Sublist l := by
  induction l with
  | nil => exact .slnil
  | cons x rest ih => exact (List.filter_sublist.trans ih).cons_cons x

theorem distinct_eq_self {l : List Nat} (nodup : l.Nodup) : distinct l = l := by
  induction l with
  | nil => rfl
  | cons x rest ih =>
    obtain ⟨fresh, tail⟩ := List.nodup_cons.mp nodup
    have apart : ∀ y ∈ rest, decide (y ≠ x) = true := by
      intro y member
      exact decide_eq_true fun same => fresh (same ▸ member)
    rw [distinct, ih tail, List.filter_eq_self.mpr apart]

theorem distinct_filter (p : Nat → Bool) (l : List Nat) :
    distinct (l.filter p) = (distinct l).filter p := by
  induction l with
  | nil => rfl
  | cons x rest ih =>
    cases kept : p x with
    | true =>
      rw [List.filter_cons_of_pos kept, distinct, distinct, List.filter_cons_of_pos kept, ih,
        List.filter_comm]
    | false =>
      have refused : ¬ p x = true := Bool.eq_false_iff.mp kept
      rw [List.filter_cons_of_neg refused, distinct, List.filter_cons_of_neg refused, ih,
        List.filter_filter]
      -- what `p` keeps differs from `x` already
      refine List.filter_congr fun y _ => ?_
      cases value : p y with
      | false => rfl
      | true =>
        have apart : y ≠ x := fun same => refused (same ▸ value)
        simp [apart]

/-- Entries that are equal before they are mapped need not be mapped twice. -/
theorem distinct_map_distinct (f : Nat → Nat) (l : List Nat) :
    distinct ((distinct l).map f) = distinct (l.map f) := by
  induction l with
  | nil => rfl
  | cons x rest ih =>
    -- an entry whose image differs from that of `x` differs from `x`
    have later : (((distinct rest).filter (· ≠ x)).map f).filter (· ≠ f x) =
        ((distinct rest).map f).filter (· ≠ f x) := by
      rw [List.filter_map, List.filter_map, List.filter_filter]
      refine congrArg (List.map f) (List.filter_congr fun y _ => ?_)
      by_cases same : y = x
      · simp [same]
      · simp [same]
    rw [distinct, List.map_cons, List.map_cons, distinct, distinct, ← distinct_filter, later,
      distinct_filter, ih]

theorem Operand.temp?_map (f : Temp → Temp) (o : Operand) : (o.map f).temp? = o.temp?.map f := by
  cases o <;> rfl

namespace Instr

theorem mem_uses {i : Instr} {t : Temp} : t ∈ i.uses ↔ .temp t ∈ i.operands := by
  unfold uses
  rw [mem_distinct, List.mem_filterMap]
  constructor
  · rintro ⟨operand, member, value⟩
    cases operand with
    | const n => exact nomatch value
    | temp u =>
      cases value
      exact member
  · exact fun member => ⟨.temp t, member, rfl⟩

theorem copy?_eq_some {i : Instr} {d u : Temp} : i.copy? = some (d, u) ↔ i = .move d (.temp u) := by
  constructor
  · intro copies
    cases i with
    | move e arg =>
      cases arg with
      | const n => exact nomatch copies
      | temp t =>
        cases copies
        rfl
    | _ => exact nomatch copies
  · rintro rfl
    rfl

/-- What a copy to `u` reads is the operand of a move to `u`. -/
theorem copySource_eq_iff {i : Instr} {u v : Temp} (writes : i.dest? = some u) :
    some v = i.copy?.map (·.2) ↔ i = .move u (.temp v) := by
  constructor
  · intro source
    obtain ⟨⟨d, s⟩, copies, same⟩ := Option.map_eq_some_iff.mp source.symm
    have move := copy?_eq_some.mp copies
    rw [move] at writes
    cases writes
    cases same
    exact move
  · rintro rfl
    rfl

theorem addressTaken?_eq_some {i : Instr} {t : Temp} :
    i.addressTaken? = some t ↔ ∃ d, i = .addrOf d t := by
  constructor
  · intro taken
    cases i with
    | addrOf d v =>
      cases taken
      exact ⟨d, rfl⟩
    | _ => exact nomatch taken
  · rintro ⟨d, rfl⟩
    rfl

theorem mem_uses_of_addressTaken {i : Instr} {t : Temp} (taken : i.addressTaken? = some t) :
    t ∈ i.uses := by
  obtain ⟨d, rfl⟩ := addressTaken?_eq_some.mp taken
  exact List.mem_singleton_self _

theorem uses_nodup (i : Instr) : i.uses.Nodup := distinct_nodup _

theorem mem_temps {i : Instr} {t : Temp} : t ∈ i.temps ↔ i.dest? = some t ∨ t ∈ i.uses := by
  unfold temps
  rw [List.mem_append, Option.mem_toList]

theorem targets_of_not_terminator {i : Instr} (ordinary : i.isTerminator = false) :
    i.targets = [] := by
  cases i <;> first | rfl | exact nomatch ordinary

theorem dest?_of_terminator {i : Instr} (terminator : i.isTerminator = true) : i.dest? = none := by
  cases i <;> first | rfl | exact nomatch terminator

theorem hasEffect_of_terminator {i : Instr} (terminator : i.isTerminator = true) :
    i.hasEffect = true := by
  cases i <;> first | rfl | exact nomatch terminator

theorem operands_mapUses (f : Temp → Temp) (i : Instr) :
    (i.mapUses f).operands = i.operands.map (·.map f) := by
  cases i with
  | branch cond yes no => cases cond <;> rfl
  | ret value => cases value <;> rfl
  | _ => rfl

/-- The temps that a renamed instruction reads are the new names, in the same order. -/
theorem uses_mapUses (f : Temp → Temp) (i : Instr) :
    (i.mapUses f).uses = distinct (i.uses.map f) := by
  have renamed : (i.operands.map (·.map f)).filterMap Operand.temp? =
      (i.operands.filterMap Operand.temp?).map f := by
    rw [List.filterMap_map, List.map_filterMap]
    exact List.filterMap_congr fun o _ => o.temp?_map f
  rw [uses, uses, operands_mapUses, renamed, distinct_map_distinct]

theorem mem_uses_mapUses {f : Temp → Temp} {i : Instr} {t : Temp} :
    t ∈ (i.mapUses f).uses ↔ ∃ u ∈ i.uses, f u = t := by
  rw [uses_mapUses, mem_distinct, List.mem_map]

/-- Only the temps that are read are renamed. -/
theorem mapUses_eq_self {f : Temp → Temp} {i : Instr} (same : ∀ t ∈ i.uses, f t = t) :
    i.mapUses f = i := by
  have temp : ∀ t, .temp t ∈ i.operands → f t = t := fun t member => same t (mem_uses.mpr member)
  have operand : ∀ o ∈ i.operands, o.map f = o := by
    intro o member
    cases o with
    | const n => rfl
    | temp t => exact congrArg Operand.temp (temp t member)
  cases i with
  | binary op d left right =>
    simp [mapUses, operand left (by simp [operands]), operand right (by simp [operands])]
  | unary op d arg => simp [mapUses, operand arg (by simp [operands])]
  | move d arg => simp [mapUses, operand arg (by simp [operands])]
  | load d addr => simp [mapUses, temp addr (by simp [operands])]
  | store addr value =>
    simp [mapUses, temp addr (by simp [operands]), operand value (by simp [operands])]
  | addrOf d var => simp [mapUses, temp var (by simp [operands])]
  | call d callee args =>
    have kept : args.map (·.map f) = args := (List.map_congr_left operand).trans (List.map_id args)
    simp [mapUses, kept]
  | spillStore slot value => simp [mapUses, temp value (by simp [operands])]
  | branch cond yes no =>
    cases cond with
    | test arg => simp [mapUses, Cond.map, operand arg (by simp [operands, Cond.operands])]
    | compare op left right =>
      simp [mapUses, Cond.map, operand left (by simp [operands, Cond.operands]),
        operand right (by simp [operands, Cond.operands])]
  | ret value =>
    cases value with
    | none => rfl
    | some value => simp [mapUses, operand value (by simp [operands])]
  | slotAddr | spillLoad | jump => rfl

theorem uses_mapUses_length_le (f : Temp → Temp) (i : Instr) :
    (i.mapUses f).uses.length ≤ i.uses.length := by
  have bound := (distinct_sublist (i.uses.map f)).length_le
  rw [List.length_map] at bound
  rw [uses_mapUses]
  exact bound

@[simp] theorem dest?_mapUses (f : Temp → Temp) (i : Instr) : (i.mapUses f).dest? = i.dest? := by
  cases i <;> rfl

@[simp] theorem isTerminator_mapUses (f : Temp → Temp) (i : Instr) :
    (i.mapUses f).isTerminator = i.isTerminator := by
  cases i <;> rfl

@[simp] theorem targets_mapUses (f : Temp → Temp) (i : Instr) :
    (i.mapUses f).targets = i.targets := by
  cases i <;> rfl

@[simp] theorem slot?_mapUses (f : Temp → Temp) (i : Instr) : (i.mapUses f).slot? = i.slot? := by
  cases i <;> rfl

@[simp] theorem hasEffect_mapUses (f : Temp → Temp) (i : Instr) :
    (i.mapUses f).hasEffect = i.hasEffect := by
  cases i <;> rfl

theorem addressTaken?_mapUses (f : Temp → Temp) (i : Instr) :
    (i.mapUses f).addressTaken? = i.addressTaken?.map f := by
  cases i <;> rfl

theorem addressTaken?_mapDest (f : Temp → Temp) (i : Instr) :
    (i.mapDest f).addressTaken? = i.addressTaken? := by
  cases i <;> rfl

@[simp] theorem operands_mapDest (f : Temp → Temp) (i : Instr) :
    (i.mapDest f).operands = i.operands := by
  cases i <;> rfl

@[simp] theorem uses_mapDest (f : Temp → Temp) (i : Instr) : (i.mapDest f).uses = i.uses := by
  unfold uses
  rw [operands_mapDest]

@[simp] theorem dest?_mapDest (f : Temp → Temp) (i : Instr) :
    (i.mapDest f).dest? = i.dest?.map f := by
  cases i <;> rfl

@[simp] theorem targets_mapDest (f : Temp → Temp) (i : Instr) :
    (i.mapDest f).targets = i.targets := by
  cases i <;> rfl

@[simp] theorem hasEffect_mapDest (f : Temp → Temp) (i : Instr) :
    (i.mapDest f).hasEffect = i.hasEffect := by
  cases i <;> rfl

@[simp] theorem isTerminator_mapDest (f : Temp → Temp) (i : Instr) :
    (i.mapDest f).isTerminator = i.isTerminator := by
  cases i <;> rfl

@[simp] theorem slot?_mapDest (f : Temp → Temp) (i : Instr) : (i.mapDest f).slot? = i.slot? := by
  cases i <;> rfl

@[simp] theorem operands_mapTargets (f : BlockId → BlockId) (i : Instr) :
    (i.mapTargets f).operands = i.operands := by
  cases i <;> rfl

@[simp] theorem uses_mapTargets (f : BlockId → BlockId) (i : Instr) :
    (i.mapTargets f).uses = i.uses := by
  unfold uses
  rw [operands_mapTargets]

@[simp] theorem dest?_mapTargets (f : BlockId → BlockId) (i : Instr) :
    (i.mapTargets f).dest? = i.dest? := by
  cases i <;> rfl

@[simp] theorem hasEffect_mapTargets (f : BlockId → BlockId) (i : Instr) :
    (i.mapTargets f).hasEffect = i.hasEffect := by
  cases i <;> rfl

@[simp] theorem isTerminator_mapTargets (f : BlockId → BlockId) (i : Instr) :
    (i.mapTargets f).isTerminator = i.isTerminator := by
  cases i <;> rfl

@[simp] theorem slot?_mapTargets (f : BlockId → BlockId) (i : Instr) :
    (i.mapTargets f).slot? = i.slot? := by
  cases i <;> rfl

theorem addressTaken?_mapTargets (f : BlockId → BlockId) (i : Instr) :
    (i.mapTargets f).addressTaken? = i.addressTaken? := by
  cases i <;> rfl

@[simp] theorem temps_mapTargets (f : BlockId → BlockId) (i : Instr) :
    (i.mapTargets f).temps = i.temps := by
  simp [temps]

theorem targets_nodup (i : Instr) : i.targets.Nodup := by
  cases i with
  | jump target => exact List.nodup_singleton target
  | branch cond yes no => exact distinct_nodup [yes, no]
  | _ => exact List.nodup_nil

theorem targets_mapTargets (f : BlockId → BlockId) (i : Instr) :
    (i.mapTargets f).targets = distinct (i.targets.map f) := by
  cases i with
  | branch cond yes no => exact (distinct_map_distinct f [yes, no]).symm
  | _ => rfl

theorem mem_targets_mapTargets {f : BlockId → BlockId} {i : Instr} {b : BlockId} :
    b ∈ (i.mapTargets f).targets ↔ ∃ a ∈ i.targets, f a = b := by
  rw [targets_mapTargets, mem_distinct, List.mem_map]

end Instr

end RegisterColoring
