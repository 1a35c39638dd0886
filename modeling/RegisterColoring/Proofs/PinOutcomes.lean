import RegisterColoring.Proofs.Mentions

namespace RegisterColoring

open Source (Param)

/-- The register that is written at a parameter, if any, is known and may be handed out. -/
def Source.Param.Allocatable (p : Param) : Prop :=
  ∀ name, p.reg = some name → ∃ r c, Register.ofName? name = some r ∧ r.color? = some c

theorem Register.color?_of_argument {position : Nat} {r : Register}
    (found : Register.arguments[position]? = some r) : ∃ c, r.color? = some c := by
  have member := List.mem_of_getElem? found
  cases r with
  | rdi | rsi | rdx | rcx | r8 | r9 => exact ⟨_, rfl⟩
  | rax | r10 | rbx | r12 | r13 | r14 | r15 | r11 | rbp | rsp => exact absurd member (by decide)

section Pins

variable (func : String) (automatic : Bool) (position : Nat) {seen : List Temp} {p : Param}
  (rest : List Param) (pins : IndexMap Color)

theorem pinOf_allocatable (allowed : p.Allocatable) :
    ∃ r?, pinOf func automatic position p = .ok r? ∧ ∀ r, r? = some r → ∃ c, r.color? = some c := by
  cases written : p.reg with
  | none =>
    refine ⟨if automatic then Register.arguments[position]? else none,
      by simp only [pinOf, written], fun r found => ?_⟩
    split at found
    · exact Register.color?_of_argument found
    · cases found
  | some name =>
    obtain ⟨r, c, known, color⟩ := allowed name written
    refine ⟨some r, by simp only [pinOf, written, known], fun other same => ?_⟩
    cases same
    exact ⟨c, color⟩

/-- A parameter that may be pinned adds no pin but its own. -/
theorem pinsFrom_allocatable (fresh : p.temp ∉ seen) (allowed : p.Allocatable) :
    ∃ next, pinsFrom func automatic position seen (p :: rest) pins =
        pinsFrom func automatic (position + 1) (p.temp :: seen) rest next ∧
      ∀ t, next.contains t = true → t = p.temp ∨ pins.contains t = true := by
  obtain ⟨r?, pin, colors⟩ := pinOf_allocatable func automatic position allowed
  rw [pinsFrom, if_neg fresh, pin]
  cases r? with
  | none => exact ⟨pins, rfl, fun t held => .inr held⟩
  | some r =>
    obtain ⟨c, color⟩ := colors r rfl
    refine ⟨pins.insert p.temp c, by simp only [color], fun t held => ?_⟩
    rw [IndexMap.contains, IndexMap.get?_insert] at held
    split at held
    next same => exact .inl same
    next => exact .inr held

/-- A parameter whose register is unknown or kept back is refused. -/
theorem pinsFrom_refused (fresh : p.temp ∉ seen) (refused : ¬ p.Allocatable) :
    ∃ e, pinsFrom func automatic position seen (p :: rest) pins = .error e := by
  rw [pinsFrom, if_neg fresh]
  cases written : p.reg with
  | none => exact absurd (fun name same => by cases written.symm.trans same) refused
  | some name =>
    simp only [pinOf, written]
    cases known : Register.ofName? name with
    | none => exact ⟨_, rfl⟩
    | some r =>
      cases color : r.color? with
      | none => exact ⟨.malformed func (.unallocatable r), by simp only [color]⟩
      | some c =>
        refine absurd (fun other same => ?_) refused
        cases written.symm.trans same
        exact ⟨r, c, known, color⟩

end Pins

/-- Parameters are in order if they are distinct and their registers may be handed out. -/
theorem pinsFrom_isOk {func : String} {automatic : Bool} {position : Nat} {seen : List Temp}
    {params : List Param} {pins : IndexMap Color} :
    (∃ final, pinsFrom func automatic position seen params pins = .ok final) ↔
      (params.map (·.temp)).Nodup ∧ (∀ p ∈ params, p.temp ∉ seen) ∧
        ∀ p ∈ params, p.Allocatable := by
  -- Neither the position nor the pins so far decide whether a parameter is refused.
  induction params generalizing position seen pins with
  | nil => simp [pinsFrom]
  | cons p rest ih =>
    by_cases repeated : p.temp ∈ seen
    · simp [pinsFrom, repeated]
    · by_cases allowed : p.Allocatable
      · obtain ⟨next, step, _⟩ :=
          pinsFrom_allocatable func automatic position rest pins repeated allowed
        rw [step, ih, List.map_cons, List.nodup_cons, List.forall_mem_cons, List.forall_mem_cons]
        constructor
        · rintro ⟨nodup, unseen, others⟩
          refine ⟨⟨fun twin => ?_, nodup⟩, ⟨repeated, fun q inside old => ?_⟩, allowed, others⟩
          · obtain ⟨q, inside, same⟩ := List.mem_map.mp twin
            exact unseen q inside (by rw [same]; exact List.mem_cons_self)
          · exact unseen q inside (List.mem_cons_of_mem _ old)
        · rintro ⟨⟨once, nodup⟩, ⟨_, unseen⟩, _, others⟩
          refine ⟨nodup, fun q inside twin => ?_, others⟩
          rcases List.mem_cons.mp twin with same | old
          · exact once (List.mem_map.mpr ⟨q, inside, same⟩)
          · exact unseen q inside old
      · obtain ⟨e, failed⟩ := pinsFrom_refused func automatic position rest pins repeated allowed
        simp [failed, allowed]

theorem pinsFrom_contains {func : String} {automatic : Bool} {position : Nat} {seen : List Temp}
    {params : List Param} {pins final : IndexMap Color}
    (run : pinsFrom func automatic position seen params pins = .ok final) :
    ∀ t, final.contains t = true → t ∈ params.map (·.temp) ∨ pins.contains t = true := by
  induction params generalizing position seen pins with
  | nil =>
    cases run
    exact fun t held => .inr held
  | cons p rest ih =>
    obtain ⟨_, unseen, allowed⟩ := pinsFrom_isOk.mp ⟨final, run⟩
    obtain ⟨next, step, adds⟩ := pinsFrom_allocatable func automatic position rest pins
      (unseen p List.mem_cons_self) (allowed p List.mem_cons_self)
    intro t held
    rcases ih (step.symm.trans run) t held with later | earlier
    · exact .inl (List.mem_cons_of_mem _ later)
    · rcases adds t earlier with same | old
      · rw [same]
        exact .inl List.mem_cons_self
      · exact .inr old

end RegisterColoring
