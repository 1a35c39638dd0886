import RegisterColoring.Proofs.Basics
import RegisterColoring.Proofs.WellFormed
import RegisterColoring.Spill

namespace RegisterColoring.Spill

/-- Fresh temps that are only counted. -/
def number : StateM Temp Temp := fun next => (next, next + 1)

/-- The reloads for a list of temps, with fresh temps from `next` on. -/
def reloads (slots : IndexMap Slot) (next : Temp) (temps : List Temp) : List Reload :=
  (reloadsM number slots temps next).1

theorem reloads_nil (slots : IndexMap Slot) (next : Temp) : reloads slots next [] = [] := rfl

theorem reloads_cons_none {slots : IndexMap Slot} {t : Temp} (kept : slots.get? t = none)
    (next : Temp) (rest : List Temp) : reloads slots next (t :: rest) = reloads slots next rest := by
  simp only [reloads, reloadsM, kept]

theorem reloads_cons_some {slots : IndexMap Slot} {t : Temp} {slot : Slot}
    (stored : slots.get? t = some slot) (next : Temp) (rest : List Temp) :
    reloads slots next (t :: rest) = ⟨t, slot, next⟩ :: reloads slots (next + 1) rest := by
  simp only [reloads, reloadsM, stored]
  rfl

/-- One number is used for each reload. -/
theorem reloadsM_number (slots : IndexMap Slot) (next : Nat) (temps : List Temp) :
    reloadsM number slots temps next =
      (reloads slots next temps, next + (reloads slots next temps).length) := by
  refine Prod.ext rfl ?_
  induction temps generalizing next with
  | nil => rfl
  | cons t rest ih =>
    cases stored : slots.get? t with
    | none =>
      rw [reloads_cons_none stored]
      simp only [reloadsM, stored]
      exact ih next
    | some slot =>
      rw [reloads_cons_some stored, List.length_cons]
      simp only [reloadsM, stored]
      exact (ih (next + 1)).trans (Nat.add_right_comm next 1 _)

variable {slots : IndexMap Slot} {next : Nat} {temps : List Temp}

theorem mem_reloads {r : Reload} (member : r ∈ reloads slots next temps) :
    r.temp ∈ temps ∧ slots.get? r.temp = some r.slot ∧
      ∃ k < (reloads slots next temps).length, next + k = r.fresh := by
  induction temps generalizing next with
  | nil => exact absurd member List.not_mem_nil
  | cons t rest ih =>
    cases stored : slots.get? t with
    | some slot =>
      rw [reloads_cons_some stored] at member ⊢
      rw [List.length_cons]
      rcases List.mem_cons.mp member with rfl | later
      · exact ⟨List.mem_cons_self, stored, 0, Nat.succ_pos _, rfl⟩
      · obtain ⟨inside, place, k, bound, same⟩ := ih later
        exact ⟨List.mem_cons_of_mem _ inside, place, k + 1, Nat.succ_lt_succ bound, by omega⟩
    | none =>
      rw [reloads_cons_none stored] at member ⊢
      obtain ⟨inside, numbered⟩ := ih member
      exact ⟨List.mem_cons_of_mem _ inside, numbered⟩

theorem reloads_ascending (slots : IndexMap Slot) (next : Nat) (temps : List Temp) :
    (reloads slots next temps).Pairwise fun r q => r.fresh < q.fresh := by
  induction temps generalizing next with
  | nil => exact .nil
  | cons t rest ih =>
    cases stored : slots.get? t with
    | some slot =>
      rw [reloads_cons_some stored]
      refine List.pairwise_cons.mpr ⟨fun q later => ?_, ih _⟩
      obtain ⟨_, _, k, _, same⟩ := mem_reloads later
      exact Nat.lt_of_lt_of_le (Nat.lt_succ_self next) (Nat.le.intro same)
    | none =>
      rw [reloads_cons_none stored]
      exact ih _

theorem reloads_injective {r q : Reload} (nodup : temps.Nodup) (first : r ∈ reloads slots next temps)
    (second : q ∈ reloads slots next temps) (same : r.temp = q.temp) : r = q := by
  induction temps generalizing next with
  | nil => exact absurd first List.not_mem_nil
  | cons t rest ih =>
    obtain ⟨absent, nodup⟩ := List.nodup_cons.mp nodup
    cases stored : slots.get? t with
    | some slot =>
      rw [reloads_cons_some stored] at first second
      rcases List.mem_cons.mp first with rfl | first
      · rcases List.mem_cons.mp second with rfl | second
        · rfl
        · refine absurd (mem_reloads second).1 ?_
          rw [← same]
          exact absent
      · rcases List.mem_cons.mp second with rfl | second
        · refine absurd (mem_reloads first).1 ?_
          rw [same]
          exact absent
        · exact ih nodup first second
    | none =>
      rw [reloads_cons_none stored] at first second
      exact ih nodup first second

theorem fresh?_mem {loads : List Reload} {t x : Temp} (found : fresh? loads t = some x) :
    ∃ r ∈ loads, r.temp = t ∧ r.fresh = x := by
  obtain ⟨r, place, same⟩ := Option.map_eq_some_iff.mp found
  exact ⟨r, List.mem_of_find?_eq_some place, by simpa using List.find?_some place, same⟩

theorem fresh?_reloads_isSome (next : Nat) {t : Temp} {slot : Slot} (member : t ∈ temps)
    (stored : slots.get? t = some slot) : ∃ x, fresh? (reloads slots next temps) t = some x := by
  have there : ∃ r ∈ reloads slots next temps, r.temp = t := by
    induction temps generalizing next with
    | nil => exact absurd member List.not_mem_nil
    | cons u rest ih =>
      rcases List.mem_cons.mp member with rfl | later
      · rw [reloads_cons_some stored]
        exact ⟨_, List.mem_cons_self, rfl⟩
      · cases other : slots.get? u with
        | some slot =>
          rw [reloads_cons_some other]
          obtain ⟨r, inside, same⟩ := ih (next + 1) later
          exact ⟨r, List.mem_cons_of_mem _ inside, same⟩
        | none =>
          rw [reloads_cons_none other]
          exact ih next later
  obtain ⟨r, inside, same⟩ := there
  unfold fresh?
  cases place : (reloads slots next temps).find? (·.temp = t) with
  | some q => exact ⟨q.fresh, rfl⟩
  | none => exact absurd (decide_eq_true same) (by simpa using List.find?_eq_none.mp place r inside)

/-- What replaces a temp that is read. -/
def standIn (loads : List Reload) (t : Temp) : Temp := (fresh? loads t).getD t

/-- The loads in front of an instruction. -/
def loadCode (loads : List Reload) : List Instr := loads.map fun r => .spillLoad r.fresh r.slot

theorem standIn_eq (next : Nat) {t : Temp} (member : t ∈ temps) :
    slots.get? t = none ∧ standIn (reloads slots next temps) t = t ∨
      ∃ r ∈ reloads slots next temps, r.temp = t ∧
        standIn (reloads slots next temps) t = r.fresh := by
  unfold standIn
  cases stored : slots.get? t with
  | none =>
    refine Or.inl ⟨rfl, ?_⟩
    cases fresh : fresh? (reloads slots next temps) t with
    | none => rfl
    | some x =>
      obtain ⟨r, inside, rfl, _⟩ := fresh?_mem fresh
      cases stored.symm.trans (mem_reloads inside).2.1
  | some slot =>
    obtain ⟨x, fresh⟩ := fresh?_reloads_isSome next member stored
    obtain ⟨r, inside, same, value⟩ := fresh?_mem fresh
    exact Or.inr ⟨r, inside, same, by rw [fresh, Option.getD_some, value]⟩

theorem redirect_cases (slots : IndexMap Slot) (i : Instr) :
    redirect slots i = i ∧ (∀ t, i.addressTaken? = some t → slots.get? t = none) ∨
      ∃ d v slot, i = .addrOf d v ∧ slots.get? v = some slot ∧
        redirect slots i = .slotAddr d slot := by
  unfold redirect
  split
  · rename_i d v
    split
    · rename_i slot stored
      exact Or.inr ⟨d, v, slot, rfl, stored, rfl⟩
    · rename_i absent
      refine Or.inl ⟨rfl, fun t taken => ?_⟩
      cases taken
      exact absent
  · rename_i other
    refine Or.inl ⟨rfl, fun t taken => ?_⟩
    cases i with
    | addrOf d v => exact absurd rfl (other d v)
    | _ => exact nomatch taken

@[simp] theorem dest?_redirect (slots : IndexMap Slot) (i : Instr) :
    (redirect slots i).dest? = i.dest? := by
  rcases redirect_cases slots i with ⟨same, _⟩ | ⟨d, v, slot, rfl, _, same⟩
  · rw [same]
  · rw [same]
    rfl

@[simp] theorem isTerminator_redirect (slots : IndexMap Slot) (i : Instr) :
    (redirect slots i).isTerminator = i.isTerminator := by
  rcases redirect_cases slots i with ⟨same, _⟩ | ⟨d, v, slot, rfl, _, same⟩
  · rw [same]
  · rw [same]
    rfl

@[simp] theorem targets_redirect (slots : IndexMap Slot) (i : Instr) :
    (redirect slots i).targets = i.targets := by
  rcases redirect_cases slots i with ⟨same, _⟩ | ⟨d, v, slot, rfl, _, same⟩
  · rw [same]
  · rw [same]
    rfl

theorem uses_redirect {i : Instr} {t : Temp} (used : t ∈ (redirect slots i).uses) : t ∈ i.uses := by
  rcases redirect_cases slots i with ⟨same, _⟩ | ⟨d, v, slot, rfl, _, same⟩
  · rwa [same] at used
  · rw [same] at used
    exact absurd used List.not_mem_nil

theorem slot?_redirect {i : Instr} {s : Slot} (named : (redirect slots i).slot? = some s) :
    i.slot? = some s ∨ ∃ t, slots.get? t = some s := by
  rcases redirect_cases slots i with ⟨same, _⟩ | ⟨d, v, slot, rfl, stored, same⟩
  · rw [same] at named
    exact Or.inl named
  · rw [same] at named
    cases named
    exact Or.inr ⟨v, stored⟩

end RegisterColoring.Spill
