namespace RegisterColoring

/-- What a machine does next: it halts, or shows events and goes to a state. -/
inductive Move (σ ε ω : Type)
  | halt (outcome : ω)
  | go (events : List ε) (next : σ)

variable {σ τ υ ε ω : Type}

/-- A number of moves, with the events that they show. -/
inductive Runs (step : σ → Move σ ε ω) : Nat → σ → List ε → σ → Prop
  | refl (s : σ) : Runs step 0 s [] s
  | head {n : Nat} {s t u : σ} {es fs : List ε} : step s = .go es t → Runs step n t fs u →
      Runs step (n + 1) s (es ++ fs) u

/-- A run from `s` shows the events `es`, and perhaps more after them. -/
def Shows (step : σ → Move σ ε ω) (s : σ) (es : List ε) : Prop :=
  ∃ n fs t, Runs step n s fs t ∧ es <+: fs

/-- The run from `s` comes to a halt with the given outcome, having shown the events `es`. -/
def Ends (step : σ → Move σ ε ω) (s : σ) (es : List ε) (outcome : ω) : Prop :=
  ∃ n t, Runs step n s es t ∧ step t = .halt outcome

/-- The two machines cannot be told apart. -/
structure SameBehavior (step : σ → Move σ ε ω) (s : σ) (other : τ → Move τ ε ω) (t : τ) : Prop where
  shows : ∀ es, Shows step s es ↔ Shows other t es
  ends : ∀ es outcome, Ends step s es outcome ↔ Ends other t es outcome

theorem SameBehavior.refl (step : σ → Move σ ε ω) (s : σ) : SameBehavior step s step s :=
  ⟨fun _ => Iff.rfl, fun _ _ => Iff.rfl⟩

theorem SameBehavior.trans {step : σ → Move σ ε ω} {s : σ} {other : τ → Move τ ε ω} {t : τ}
    {third : υ → Move υ ε ω} {u : υ} (first : SameBehavior step s other t)
    (second : SameBehavior other t third u) : SameBehavior step s third u :=
  ⟨fun es => (first.shows es).trans (second.shows es),
    fun es outcome => (first.ends es outcome).trans (second.ends es outcome)⟩

namespace Runs

variable {step : σ → Move σ ε ω}

theorem one {s t : σ} {es : List ε} (move : step s = .go es t) : Runs step 1 s es t := by
  have run := Runs.head move (.refl t)
  rwa [List.append_nil] at run

theorem trans {n m : Nat} {s t u : σ} {es fs : List ε} (first : Runs step n s es t)
    (second : Runs step m t fs u) : Runs step (n + m) s (es ++ fs) u := by
  induction first with
  | refl s =>
    rw [Nat.zero_add, List.nil_append]
    exact second
  | head move _ ih =>
    rw [Nat.succ_add, List.append_assoc]
    exact .head move (ih second)

/-- A machine that has halted makes no move. -/
theorem halted {n : Nat} {s t : σ} {es : List ε} {outcome : ω} (run : Runs step n s es t)
    (halt : step s = .halt outcome) : n = 0 ∧ es = [] ∧ t = s := by
  cases run with
  | refl => exact ⟨rfl, rfl, rfl⟩
  | head move _ => cases halt.symm.trans move

/-- Of two runs from one state the shorter is part of the longer. -/
theorem split {n m : Nat} {s t u : σ} {es fs : List ε} (short : Runs step n s es t)
    (long : Runs step m s fs u) (le : n ≤ m) : ∃ gs, Runs step (m - n) t gs u ∧ fs = es ++ gs := by
  induction short generalizing m fs with
  | refl s => exact ⟨fs, by rwa [Nat.sub_zero], rfl⟩
  | head move _ ih =>
    cases long with
    | refl => exact absurd le (Nat.not_succ_le_zero _)
    | head other later =>
      cases move.symm.trans other
      obtain ⟨gs, rest, same⟩ := ih later (Nat.le_of_succ_le_succ le)
      refine ⟨gs, by rwa [Nat.succ_sub_succ], ?_⟩
      rw [same, List.append_assoc]

/-- A run up to a halt is at least as long as any other. -/
theorem le_of_halt {n m : Nat} {s t u : σ} {es fs : List ε} {outcome : ω}
    (run : Runs step n s es t) (halting : Runs step m s fs u) (halt : step u = .halt outcome) :
    n ≤ m := by
  rcases Nat.le_total n m with short | long
  · exact short
  · obtain ⟨gs, rest, _⟩ := halting.split run long
    have none := (rest.halted halt).1
    omega

end Runs

/-- Every move from a state on the left is matched on the right by one or more moves that show the
same, or it is silent and lowers the rank. -/
structure Simulation (step : σ → Move σ ε ω) (other : τ → Move τ ε ω) (R : σ → τ → Prop)
    (rank : σ → Nat) : Prop where
  halt : ∀ s t outcome, R s t → step s = .halt outcome →
    ∃ n u, Runs other n t [] u ∧ other u = .halt outcome
  go : ∀ s t es next, R s t → step s = .go es next →
    (∃ n u, Runs other (n + 1) t es u ∧ R next u) ∨ es = [] ∧ R next t ∧ rank next < rank s

namespace Simulation

variable {step : σ → Move σ ε ω} {other : τ → Move τ ε ω} {R : σ → τ → Prop} {rank : σ → Nat}

/-- A simulation from what the two sides do in related states. -/
theorem of_moves (moves : ∀ {s t}, R s t →
    (∃ outcome n u, step s = .halt outcome ∧ Runs other n t [] u ∧ other u = .halt outcome) ∨
      (∃ es next n u, step s = .go es next ∧ Runs other (n + 1) t es u ∧ R next u) ∨
      ∃ next, step s = .go [] next ∧ R next t ∧ rank next < rank s) :
    Simulation step other R rank where
  halt s t outcome related halt := by
    rcases moves related with ⟨_, n, u, left, run, right⟩ | ⟨_, _, _, _, left, _⟩ | ⟨_, left, _⟩
    · cases halt.symm.trans left
      exact ⟨n, u, run, right⟩
    · cases halt.symm.trans left
    · cases halt.symm.trans left
  go s t es next related move := by
    rcases moves related with ⟨_, _, _, left, _⟩ | ⟨_, _, n, u, left, right, later⟩ |
      ⟨_, left, later, lower⟩
    · cases move.symm.trans left
    · cases move.symm.trans left
      exact Or.inl ⟨n, u, right, later⟩
    · cases move.symm.trans left
      exact Or.inr ⟨rfl, later, lower⟩

theorem forward (sim : Simulation step other R rank) {n : Nat} {s s' : σ} {t : τ} {es : List ε}
    (related : R s t) (run : Runs step n s es s') : ∃ m u, Runs other m t es u ∧ R s' u := by
  induction run generalizing t with
  | refl s => exact ⟨0, t, .refl t, related⟩
  | head move _ ih =>
    rcases sim.go _ t _ _ related move with ⟨k, v, first, next⟩ | ⟨rfl, next, _⟩
    · obtain ⟨m, u, later, final⟩ := ih next
      exact ⟨_, u, first.trans later, final⟩
    · exact ih next

/-- A run on the right is part of one that matches a run on the left. -/
theorem backward (sim : Simulation step other R rank) {n : Nat} {s : σ} {t u : τ} {fs : List ε}
    (related : R s t) (run : Runs other n t fs u) :
    ∃ m es s' k gs v, Runs step m s es s' ∧ Runs other k u gs v ∧ es = fs ++ gs ∧
      (R s' v ∨ ∃ outcome, step s' = .halt outcome ∧ other v = .halt outcome) := by
  -- A matched move shortens the run on the right, and the rank bounds the unmatched ones.
  induction n using Nat.strongRecOn generalizing s t fs with
  | _ n ihLength =>
  induction bound : rank s using Nat.strongRecOn generalizing s with
  | _ _ ihRank =>
  cases move : step s with
  | halt outcome =>
    obtain ⟨k, v, silent, halt⟩ := sim.halt s t outcome related move
    have short := run.le_of_halt silent halt
    obtain ⟨gs, rest, same⟩ := run.split silent short
    exact ⟨0, [], s, _, gs, v, .refl s, rest, same, Or.inr ⟨outcome, move, halt⟩⟩
  | go es next =>
    rcases sim.go s t es next related move with ⟨k, v, first, later⟩ | ⟨rfl, later, lower⟩
    · rcases Nat.le_total n (k + 1) with short | long
      · obtain ⟨gs, rest, same⟩ := run.split first short
        exact ⟨1, es, next, _, gs, v, .one move, rest, same, Or.inl later⟩
      · obtain ⟨gs, rest, same⟩ := first.split run long
        obtain ⟨m, es', s', k', hs, w, left, right, joined, final⟩ :=
          ihLength _ (by omega) later rest
        refine ⟨_, _, s', k', hs, w, .head move left, right, ?_, final⟩
        rw [joined, same, List.append_assoc]
    · obtain ⟨m, es', s', k', hs, w, left, right, joined, final⟩ :=
        ihRank _ (by omega) later rfl
      exact ⟨_, _, s', k', hs, w, .head move left, right, joined, final⟩

/-- If the right side has halted, the left side halts silently. -/
theorem ends_of_halt (sim : Simulation step other R rank) {s : σ} {t : τ} {outcome : ω}
    (related : R s t) (halt : other t = .halt outcome) : Ends step s [] outcome := by
  induction bound : rank s using Nat.strongRecOn generalizing s with
  | _ _ ih =>
  cases move : step s with
  | halt first =>
    obtain ⟨k, v, silent, second⟩ := sim.halt s t first related move
    obtain ⟨_, _, rfl⟩ := silent.halted halt
    cases halt.symm.trans second
    exact ⟨0, s, .refl s, move⟩
  | go es next =>
    rcases sim.go s t es next related move with ⟨k, v, first, _⟩ | ⟨rfl, later, lower⟩
    · exact absurd (first.halted halt).1 (Nat.succ_ne_zero k)
    · obtain ⟨n, u, run, final⟩ := ih _ (by omega) later rfl
      exact ⟨n + 1, u, .head move run, final⟩

theorem sameBehavior (sim : Simulation step other R rank) {s : σ} {t : τ} (related : R s t) :
    SameBehavior step s other t where
  shows es := by
    constructor
    · rintro ⟨n, fs, s', run, front⟩
      obtain ⟨m, u, matched, _⟩ := sim.forward related run
      exact ⟨m, fs, u, matched, front⟩
    · rintro ⟨n, fs, u, run, front⟩
      obtain ⟨m, es', s', _, gs, _, left, _, rfl, _⟩ := sim.backward related run
      exact ⟨m, fs ++ gs, s', left, front.trans (List.prefix_append fs gs)⟩
  ends es outcome := by
    constructor
    · rintro ⟨n, s', run, halt⟩
      obtain ⟨m, u, matched, final⟩ := sim.forward related run
      obtain ⟨k, v, silent, stop⟩ := sim.halt s' u outcome final halt
      have whole := matched.trans silent
      rw [List.append_nil] at whole
      exact ⟨_, v, whole, stop⟩
    · rintro ⟨n, u, run, halt⟩
      obtain ⟨m, es', s', k, gs, v, left, right, rfl, final⟩ := sim.backward related run
      obtain ⟨_, rfl, rfl⟩ := right.halted halt
      rw [List.append_nil] at left
      rcases final with later | ⟨first, stop, second⟩
      · obtain ⟨k, w, rest, stop⟩ := sim.ends_of_halt later halt
        have whole := left.trans rest
        rw [List.append_nil] at whole
        exact ⟨_, w, whole, stop⟩
      · cases halt.symm.trans second
        exact ⟨m, s', left, stop⟩

end Simulation

end RegisterColoring
