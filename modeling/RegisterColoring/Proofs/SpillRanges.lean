import RegisterColoring.Proofs.Elimination
import RegisterColoring.Proofs.Spills

namespace RegisterColoring

/-- A load from a slot into one of the given temps. -/
def Instr.IsReload (temps : IndexSet) (i : Instr) : Prop := ∃ t ∈ temps, ∃ slot, i = .spillLoad t slot

/-- Whether the instruction reads `t`, and not only to store it in a slot. -/
def Instr.reads (t : Temp) : Instr → Bool
  | spillStore .. => false
  | i => t ∈ i.uses

/-- Behind an instruction that is no reload none of the temps is live but the one it writes. -/
def Brief (temps : IndexSet) : List Instr → Prop
  | [] => True
  | i :: rest =>
    (i.IsReload temps ∨ ∀ t ∈ temps, t ∈ liveRow rest ∅ → i.dest? = some t) ∧ Brief temps rest

/-- Every reload is read further down in the row. -/
def Served (temps : IndexSet) : List Instr → Prop
  | [] => True
  | i :: rest =>
    (∀ t ∈ temps, ∀ slot, i = .spillLoad t slot → t ∈ liveRow rest ∅) ∧ Served temps rest

variable {temps : IndexSet} {row : List Instr}

theorem Instr.reads_iff {i : Instr} {t : Temp} :
    i.reads t = true ↔ t ∈ i.uses ∧ ∀ slot x, i ≠ .spillStore slot x := by
  cases i with
  | spillStore slot x => simp [reads]
  | _ => simp [reads]

@[simp] theorem Instr.reads_mapDest (h : Temp → Temp) (i : Instr) (t : Temp) :
    (i.mapDest h).reads t = i.reads t := by
  cases i <;> rfl

theorem mem_liveRow_cons {i : Instr} {rest : List Instr} {out : IndexSet} {t : Temp} :
    t ∈ liveRow (i :: rest) out ↔ t ∈ i.uses ∨ i.dest? ≠ some t ∧ t ∈ liveRow rest out :=
  Instr.mem_liveBefore

theorem mem_liveRow_spillLoad {d t : Temp} {slot : Slot} {rest : List Instr} {out : IndexSet} :
    t ∈ liveRow (.spillLoad d slot :: rest) out ↔ d ≠ t ∧ t ∈ liveRow rest out := by
  rw [mem_liveRow_cons]
  simp [Instr.uses, Instr.operands, Instr.dest?, distinct]

theorem mem_liveRow_spillStore {x t : Temp} {slot : Slot} {rest : List Instr} {out : IndexSet} :
    t ∈ liveRow (.spillStore slot x :: rest) out ↔ t = x ∨ t ∈ liveRow rest out := by
  rw [mem_liveRow_cons]
  simp [Instr.uses, Instr.operands, Instr.dest?, distinct, Operand.temp?]

/-- One instruction reads all of the temps that are live at the start. -/
theorem Brief.reader (brief : Brief temps row) :
    (∀ t ∈ temps, t ∉ liveRow row ∅) ∨
      ∃ j ∈ row, ∀ t ∈ temps, t ∈ liveRow row ∅ → t ∈ j.uses := by
  induction row with
  | nil => exact Or.inl fun t _ => IndexSet.not_mem_empty t
  | cons i rest ih =>
    obtain ⟨reload | last, later⟩ := brief
    · obtain ⟨d, _, slot, rfl⟩ := reload
      have passed : ∀ {t : Temp}, t ∈ liveRow (.spillLoad d slot :: rest) ∅ → t ∈ liveRow rest ∅ :=
        fun live => (mem_liveRow_spillLoad.mp live).2
      rcases ih later with none | ⟨j, inside, reads⟩
      · exact Or.inl fun t member live => none t member (passed live)
      · exact Or.inr ⟨j, List.mem_cons_of_mem _ inside,
          fun t member live => reads t member (passed live)⟩
    · refine Or.inr ⟨i, List.mem_cons_self, fun t member live => ?_⟩
      refine (mem_liveRow_cons.mp live).resolve_right fun ⟨kept, behind⟩ => ?_
      exact kept (last t member behind)

theorem served_of_split (read : ∀ pre i rest, row = pre ++ i :: rest → ∀ t ∈ temps, ∀ slot,
    i = .spillLoad t slot → t ∈ liveRow rest ∅) : Served temps row := by
  induction row with
  | nil => trivial
  | cons i rest ih =>
    refine ⟨read [] i rest rfl, ih fun pre j behind split => ?_⟩
    exact read (i :: pre) j behind (by rw [split]; rfl)

theorem Served.split {pre rest : List Instr} {i : Instr} (served : Served temps (pre ++ i :: rest)) :
    ∀ t ∈ temps, ∀ slot, i = .spillLoad t slot → t ∈ liveRow rest ∅ := by
  induction pre with
  | nil => exact served.1
  | cons j pre ih => exact ih served.2

theorem Brief.split {pre rest : List Instr} {i : Instr} (brief : Brief temps (pre ++ i :: rest)) :
    (i.IsReload temps ∨ ∀ t ∈ temps, t ∈ liveRow rest ∅ → i.dest? = some t) ∧ Brief temps rest := by
  induction pre with
  | nil => exact brief
  | cons j pre ih => exact ih brief.2

theorem Func.Thins.brief {f : Func} {b : BlockId} {kept : List Instr} (thins : f.Thins b row kept)
    (brief : Brief temps row) : Brief temps kept := by
  induction thins with
  | nil => trivial
  | keep later ih =>
    refine ⟨brief.1.imp_right fun last t member live => ?_, ih brief.2⟩
    exact last t member (later.liveRow_subset live)
  | drop _ _ _ _ ih => exact ih brief.2

namespace Spill

variable {slots : IndexMap Slot} {low next : Nat}

/-- Loads only take away what they write. -/
theorem mem_liveRow_loadCode {loads : List Reload} {later : List Instr} {t : Temp} :
    t ∈ liveRow (loadCode loads ++ later) ∅ ↔
      (∀ r ∈ loads, r.fresh ≠ t) ∧ t ∈ liveRow later ∅ := by
  induction loads with
  | nil => simp [loadCode]
  | cons r rest ih =>
    have step : t ∈ liveRow (loadCode (r :: rest) ++ later) ∅ ↔
        r.fresh ≠ t ∧ t ∈ liveRow (loadCode rest ++ later) ∅ := mem_liveRow_spillLoad
    rw [step, ih, List.forall_mem_cons, and_assoc]

theorem mem_uses_renamed {i : Instr} {t : Temp} (absent : slots.get? t = none)
    (used : t ∈ i.uses) : t ∈ (renamed slots next i).uses := by
  have kept : t ∈ (redirect slots i).uses := by
    rcases redirect_cases slots i with ⟨same, _⟩ | ⟨d, v, slot, rfl, stored, _⟩
    · rw [same]
      exact used
    · cases List.mem_singleton.mp used
      cases absent.symm.trans stored
  refine Instr.mem_uses_mapUses.mpr ⟨t, kept, ?_⟩
  rcases standIn_eq next kept with ⟨_, same⟩ | ⟨r, inside, rfl, _⟩
  · exact same
  · cases absent.symm.trans (mem_reloads inside).2.1

/-- A temp that is not spilled stays live in front of an instruction. -/
theorem mem_liveRow_instrCode {i : Instr} {later : List Instr} {t : Nat} (lt : t < low)
    (le : low ≤ next) (absent : slots.get? t = none) :
    t ∈ liveRow ((instrCode slots next i).1 ++ later) ∅ ↔
      t ∈ i.uses ∨ i.dest? ≠ some t ∧ t ∈ liveRow later ∅ := by
  have old : ∀ x : Nat, next ≤ x → x ≠ t := fun x above =>
    Nat.ne_of_gt (Nat.lt_of_lt_of_le lt (Nat.le_trans le above))
  have loads : ∀ r ∈ loadsOf slots next i, r.fresh ≠ t := fun r inside =>
    old r.fresh (fresh_lt inside).1
  have read : t ∈ (renamed slots next i).uses ↔ t ∈ i.uses := by
    refine ⟨fun used => ?_, mem_uses_renamed absent⟩
    rcases uses_renamed used with ⟨used, _⟩ | ⟨r, inside, same⟩
    · exact used
    · exact absurd same (loads r inside)
  rcases instrCode_cases slots next i with ⟨plain, code⟩ | ⟨d, slot, x, free, writes, stored, code,
    origin⟩
  · rw [code, List.append_assoc, mem_liveRow_loadCode, and_iff_right loads, List.singleton_append,
      mem_liveRow_cons, read, dest?_renamed]
  · have fresh := le_store origin
    have other : (renamed slots next i).dest?.map (fun _ => x) ≠ some t := by
      rw [dest?_renamed, writes]
      exact fun same => old x fresh (Option.some.inj same)
    have spilled : i.dest? ≠ some t := by
      rw [writes]
      rintro same
      cases same
      cases absent.symm.trans stored
    rw [code, List.append_assoc, mem_liveRow_loadCode, and_iff_right loads, List.cons_append,
      List.singleton_append, mem_liveRow_cons, Instr.uses_mapDest, read, Instr.dest?_mapDest,
      and_iff_right other, and_iff_right spilled, mem_liveRow_spillStore,
      or_iff_right (old x fresh).symm]

/-- No temp that spill code introduces is live in front of the code for an instruction. -/
theorem not_mem_liveRow_instrCode {i : Instr} {later : List Instr} {t : Nat} (above : low ≤ t)
    (below : ∀ u ∈ i.temps, u < low) (dead : t ∉ liveRow later ∅) :
    t ∉ liveRow ((instrCode slots next i).1 ++ later) ∅ := by
  have read : t ∈ (renamed slots next i).uses → ∃ r ∈ loadsOf slots next i, r.fresh = t := by
    intro used
    rcases uses_renamed used with ⟨old, _⟩ | fresh
    · exact absurd (below t (Instr.mem_temps.mpr (Or.inr old))) (Nat.not_lt_of_le above)
    · exact fresh
  intro live
  rcases instrCode_cases slots next i with ⟨_, code⟩ | ⟨d, slot, x, free, writes, _, code, _⟩
  · rw [code, List.append_assoc, mem_liveRow_loadCode, List.singleton_append, mem_liveRow_cons] at live
    obtain ⟨other, used | ⟨_, behind⟩⟩ := live
    · obtain ⟨r, inside, same⟩ := read used
      exact other r inside same
    · exact dead behind
  · rw [code, List.append_assoc, mem_liveRow_loadCode, List.cons_append, List.singleton_append,
      mem_liveRow_cons, Instr.uses_mapDest, Instr.dest?_mapDest, dest?_renamed, writes,
      mem_liveRow_spillStore] at live
    obtain ⟨other, used | ⟨kept, same | behind⟩⟩ := live
    · obtain ⟨r, inside, same⟩ := read used
      exact other r inside same
    · exact kept (congrArg some same.symm)
    · exact dead behind

theorem mem_liveRow_instrsCode {t : Nat} (lt : t < low) (le : low ≤ next)
    (absent : slots.get? t = none) :
    t ∈ liveRow (instrsCode slots next row).1 ∅ ↔ t ∈ liveRow row ∅ := by
  induction row generalizing next with
  | nil => rfl
  | cons i rest ih =>
    rw [instrsCode_cons, mem_liveRow_instrCode lt le absent,
      ih (Nat.le_trans le (next_le_free slots next i)), mem_liveRow_cons]

theorem not_mem_liveRow_instrsCode {t : Nat} (above : low ≤ t)
    (below : ∀ i ∈ row, ∀ u ∈ i.temps, u < low) : t ∉ liveRow (instrsCode slots next row).1 ∅ := by
  induction row generalizing next with
  | nil => exact IndexSet.not_mem_empty t
  | cons i rest ih =>
    rw [instrsCode_cons]
    exact not_mem_liveRow_instrCode above (below i List.mem_cons_self)
      (ih fun j inside => below j (List.mem_cons_of_mem i inside))

/-- The given temps and what spill code introduces, which are numbered from `low` on. -/
structure Widens (slots : IndexMap Slot) (low : Nat) (temps all : IndexSet) : Prop where
  kept : ∀ t : Nat, t ∈ temps → t < low ∧ slots.get? t = none
  subset : ∀ t ∈ temps, t ∈ all
  cover : ∀ t : Nat, t ∈ all → t ∈ temps ∨ low ≤ t

variable {all : IndexSet}

/-- What is live in front of spill code was live before it was written. -/
theorem Widens.live (widens : Widens slots low temps all) (le : low ≤ next)
    (below : ∀ i ∈ row, ∀ u ∈ i.temps, u < low) {t : Temp} (member : t ∈ all)
    (live : t ∈ liveRow (instrsCode slots next row).1 ∅) : t ∈ temps ∧ t ∈ liveRow row ∅ := by
  rcases widens.cover t member with old | above
  · obtain ⟨lt, absent⟩ := widens.kept t old
    exact ⟨old, (mem_liveRow_instrsCode lt le absent).mp live⟩
  · exact absurd live (not_mem_liveRow_instrsCode above below)

theorem brief_loadCode {loads : List Reload} {later : List Instr}
    (fresh : ∀ r ∈ loads, r.fresh ∈ all) (brief : Brief all later) :
    Brief all (loadCode loads ++ later) := by
  induction loads with
  | nil => exact brief
  | cons r rest ih =>
    exact ⟨Or.inl ⟨r.fresh, fresh r List.mem_cons_self, r.slot, rfl⟩,
      ih fun q inside => fresh q (List.mem_cons_of_mem r inside)⟩

theorem Widens.brief_instrCode (widens : Widens slots low temps all) {i : Instr}
    {rest later : List Instr} (fresh : ∀ r ∈ loadsOf slots next i, r.fresh ∈ all)
    (live : ∀ t ∈ all, t ∈ liveRow later ∅ → t ∈ temps ∧ t ∈ liveRow rest ∅)
    (brief : Brief temps (i :: rest)) (done : Brief all later) :
    Brief all ((instrCode slots next i).1 ++ later) := by
  rcases instrCode_cases slots next i with ⟨_, code⟩ | ⟨d, slot, x, free, writes, stored, code, _⟩
  · rw [code, List.append_assoc]
    refine brief_loadCode fresh ⟨?_, done⟩
    rcases brief.1 with ⟨t, member, slot, rfl⟩ | last
    · exact Or.inl ⟨t, widens.subset t member, slot, rfl⟩
    · refine Or.inr fun t member behind => ?_
      obtain ⟨old, before⟩ := live t member behind
      rw [dest?_renamed]
      exact last t old before
  · -- The temp that is written is spilled, so none of the temps is live behind the instruction.
    have none : ∀ t ∈ all, t ∉ liveRow later ∅ := by
      intro t member behind
      obtain ⟨old, before⟩ := live t member behind
      have same : d = t := by
        rcases brief.1 with ⟨u, inside, slot, rfl⟩ | last
        · cases writes
          cases (widens.kept d inside).2.symm.trans stored
        · exact Option.some.inj (writes.symm.trans (last t old before))
      rw [same, (widens.kept t old).2] at stored
      exact nomatch stored
    rw [code, List.append_assoc]
    refine brief_loadCode fresh ⟨Or.inr fun t member behind => ?_,
      Or.inr fun t member behind => absurd behind (none t member), done⟩
    have same := (mem_liveRow_spillStore.mp behind).resolve_right (none t member)
    rw [Instr.dest?_mapDest, dest?_renamed, writes, same]
    rfl

theorem Widens.brief (widens : Widens slots low temps all) (le : low ≤ next)
    (below : ∀ i ∈ row, ∀ u ∈ i.temps, u < low)
    (fresh : ∀ t : Nat, next ≤ t → t < (instrsCode slots next row).2 → t ∈ all)
    (brief : Brief temps row) : Brief all (instrsCode slots next row).1 := by
  induction row generalizing next with
  | nil => trivial
  | cons i rest ih =>
    have step := next_le_free slots next i
    have last := le_last slots (instrCode slots next i).2 rest
    have under : ∀ j ∈ rest, ∀ u ∈ j.temps, u < low := fun j inside =>
      below j (List.mem_cons_of_mem i inside)
    rw [instrsCode_cons] at fresh ⊢
    refine widens.brief_instrCode (fun r inside => ?_) (fun t member behind => ?_) brief ?_
    · obtain ⟨above, lt⟩ := fresh_lt inside
      exact fresh r.fresh above (Nat.lt_of_lt_of_le lt last)
    · exact widens.live (Nat.le_trans le step) under member behind
    · exact ih (Nat.le_trans le step) under
        (fun t above lt => fresh t (Nat.le_trans step above) lt) brief.2

theorem served_loadCode {loads : List Reload} {later : List Instr}
    (ascending : loads.Pairwise fun r q => r.fresh < q.fresh)
    (read : ∀ r ∈ loads, r.fresh ∈ liveRow later ∅) (served : Served all later) :
    Served all (loadCode loads ++ later) := by
  induction loads with
  | nil => exact served
  | cons r rest ih =>
    obtain ⟨above, ascending⟩ := List.pairwise_cons.mp ascending
    refine ⟨fun t _ slot same => ?_, ih ascending fun q inside =>
      read q (List.mem_cons_of_mem r inside)⟩
    cases same
    exact mem_liveRow_loadCode.mpr
      ⟨fun q inside => Nat.ne_of_gt (above q inside), read r List.mem_cons_self⟩

/-- Every reload is read by the instruction for which it is made. -/
theorem fresh_mem_uses {i : Instr} {r : Reload} (member : r ∈ loadsOf slots next i) :
    r.fresh ∈ (renamed slots next i).uses := by
  obtain ⟨used, stored, _⟩ := mem_reloads member
  refine Instr.mem_uses_mapUses.mpr ⟨r.temp, used, ?_⟩
  rcases standIn_eq next used with ⟨absent, _⟩ | ⟨q, inside, sameTemp, same⟩
  · cases absent.symm.trans stored
  · rw [show q = r from reloads_injective (Instr.uses_nodup _) inside member sameTemp] at same
    exact same

theorem spillLoad_of_renamed {i : Instr} {t : Temp} {slot : Slot}
    (same : renamed slots next i = .spillLoad t slot) : i = .spillLoad t slot := by
  unfold renamed at same
  rcases redirect_cases slots i with ⟨plain, _⟩ | ⟨d, v, slot, rfl, _, moved⟩
  · rw [plain] at same
    cases i with
    | spillLoad d s => exact same
    | _ => exact nomatch same
  · rw [moved] at same
    exact nomatch same

theorem Widens.served_instrCode (widens : Widens slots low temps all) {i : Instr}
    {rest later : List Instr} (below : ∀ u ∈ i.temps, u < low)
    (kept : ∀ t ∈ temps, t ∈ liveRow rest ∅ → t ∈ liveRow later ∅)
    (served : Served temps (i :: rest)) (done : Served all later) :
    Served all ((instrCode slots next i).1 ++ later) := by
  have ascending := reloads_ascending slots next (redirect slots i).uses
  rcases instrCode_cases slots next i with ⟨_, code⟩ | ⟨d, slot, x, free, writes, _, code, _⟩
  · rw [code, List.append_assoc]
    refine served_loadCode ascending (fun r inside => mem_liveRow_cons.mpr (Or.inl ?_)) ⟨?_, done⟩
    · exact fresh_mem_uses inside
    · intro t member slot same
      cases spillLoad_of_renamed same
      have old := (widens.cover t member).resolve_right (Nat.not_le_of_lt (below t
        (Instr.mem_temps.mpr (Or.inl rfl))))
      exact kept t old (served.1 t old slot rfl)
  · rw [code, List.append_assoc]
    refine served_loadCode ascending (fun r inside => mem_liveRow_cons.mpr (Or.inl ?_))
      ⟨?_, fun t _ slot same => (nomatch same), done⟩
    · rw [Instr.uses_mapDest]
      exact fresh_mem_uses inside
    · intro t member slot same
      have dest := congrArg Instr.dest? same
      rw [Instr.dest?_mapDest, dest?_renamed, writes] at dest
      exact mem_liveRow_spillStore.mpr (Or.inl (Option.some.inj dest).symm)

theorem Widens.served (widens : Widens slots low temps all) (le : low ≤ next)
    (below : ∀ i ∈ row, ∀ u ∈ i.temps, u < low) (served : Served temps row) :
    Served all (instrsCode slots next row).1 := by
  induction row generalizing next with
  | nil => trivial
  | cons i rest ih =>
    have step := Nat.le_trans le (next_le_free slots next i)
    rw [instrsCode_cons]
    refine widens.served_instrCode (below i List.mem_cons_self) (fun t old live => ?_) served
      (ih step (fun j inside => below j (List.mem_cons_of_mem i inside)) served.2)
    obtain ⟨lt, absent⟩ := widens.kept t old
    exact (mem_liveRow_instrsCode lt step absent).mpr live

theorem countP_reads_instrCode {i : Instr} (t : Temp) :
    (instrCode slots next i).1.countP (Instr.reads t) =
      if (renamed slots next i).reads t then 1 else 0 := by
  have loads : (loadCode (loadsOf slots next i)).countP (Instr.reads t) = 0 := by
    refine List.countP_eq_zero.mpr fun j member => ?_
    obtain ⟨r, _, rfl⟩ := mem_loadCode.mp member
    simp [Instr.reads, Instr.uses, Instr.operands, distinct]
  rcases instrCode_cases slots next i with ⟨_, code⟩ | ⟨d, slot, x, free, _, _, code, _⟩
  · rw [code, List.countP_append, loads, Nat.zero_add, List.countP_singleton]
  · rw [code, List.countP_append, loads, Nat.zero_add, List.countP_cons, List.countP_singleton,
      Instr.reads_mapDest]
    simp [Instr.reads]

theorem reads_renamed {i : Instr} {t : Temp} (reads : (renamed slots next i).reads t = true) :
    i.reads t = true ∨ ∃ r ∈ loadsOf slots next i, r.fresh = t := by
  obtain ⟨used, plain⟩ := Instr.reads_iff.mp reads
  refine (uses_renamed used).imp_left fun ⟨old, _⟩ => Instr.reads_iff.mpr ⟨old, ?_⟩
  rintro slot x rfl
  exact plain slot _ rfl

/-- A temp that was there before gets no more readers. -/
theorem countP_reads_old {t : Nat} (lt : t < next) :
    (instrsCode slots next row).1.countP (Instr.reads t) ≤ row.countP (Instr.reads t) := by
  induction row generalizing next with
  | nil => exact Nat.le_refl 0
  | cons i rest ih =>
    have later := ih (Nat.lt_of_lt_of_le lt (next_le_free slots next i))
    rw [instrsCode_cons, List.countP_append, countP_reads_instrCode, List.countP_cons, Nat.add_comm]
    refine Nat.add_le_add later ?_
    split
    · rename_i reads
      rcases reads_renamed reads with old | ⟨r, inside, same⟩
      · exact Nat.le_of_eq (if_pos old).symm
      · have above := (fresh_lt inside).1
        rw [same] at above
        exact absurd above (Nat.not_le_of_lt lt)
    · exact Nat.zero_le _

/-- A temp that spill code introduces has one reader at most. -/
theorem countP_reads_fresh {t : Nat} (above : low ≤ t)
    (below : ∀ i ∈ row, ∀ u ∈ i.temps, u < low) :
    (instrsCode slots next row).1.countP (Instr.reads t) ≤ 1 := by
  have unread : ∀ i ∈ row, i.reads t ≠ true := fun i member reads =>
    absurd (below i member t (Instr.mem_temps.mpr (Or.inr (Instr.reads_iff.mp reads).1)))
      (Nat.not_lt_of_le above)
  induction row generalizing next with
  | nil => exact Nat.zero_le 1
  | cons i rest ih =>
    rw [instrsCode_cons, List.countP_append, countP_reads_instrCode]
    have unreadLater : ∀ j ∈ rest, j.reads t ≠ true := fun j inside =>
      unread j (List.mem_cons_of_mem i inside)
    -- Either the code for `i` has introduced `t`, and what follows is too late to read it, or not.
    by_cases lt : t < (instrCode slots next i).2
    · have later : (instrsCode slots (instrCode slots next i).2 rest).1.countP (Instr.reads t) ≤ 0 :=
        Nat.le_trans (countP_reads_old lt) (Nat.le_of_eq (List.countP_eq_zero.mpr unreadLater))
      split <;> omega
    · have later := @ih (instrCode slots next i).2
        (fun j inside => below j (List.mem_cons_of_mem i inside)) unreadLater
      rw [if_neg]
      · omega
      · intro reads
        rcases reads_renamed reads with old | ⟨r, inside, same⟩
        · exact unread i List.mem_cons_self old
        · exact lt (by rw [← same]; exact (fresh_lt inside).2)

/-- Spill code reads no more temps at once. -/
theorem uses_length_instrCode {i j : Instr} {bound : Nat} (positive : 1 ≤ bound)
    (fits : i.uses.length ≤ bound) (member : j ∈ (instrCode slots next i).1) :
    j.uses.length ≤ bound := by
  have core : (renamed slots next i).uses.length ≤ bound := by
    refine Nat.le_trans (Instr.uses_mapUses_length_le _ _) ?_
    rcases redirect_cases slots i with ⟨same, _⟩ | ⟨d, v, slot, rfl, _, moved⟩
    · rw [same]
      exact fits
    · rw [moved]
      exact Nat.zero_le bound
  have loads : j ∈ loadCode (loadsOf slots next i) → j.uses.length ≤ bound := by
    intro load
    obtain ⟨r, _, rfl⟩ := mem_loadCode.mp load
    exact Nat.zero_le bound
  rcases instrCode_cases slots next i with ⟨_, code⟩ | ⟨d, slot, x, free, _, _, code, _⟩
  · rw [code, List.mem_append, List.mem_singleton] at member
    rcases member with load | rfl
    · exact loads load
    · exact core
  · rw [code, List.mem_append] at member
    simp only [List.mem_cons, List.not_mem_nil, or_false] at member
    rcases member with load | rfl | rfl
    · exact loads load
    · rw [Instr.uses_mapDest]
      exact core
    · exact positive

end Spill

end RegisterColoring
