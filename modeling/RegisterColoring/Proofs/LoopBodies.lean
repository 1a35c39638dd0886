import Mathlib.Data.List.Induction
import Mathlib.Data.List.Nodup
import RegisterColoring.Proofs.Reachability

namespace RegisterColoring

theorem IndexMap.ext {β : Type} {m n : IndexMap β} (same : ∀ k, m.get? k = n.get? k) : m = n := by
  have members : ∀ e, e ∈ m.entries ↔ e ∈ n.entries := by
    intro e
    obtain ⟨k, v⟩ := e
    rw [← get?_eq_some, ← get?_eq_some, same k]
  have perm : m.entries.Perm n.entries :=
    (List.perm_ext_iff_of_nodup (List.Nodup.of_map _ m.nodup_keys)
      (List.Nodup.of_map _ n.nodup_keys)).mpr members
  have entries : m.entries = n.entries :=
    perm.eq_of_pairwise (fun e e' _ _ below above => absurd above (Nat.lt_asymm below)) m.ascending
      n.ascending
  cases m
  cases n
  congr

namespace Func

/-- The blocks of all loops that share a header. -/
def loopBody (f : Func) (back : List (BlockId × BlockId)) (header : BlockId) : IndexSet :=
  .unions ((back.filter (·.2 = header)).map fun e => f.naturalLoop header e.1)

/-- The bodies of all loops, one for each header. -/
def loops (f : Func) : List IndexSet :=
  (IndexSet.ofList (f.walk.back.map (·.2))).toList.map (f.loopBody f.walk.back)

theorem mem_loopBody {f : Func} {back : List (BlockId × BlockId)} {header b : BlockId} :
    b ∈ f.loopBody back header ↔ ∃ e ∈ back, e.2 = header ∧ b ∈ f.naturalLoop header e.1 := by
  simp only [loopBody, IndexSet.mem_unions, List.mem_map, List.mem_filter, decide_eq_true_eq]
  constructor
  · rintro ⟨body, ⟨e, ⟨member, same⟩, rfl⟩, inside⟩
    exact ⟨e, member, same, inside⟩
  · rintro ⟨e, member, same, inside⟩
    exact ⟨_, ⟨e, ⟨member, same⟩, rfl⟩, inside⟩

/-- One more edge back adds its natural loop to the body of its header. -/
theorem loopBody_append (f : Func) (back : List (BlockId × BlockId)) (tail header h : BlockId) :
    f.loopBody (back ++ [(tail, header)]) h =
      if h = header then f.loopBody back header ∪ f.naturalLoop header tail
      else f.loopBody back h := by
  ext b
  by_cases same : h = header
  · subst same
    rw [if_pos rfl, IndexSet.mem_union, mem_loopBody, mem_loopBody]
    simp only [List.mem_append, List.mem_singleton, or_and_right, exists_or, exists_eq_left,
      true_and]
  · rw [if_neg same, mem_loopBody, mem_loopBody]
    simp only [List.mem_append, List.mem_singleton, or_and_right, exists_or, exists_eq_left,
      Ne.symm same, false_and, or_false]

/-- The bodies that a walk collects are those of its edges back. -/
theorem collected_eq (f : Func) (back : List (BlockId × BlockId)) :
    collected f.naturalLoop back = .ofKeys (.ofList (back.map (·.2))) (f.loopBody back) := by
  induction back using List.reverseRecOn with
  | nil => rfl
  | append_singleton back e ih =>
    obtain ⟨tail, header⟩ := e
    rw [collected_append, ih]
    refine IndexMap.ext fun h => ?_
    simp only [IndexMap.get?_insert, IndexMap.get?_ofKeys, IndexMap.getD, IndexSet.mem_ofList,
      List.map_append, List.map_singleton, List.mem_append, List.mem_singleton, loopBody_append]
    by_cases same : h = header
    · subst same
      simp only [if_true, or_true]
      by_cases known : h ∈ back.map (·.2)
      · rw [if_pos known, Option.getD_some]
      · have none : f.loopBody back h = ∅ := by
          ext b
          rw [mem_loopBody]
          refine ⟨fun inside => ?_, fun member => absurd member (IndexSet.not_mem_empty b)⟩
          obtain ⟨e, member, ends, _⟩ := inside
          exact absurd (List.mem_map.mpr ⟨e, member, ends⟩) known
        rw [if_neg known, none, Option.getD_none]
    · simp only [same, if_false, or_false]

variable {f : Func}

/-- The loop over the stack collects the loops of the walk. -/
theorem loopBodies_eq (inside : f.EdgesInside) :
    f.loopBodies = .ofKeys (.ofList (f.walk.back.map (·.2))) (f.loopBody f.walk.back) := by
  rw [← collected_eq]
  unfold loopBodies loopBodiesM walk
  split
  · rfl
  · rename_i some
    have positive : 0 < f.blocks.length := List.length_pos_iff.mpr (by simpa using some)
    have room := f.room_succs
    exact (stackLoop_collecting f.succs f.naturalLoop).run_eq (fun x _ => inside x) positive
      (by omega) (by omega)

theorem values_loopBodies (inside : f.EdgesInside) : f.loopBodies.values = f.loops := by
  rw [loopBodies_eq inside, IndexMap.values, IndexMap.ofKeys, List.map_map]
  rfl

/-- The depths with one block in one loop more. -/
def deepen (depths : List Nat) (b : BlockId) : List Nat := Id.run (deepenM depths b)

theorem deepen_map {n : Nat} (depth : Nat → Nat) (x : BlockId) :
    deepen ((List.range n).map depth) x =
      (List.range n).map fun b => if b = x then min (depth b + 1) maxLoopDepth else depth b := by
  refine List.ext_getElem? fun b => ?_
  show (((List.range n).map depth).set x
    (min ((((List.range n).map depth)[x]?).getD 0 + 1) maxLoopDepth))[b]? = _
  rw [List.getElem?_set, List.getElem?_map, List.getElem?_map, List.getElem?_map, List.length_map,
    List.length_range]
  by_cases small : b < n
  · rw [List.getElem?_range small, Option.map_some, Option.map_some]
    by_cases here : x = b
    · rw [if_pos here, here, if_pos small, List.getElem?_range small, if_pos rfl]
      rfl
    · rw [if_neg here, if_neg (Ne.symm here)]
  · have outside : (List.range n)[b]? = none := List.getElem?_eq_none (by simpa using small)
    rw [outside, Option.map_none, Option.map_none]
    split
    · rename_i here
      rw [here, if_neg small]
    · rfl

/-- Deepening the blocks of a list, each of which occurs once. -/
theorem foldl_deepen {n : Nat} (depth : Nat → Nat) {body : List Nat} (nodup : body.Nodup) :
    body.foldl deepen ((List.range n).map depth) = (List.range n).map fun b =>
      if b ∈ body then min (depth b + 1) maxLoopDepth else depth b := by
  induction body generalizing depth with
  | nil => simp
  | cons x rest ih =>
    obtain ⟨once, nodup⟩ := List.nodup_cons.mp nodup
    rw [List.foldl_cons, deepen_map, ih _ nodup]
    refine List.map_congr_left fun b _ => ?_
    by_cases here : b = x
    · simp [here, once]
    · simp [here]

/-- Depths stop at the limit while they are counted, or the minimum is taken at the end. -/
theorem foldl_bodies {n : Nat} (loops : List IndexSet) (depth : Nat → Nat)
    (small : ∀ b, depth b ≤ maxLoopDepth) :
    loops.foldl (fun depths body => body.toList.foldl deepen depths) ((List.range n).map depth) =
      (List.range n).map fun b => min maxLoopDepth (depth b + loops.countP (b ∈ ·)) := by
  induction loops generalizing depth with
  | nil => exact List.map_congr_left fun b _ => (Nat.min_eq_right (small b)).symm
  | cons body rest ih =>
    rw [List.foldl_cons, foldl_deepen depth body.nodup_toList, ih]
    · refine List.map_congr_left fun b _ => ?_
      have least := small b
      rw [List.countP_cons]
      by_cases member : b ∈ body
      · have inList : b ∈ body.toList := member
        simp only [member, inList, if_true, decide_true]
        omega
      · have notInList : b ∉ body.toList := member
        simp only [member, notInList, if_false, decide_false]
        simp
    · intro b
      split
      · exact Nat.min_le_right _ _
      · exact small b

/-- A block is as deep as the number of loops around it, up to the limit. -/
theorem loopDepths_eq_map (inside : f.EdgesInside) : f.loopDepths =
    (List.range f.blocks.length).map fun b => min maxLoopDepth (f.loops.countP (b ∈ ·)) := by
  have zeros : List.replicate f.blocks.length 0 = (List.range f.blocks.length).map fun _ => 0 := by
    simp
  have plain : f.loopDepths = f.loopBodies.values.foldl
      (fun depths body => body.toList.foldl deepen depths) (List.replicate f.blocks.length 0) := by
    refine List.idRun_foldlM.trans ?_
    simp only [List.idRun_foldlM]
    rfl
  rw [plain, values_loopBodies inside, zeros, foldl_bodies _ _ fun b => Nat.zero_le _]
  simp only [Nat.zero_add]

end Func

end RegisterColoring
