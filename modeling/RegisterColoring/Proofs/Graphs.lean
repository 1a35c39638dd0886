import Mathlib.Data.List.Nodup
import RegisterColoring.Graph
import RegisterColoring.Proofs.Basics

namespace RegisterColoring.Graph

variable {α : Type}

/-- The node with number `j` is stored as a neighbor of the one with number `i`. -/
def Joined (g : Graph α) (i j : Nat) : Prop := j ∈ (g.neighborIds? i).getD ∅

/-- The representation invariant of graphs. -/
structure Valid (g : Graph α) : Prop where
  nodup : g.nodes.Nodup
  indexed : ∀ x i, (x, i) ∈ g.index ↔ g.nodes[i]? = some x
  length : g.adjacent.length = g.nodes.length
  inside : ∀ i j, g.Joined i j → j < g.nodes.length
  apart : ∀ i, ¬ g.Joined i i
  symm : ∀ i j, g.Joined i j → g.Joined j i

theorem valid_empty : (empty : Graph α).Valid where
  nodup := .nil
  indexed x i := by simp [empty]
  length := rfl
  inside i j joined := by simp [Joined, neighborIds?, empty] at joined
  apart i joined := by simp [Joined, neighborIds?, empty] at joined
  symm i j joined := by simp [Joined, neighborIds?, empty] at joined

/-- A node has one number. -/
theorem Valid.number_eq {g : Graph α} (valid : g.Valid) {i j : Nat} {x : α}
    (first : g.nodes[i]? = some x) (second : g.nodes[j]? = some x) : i = j :=
  (List.getElem?_inj (List.getElem?_eq_some_iff.mp first).1 valid.nodup).mp
    (first.trans second.symm)

theorem joined_connect {g : Graph α} {i j : Nat} (iBound : i < g.adjacent.length)
    (jBound : j < g.adjacent.length) (k l : Nat) :
    (g.connect i j).Joined k l ↔ g.Joined k l ∨ k = i ∧ l = j ∨ k = j ∧ l = i := by
  unfold Joined neighborIds?
  simp only [connect_def, List.getElem?_modify]
  grind [IndexSet.mem_insert]

theorem valid_connect {g : Graph α} (valid : g.Valid) {i j : Nat} (iBound : i < g.nodes.length)
    (jBound : j < g.nodes.length) (apart : i ≠ j) : (g.connect i j).Valid := by
  have joined := joined_connect (g := g) (i := i) (j := j) (by rw [valid.length]; exact iBound)
    (by rw [valid.length]; exact jBound)
  refine ⟨valid.nodup, valid.indexed, ?_, fun k l edge => ?_, fun k edge => ?_, fun k l edge => ?_⟩
  · simp [connect_def, valid.length]
  · rcases (joined k l).mp edge with old | ⟨_, rfl⟩ | ⟨_, rfl⟩
    · exact valid.inside k l old
    · exact jBound
    · exact iBound
  · rcases (joined k k).mp edge with old | ⟨rfl, same⟩ | ⟨rfl, same⟩
    · exact valid.apart k old
    · exact apart same
    · exact apart same.symm
  · refine (joined l k).mpr ?_
    rcases (joined k l).mp edge with old | ⟨rfl, rfl⟩ | ⟨rfl, rfl⟩
    · exact Or.inl (valid.symm k l old)
    · exact Or.inr (Or.inr ⟨rfl, rfl⟩)
    · exact Or.inr (Or.inl ⟨rfl, rfl⟩)

variable [DecidableEq α]

theorem id?_eq_some {g : Graph α} (valid : g.Valid) {x : α} {i : Nat} :
    g.id? x = some i ↔ g.nodes[i]? = some x := by
  have stored : ∀ {j : Nat}, g.id? x = some j → g.nodes[j]? = some x := by
    intro j found
    obtain ⟨before, after, split, _⟩ := List.lookup_eq_some_iff.mp found
    exact (valid.indexed x j).mp (by rw [split]; simp)
  refine ⟨stored, fun place => ?_⟩
  cases found : g.id? x with
  | none =>
    have other := List.lookup_eq_none_iff.mp found _ ((valid.indexed x i).mpr place)
    simp at other
  | some j => rw [valid.number_eq (stored found) place]

theorem exists_number {g : Graph α} (valid : g.Valid) {x : α} (member : x ∈ g.nodes) :
    ∃ i, g.id? x = some i ∧ g.nodes[i]? = some x := by
  obtain ⟨i, place⟩ := List.mem_iff_getElem?.mp member
  exact ⟨i, (id?_eq_some valid).mpr place, place⟩

theorem contains_iff {g : Graph α} (valid : g.Valid) {x : α} :
    g.contains x = true ↔ x ∈ g.nodes := by
  rw [contains, Option.isSome_iff_exists, List.mem_iff_getElem?]
  simp only [id?_eq_some valid]

theorem hasEdge_iff {g : Graph α} (valid : g.Valid) {x y : α} :
    g.hasEdge x y = true ↔
      ∃ i j : Nat, g.nodes[i]? = some x ∧ g.nodes[j]? = some y ∧ g.Joined i j := by
  unfold hasEdge
  constructor
  · intro edge
    split at edge
    · rename_i i j first second
      exact ⟨i, j, (id?_eq_some valid).mp first, (id?_eq_some valid).mp second,
        by simpa [Joined] using edge⟩
    · exact nomatch edge
  · rintro ⟨i, j, first, second, joined⟩
    simp only [(id?_eq_some valid).mpr first, (id?_eq_some valid).mpr second]
    simpa [Joined] using joined

theorem hasEdge_symm {g : Graph α} (valid : g.Valid) {x y : α} (edge : g.hasEdge x y = true) :
    g.hasEdge y x = true := by
  obtain ⟨i, j, first, second, joined⟩ := (hasEdge_iff valid).mp edge
  exact (hasEdge_iff valid).mpr ⟨j, i, second, first, valid.symm i j joined⟩

theorem not_hasEdge_self {g : Graph α} (valid : g.Valid) (x : α) : g.hasEdge x x = false := by
  refine Bool.eq_false_iff.mpr fun edge => ?_
  obtain ⟨i, j, first, second, joined⟩ := (hasEdge_iff valid).mp edge
  cases valid.number_eq first second
  exact valid.apart i joined

theorem mem_nodes_of_hasEdge {g : Graph α} (valid : g.Valid) {x y : α}
    (edge : g.hasEdge x y = true) : x ∈ g.nodes ∧ y ∈ g.nodes := by
  obtain ⟨i, j, first, second, _⟩ := (hasEdge_iff valid).mp edge
  exact ⟨List.mem_of_getElem? first, List.mem_of_getElem? second⟩

/-- `h` is a valid graph with the nodes and edges of `g`, the nodes `N` and the edges `E`. -/
structure Extends (g h : Graph α) (N : α → Prop) (E : α → α → Prop) : Prop where
  valid : h.Valid
  nodes : ∀ x, x ∈ h.nodes ↔ x ∈ g.nodes ∨ N x
  edges : ∀ x y, h.hasEdge x y = true ↔ g.hasEdge x y = true ∨ x ≠ y ∧ (E x y ∨ E y x)

theorem Extends.refl {g : Graph α} (valid : g.Valid) :
    Extends g g (fun _ => False) fun _ _ => False where
  valid := valid
  nodes x := by simp
  edges x y := by simp

theorem Extends.trans {g h k : Graph α} {N M : α → Prop} {E F : α → α → Prop}
    (first : Extends g h N E) (second : Extends h k M F) :
    Extends g k (fun x => N x ∨ M x) fun x y => E x y ∨ F x y where
  valid := second.valid
  nodes x := by rw [second.nodes, first.nodes, or_assoc]
  edges x y := by
    rw [second.edges, first.edges, or_assoc, ← and_or_left]
    refine or_congr_right (and_congr_right fun _ => ?_)
    constructor
    · rintro ((e | e) | f | f)
      · exact Or.inl (Or.inl e)
      · exact Or.inr (Or.inl e)
      · exact Or.inl (Or.inr f)
      · exact Or.inr (Or.inr f)
    · rintro ((e | f) | e | f)
      · exact Or.inl (Or.inl e)
      · exact Or.inr (Or.inl f)
      · exact Or.inl (Or.inr e)
      · exact Or.inr (Or.inr f)

theorem Extends.congr {g h : Graph α} {N M : α → Prop} {E F : α → α → Prop}
    (step : Extends g h N E) (nodes : ∀ x, N x ↔ M x) (edges : ∀ x y, E x y ↔ F x y) :
    Extends g h M F where
  valid := step.valid
  nodes x := by rw [step.nodes, nodes]
  edges x y := by rw [step.edges, edges, edges]

/-- A loop adds what its rounds add. -/
theorem Extends.foldl {β : Type} (op : Graph α → β → Graph α) {N : β → α → Prop}
    {E : β → α → α → Prop} (round : ∀ g, g.Valid → ∀ e, Extends g (op g e) (N e) (E e))
    {g : Graph α} (valid : g.Valid) (l : List β) :
    Extends g (l.foldl op g) (fun x => ∃ e ∈ l, N e x) fun x y => ∃ e ∈ l, E e x y := by
  induction l generalizing g with
  | nil => exact (Extends.refl valid).congr (by simp) (by simp)
  | cons e rest ih =>
    have first := round g valid e
    exact (first.trans (ih first.valid)).congr (by simp) (by simp)

theorem joined_addNode (g : Graph α) (x : α) (i j : Nat) :
    (g.addNode x).Joined i j ↔ g.Joined i j := by
  unfold Joined neighborIds? addNode
  split
  · exact Iff.rfl
  · rw [List.getElem?_append]
    split
    · exact Iff.rfl
    · rename_i outside
      rw [List.getElem?_eq_none (Nat.not_lt.mp outside), Option.getD_none]
      cases i - g.adjacent.length <;> simp

theorem nodes_addNode (g : Graph α) (x : α) :
    (g.addNode x).nodes = if g.contains x then g.nodes else g.nodes ++ [x] := by
  unfold addNode
  split <;> rfl

theorem mem_addNode {g : Graph α} (valid : g.Valid) (x y : α) :
    y ∈ (g.addNode x).nodes ↔ y ∈ g.nodes ∨ y = x := by
  rw [nodes_addNode]
  split
  · rename_i known
    have member := (contains_iff valid).mp known
    exact ⟨Or.inl, fun either => either.elim id fun same => by rw [same]; exact member⟩
  · simp

/-- A node keeps its number. -/
theorem addNode_getElem? {g : Graph α} {i : Nat} (x : α) {y : α} (place : g.nodes[i]? = some y) :
    (g.addNode x).nodes[i]? = some y := by
  rw [nodes_addNode]
  split
  · exact place
  · rw [List.getElem?_append_left (List.getElem?_eq_some_iff.mp place).1]
    exact place

theorem valid_addNode {g : Graph α} (valid : g.Valid) (x : α) : (g.addNode x).Valid where
  nodup := by
    rw [nodes_addNode]
    split
    · exact valid.nodup
    · rename_i absent
      refine List.nodup_append.mpr ⟨valid.nodup, by simp, fun y member z last => ?_⟩
      rw [List.mem_singleton.mp last]
      exact fun same => absent ((contains_iff valid).mpr (same ▸ member))
  indexed y i := by
    unfold addNode
    split
    · exact valid.indexed y i
    · rw [List.mem_cons, valid.indexed y i, List.getElem?_append, Prod.mk.injEq]
      split
      · rename_i inside
        exact or_iff_right fun same => Nat.ne_of_lt inside same.2
      · rename_i outside
        rw [List.getElem?_eq_none (Nat.not_lt.mp outside), List.getElem?_singleton]
        grind
  length := by
    unfold addNode
    split
    · exact valid.length
    · simp [valid.length]
  inside i j joined := by
    have bound := valid.inside i j ((joined_addNode g x i j).mp joined)
    refine Nat.lt_of_lt_of_le bound ?_
    rw [nodes_addNode]
    split <;> simp
  apart i joined := valid.apart i ((joined_addNode g x i i).mp joined)
  symm i j joined := (joined_addNode g x j i).mpr (valid.symm i j ((joined_addNode g x i j).mp joined))

theorem addNode_extends {g : Graph α} (valid : g.Valid) (x : α) :
    Extends g (g.addNode x) (fun y => y = x) fun _ _ => False where
  valid := valid_addNode valid x
  nodes y := mem_addNode valid x y
  edges y z := by
    rw [hasEdge_iff (valid_addNode valid x), hasEdge_iff valid]
    simp only [or_self, and_false, or_false, joined_addNode]
    constructor
    · rintro ⟨i, j, first, second, joined⟩
      have jBound := valid.inside i j joined
      have iBound := valid.inside j i (valid.symm i j joined)
      have old : ∀ {k : Nat} {u : α}, k < g.nodes.length → (g.addNode x).nodes[k]? = some u →
          g.nodes[k]? = some u := by
        intro k u bound place
        have stays := addNode_getElem? x (List.getElem?_eq_getElem bound)
        rw [List.getElem?_eq_getElem bound, ← stays]
        exact place
      exact ⟨i, j, old iBound first, old jBound second, joined⟩
    · rintro ⟨i, j, first, second, joined⟩
      exact ⟨i, j, addNode_getElem? x first, addNode_getElem? x second, joined⟩

theorem connect_extends {g : Graph α} (valid : g.Valid) {i j : Nat} {x y : α}
    (atX : g.nodes[i]? = some x) (atY : g.nodes[j]? = some y) (apart : i ≠ j) :
    Extends g (g.connect i j) (fun _ => False) fun u v => u = x ∧ v = y := by
  have iBound := (List.getElem?_eq_some_iff.mp atX).1
  have jBound := (List.getElem?_eq_some_iff.mp atY).1
  have after := valid_connect valid iBound jBound apart
  have joined := joined_connect (g := g) (i := i) (j := j) (by rw [valid.length]; exact iBound)
    (by rw [valid.length]; exact jBound)
  have different : x ≠ y := by
    rintro rfl
    exact apart (valid.number_eq atX atY)
  refine ⟨after, fun z => by simp [connect_def], fun u v => ?_⟩
  rw [hasEdge_iff after, hasEdge_iff valid]
  constructor
  · rintro ⟨k, l, first, second, edge⟩
    rcases (joined k l).mp edge with before | ⟨rfl, rfl⟩ | ⟨rfl, rfl⟩
    · exact Or.inl ⟨k, l, first, second, before⟩
    · cases Option.some.inj (first.symm.trans atX)
      cases Option.some.inj (second.symm.trans atY)
      exact Or.inr ⟨different, Or.inl ⟨rfl, rfl⟩⟩
    · cases Option.some.inj (first.symm.trans atY)
      cases Option.some.inj (second.symm.trans atX)
      exact Or.inr ⟨different.symm, Or.inr ⟨rfl, rfl⟩⟩
  · rintro (⟨k, l, first, second, before⟩ | ⟨_, ⟨rfl, rfl⟩ | ⟨rfl, rfl⟩⟩)
    · exact ⟨k, l, first, second, (joined k l).mpr (Or.inl before)⟩
    · exact ⟨i, j, atX, atY, (joined i j).mpr (Or.inr (Or.inl ⟨rfl, rfl⟩))⟩
    · exact ⟨j, i, atY, atX, (joined j i).mpr (Or.inr (Or.inr ⟨rfl, rfl⟩))⟩

theorem addEdge_extends {g : Graph α} (valid : g.Valid) (x y : α) :
    Extends g (g.addEdge x y) (fun z => z = x ∨ z = y) fun u v => u = x ∧ v = y := by
  have both := (addNode_extends valid x).trans (addNode_extends (valid_addNode valid x) y)
  obtain ⟨i, xId, atX⟩ := exists_number both.valid ((both.nodes x).mpr (Or.inr (Or.inl rfl)))
  obtain ⟨j, yId, atY⟩ := exists_number both.valid ((both.nodes y).mpr (Or.inr (Or.inr rfl)))
  rw [addEdge_def xId yId]
  split
  · rename_i same
    subst same
    cases Option.some.inj (atX.symm.trans atY)
    refine ⟨both.valid, both.nodes, fun u v => ?_⟩
    rw [both.edges]
    refine or_congr_right (and_congr_right fun different => ?_)
    simp only [or_self, false_iff]
    rintro (⟨rfl, rfl⟩ | ⟨rfl, rfl⟩)
    · exact different rfl
    · exact different rfl
  · rename_i apart
    exact (both.trans (connect_extends both.valid atX atY apart)).congr (by simp) (by simp)

/-- The neighbors of a node, each once. -/
theorem neighbors?_eq {g : Graph α} (valid : g.Valid) {x : α} {i : Nat} (found : g.id? x = some i) :
    ∃ l, g.neighbors? x = some l ∧ l = ((g.neighborIds? i).getD ∅).toList.filterMap g.node? ∧
      l.Nodup ∧ g.degree? i = some l.length ∧ ∀ y, y ∈ l ↔ g.hasEdge x y = true := by
  have atX := (id?_eq_some valid).mp found
  have bound := (List.getElem?_eq_some_iff.mp atX).1
  obtain ⟨ids, stored⟩ : ∃ ids, g.neighborIds? i = some ids :=
    ⟨_, List.getElem?_eq_getElem (by rw [valid.length]; exact bound)⟩
  have joined : ∀ j, g.Joined i j ↔ j ∈ ids := by
    intro j
    unfold Joined
    rw [stored, Option.getD_some]
  refine ⟨_, by rw [neighbors?, found, Option.map_some, neighborsAt_def], rfl, ?_, ?_, fun y => ?_⟩
  · rw [stored]
    refine List.Nodup.filterMap (fun j k y first second => ?_) ids.nodup_toList
    exact valid.number_eq first second
  · rw [degree?, stored, Option.map_some, Option.getD_some, List.length_filterMap_eq_countP]
    refine congrArg some (List.countP_eq_length.mpr fun j member => ?_).symm
    have inside := valid.inside i j ((joined j).mpr member)
    simp [node?, List.getElem?_eq_getElem inside]
  · rw [hasEdge_iff valid, stored, Option.getD_some, List.mem_filterMap]
    constructor
    · rintro ⟨j, member, place⟩
      exact ⟨i, j, atX, place, (joined j).mpr member⟩
    · rintro ⟨k, j, atK, place, edge⟩
      cases valid.number_eq atX atK
      exact ⟨j, (joined j).mp edge, place⟩

end RegisterColoring.Graph
