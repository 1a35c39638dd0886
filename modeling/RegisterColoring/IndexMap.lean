import RegisterColoring.IndexSet

namespace RegisterColoring

variable {β : Type}

/-- Put an entry into a list with ascending keys; the entry of the same key is replaced. -/
def insertEntry (k : Nat) (v : β) : List (Nat × β) → List (Nat × β)
  | [] => [(k, v)]
  | (k', v') :: rest =>
    if k < k' then (k, v) :: (k', v') :: rest
    else if k = k' then (k, v) :: rest
    else (k', v') :: insertEntry k v rest

theorem mem_insertEntry {k : Nat} {v : β} {e : Nat × β} {l : List (Nat × β)}
    (member : e ∈ insertEntry k v l) : e = (k, v) ∨ e ∈ l := by
  induction l with
  | nil => simpa [insertEntry] using member
  | cons head rest ih =>
    unfold insertEntry at member
    split at member
    · simpa using member
    · split at member
      · rcases List.mem_cons.mp member with equal | found
        · exact Or.inl equal
        · exact Or.inr (by simp [found])
      · rcases List.mem_cons.mp member with equal | found
        · exact Or.inr (by simp [equal])
        · rcases ih found with equal | found
          · exact Or.inl equal
          · exact Or.inr (by simp [found])

theorem insertEntry_pairwise {k : Nat} {v : β} {l : List (Nat × β)}
    (ascending : l.Pairwise (·.1 < ·.1)) : (insertEntry k v l).Pairwise (·.1 < ·.1) := by
  induction l with
  | nil => simp [insertEntry]
  | cons head rest ih =>
    obtain ⟨above, tail⟩ := List.pairwise_cons.mp ascending
    unfold insertEntry
    split
    · rename_i below
      refine List.pairwise_cons.mpr ⟨fun e member => ?_, ascending⟩
      rcases List.mem_cons.mp member with equal | member
      · simpa [equal] using below
      · exact Nat.lt_trans below (above e member)
    · split
      · rename_i equal
        refine List.pairwise_cons.mpr ⟨fun e member => ?_, tail⟩
        have := above e member
        simp only at this ⊢
        omega
      · refine List.pairwise_cons.mpr ⟨fun e member => ?_, ih tail⟩
        rcases mem_insertEntry member with equal | member
        · simp only [equal]
          omega
        · exact above e member

/-- The value of the first entry with key `k`. -/
def lookupEntry (k : Nat) : List (Nat × β) → Option β
  | [] => none
  | (k', v) :: rest => if k = k' then some v else lookupEntry k rest

theorem lookupEntry_insertEntry {k x : Nat} {v : β} {l : List (Nat × β)} :
    lookupEntry x (insertEntry k v l) = if x = k then some v else lookupEntry x l := by
  induction l with
  | nil => rfl
  | cons head rest ih =>
    obtain ⟨k', v'⟩ := head
    unfold insertEntry
    split
    · rfl
    · split
      · rename_i equal
        subst equal
        by_cases h : x = k <;> simp [lookupEntry, h]
      · rename_i differs
        simp only [lookupEntry, ih]
        by_cases h : x = k
        · subst h
          simp [differs]
        · simp [h]

/-- A finite map from indices, as its entries in ascending order of keys. -/
structure IndexMap (β : Type) where
  entries : List (Nat × β)
  ascending : entries.Pairwise (·.1 < ·.1)

namespace IndexMap

instance [DecidableEq β] : DecidableEq (IndexMap β) := fun m n =>
  if same : m.entries = n.entries then
    isTrue (by cases m; cases n; cases same; rfl)
  else isFalse fun equal => same (by rw [equal])

instance : EmptyCollection (IndexMap β) := ⟨⟨[], .nil⟩⟩

instance : Inhabited (IndexMap β) := ⟨∅⟩

def get? (m : IndexMap β) (k : Nat) : Option β := lookupEntry k m.entries

@[simp] theorem get?_empty (k : Nat) : (∅ : IndexMap β).get? k = none := rfl

def getD (m : IndexMap β) (k : Nat) (default : β) : β := (m.get? k).getD default

def contains (m : IndexMap β) (k : Nat) : Bool := (m.get? k).isSome

def size (m : IndexMap β) : Nat := m.entries.length

def isEmpty (m : IndexMap β) : Bool := m.entries.isEmpty

/-- The map with `k` sent to `v`, whatever it was sent to before. -/
def insert (m : IndexMap β) (k : Nat) (v : β) : IndexMap β :=
  ⟨insertEntry k v m.entries, insertEntry_pairwise m.ascending⟩

@[simp] theorem get?_insert {m : IndexMap β} {k x : Nat} {v : β} :
    (m.insert k v).get? x = if x = k then some v else m.get? x := lookupEntry_insertEntry

/-- The map with the entries of a list inserted one after another: the last one of a key stays. -/
def insertAll (m : IndexMap β) (l : List (Nat × β)) : IndexMap β :=
  l.foldl (fun acc e => acc.insert e.1 e.2) m

def ofList (l : List (Nat × β)) : IndexMap β := (∅ : IndexMap β).insertAll l

/-- The keys of the map. -/
def keys (m : IndexMap β) : IndexSet :=
  ⟨m.entries.map (·.1), List.pairwise_map.mpr m.ascending⟩

theorem mem_keys {m : IndexMap β} {k : Nat} : k ∈ m.keys ↔ m.contains k = true := by
  unfold contains get?
  change k ∈ m.entries.map (·.1) ↔ _
  induction m.entries with
  | nil => simp [lookupEntry]
  | cons head rest ih =>
    by_cases h : k = head.1
    · simp [lookupEntry, h]
    · simpa [lookupEntry, h] using ih

def values (m : IndexMap β) : List β := m.entries.map (·.2)

/-- The map that sends each member of a set to its value under `f`. -/
def ofKeys (s : IndexSet) (f : Nat → β) : IndexMap β :=
  ⟨s.toList.map fun k => (k, f k), List.pairwise_map.mpr s.ascending⟩

end IndexMap

end RegisterColoring
