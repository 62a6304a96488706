/-! Finite maps from texts in ascending order of the keys. -/

namespace TriggerCompiler

/-- A finite map whose keys stand in ascending order. -/
structure SortedMap (β : Type) where
  entries : List (String × β)
  /-- The keys ascend strictly. -/
  sorted : (entries.map Prod.fst).Pairwise (· < ·)

namespace SortedMap

variable {β : Type}

def empty : SortedMap β := ⟨[], List.Pairwise.nil⟩

instance : Inhabited (SortedMap β) := ⟨empty⟩
instance : EmptyCollection (SortedMap β) := ⟨empty⟩

/-- The keys in ascending order. -/
def keys (m : SortedMap β) : List String := m.entries.map Prod.fst

/-- The values in the order of their keys. -/
def values (m : SortedMap β) : List β := m.entries.map Prod.snd

def size (m : SortedMap β) : Nat := m.entries.length

def get? (m : SortedMap β) (k : String) : Option β := (m.entries.find? (·.1 = k)).map Prod.snd

def contains (m : SortedMap β) (k : String) : Bool := m.entries.any (·.1 = k)

private def insertSorted (k : String) (v : β) : List (String × β) → List (String × β)
  | [] => [(k, v)]
  | (key, value) :: rest =>
      if k < key then (k, v) :: (key, value) :: rest
      else if k = key then (key, v) :: rest
      else (key, value) :: insertSorted k v rest

private theorem mem_insertSorted {k key : String} {v : β} {es : List (String × β)}
    (h : key ∈ (insertSorted k v es).map Prod.fst) : key = k ∨ key ∈ es.map Prod.fst := by
  induction es with
  | nil => simpa [insertSorted] using h
  | cons e es ih =>
      obtain ⟨first, value⟩ := e
      simp only [insertSorted] at h
      split at h
      · simpa using h
      · split at h
        · exact Or.inr h
        · simp only [List.map_cons, List.mem_cons] at h ⊢
          rcases h with h | h
          · exact Or.inr (Or.inl h)
          · exact (ih h).imp_right Or.inr

private theorem pairwise_insertSorted (k : String) (v : β) {es : List (String × β)}
    (h : (es.map Prod.fst).Pairwise (· < ·)) :
    ((insertSorted k v es).map Prod.fst).Pairwise (· < ·) := by
  induction es with
  | nil => simp [insertSorted]
  | cons e es ih =>
      obtain ⟨first, value⟩ := e
      simp only [List.map_cons, List.pairwise_cons] at h
      simp only [insertSorted]
      split
      · rename_i hlt
        simp only [List.map_cons, List.pairwise_cons, List.mem_cons, forall_eq_or_imp]
        exact ⟨⟨hlt, fun a ha => String.lt_trans hlt (h.1 a ha)⟩, h.1, h.2⟩
      · split
        · simp only [List.map_cons, List.pairwise_cons]
          exact h
        · rename_i hlt hne
          have hfirst : first < k := by
            rcases String.le_total first k with hle | hle
            · exact String.not_le.mp fun hge => hne (String.le_antisymm hge hle)
            · exact absurd (String.not_le.mp fun hge => hne (String.le_antisymm hle hge)) hlt
          simp only [List.map_cons, List.pairwise_cons]
          refine ⟨fun a ha => ?_, ih h.2⟩
          rcases mem_insertSorted ha with rfl | ha
          · exact hfirst
          · exact h.1 a ha

private theorem find?_insertSorted (k j : String) (v : β) (es : List (String × β)) :
    ((insertSorted k v es).find? (·.1 = j)).map Prod.snd =
      if k = j then some v else (es.find? (·.1 = j)).map Prod.snd := by
  induction es with
  | nil => by_cases h : k = j <;> simp [insertSorted, h]
  | cons e es ih =>
      obtain ⟨key, value⟩ := e
      simp only [insertSorted]
      split
      · by_cases h : k = j <;> simp [List.find?_cons, h]
      · split
        · next heq =>
            subst heq
            by_cases h : k = j <;> simp [h]
        · next hne =>
            by_cases h : key = j
            · subst h
              simp [hne]
            · simpa [List.find?_cons, h] using ih

def insert (m : SortedMap β) (k : String) (v : β) : SortedMap β :=
  ⟨insertSorted k v m.entries, pairwise_insertSorted k v m.sorted⟩

theorem get?_insert (m : SortedMap β) (k j : String) (v : β) :
    (m.insert k v).get? j = if k = j then some v else m.get? j :=
  find?_insertSorted k j v m.entries

theorem contains_eq_isSome_get? (m : SortedMap β) (k : String) :
    m.contains k = (m.get? k).isSome := by
  rw [contains, get?, Option.isSome_map, List.isSome_find?]

theorem mem_keys_iff {m : SortedMap β} {k : String} : k ∈ m.keys ↔ m.contains k = true := by
  simp [keys, contains]

/-- Stores a value under a key that has none. -/
def insertNew (m : SortedMap β) (k : String) (v : β) : SortedMap β :=
  if m.contains k then m else m.insert k v

/-- The map of a list of entries; for a repeated key the last value counts. -/
def ofList (es : List (String × β)) : SortedMap β := es.foldl (fun m e => m.insert e.1 e.2) empty

end SortedMap

end TriggerCompiler
