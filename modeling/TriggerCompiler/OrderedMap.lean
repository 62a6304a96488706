/-! Finite maps that keep their entries in the order in which the keys first arrived. Writing to a
key that is present changes its value in place; removing a key closes the gap. The keys of a map are
pairwise distinct by construction, so `get?` is the whole meaning of a map and `keys` its order. -/

namespace TriggerCompiler

/-- A finite map whose entries stand in the order of first insertion. -/
structure OrderedMap (α β : Type) where
  /-- The entries, oldest key first. -/
  entries : List (α × β)
  /-- No key occurs twice. -/
  nodup : (entries.map Prod.fst).Nodup

namespace OrderedMap

variable {α β : Type}

instance [DecidableEq α] [DecidableEq β] : DecidableEq (OrderedMap α β) := fun a b =>
  decidable_of_iff (a.entries = b.entries) (by cases a; cases b; simp)

def empty : OrderedMap α β := ⟨[], List.nodup_nil⟩

instance : Inhabited (OrderedMap α β) := ⟨empty⟩
instance : EmptyCollection (OrderedMap α β) := ⟨empty⟩

/-- The keys, oldest first. -/
def keys (m : OrderedMap α β) : List α := m.entries.map Prod.fst

/-- The values, in the order of their keys. -/
def values (m : OrderedMap α β) : List β := m.entries.map Prod.snd

def size (m : OrderedMap α β) : Nat := m.entries.length

def isEmpty (m : OrderedMap α β) : Bool := m.entries.isEmpty

def filter (m : OrderedMap α β) (p : α → β → Bool) : OrderedMap α β where
  entries := m.entries.filter fun e => p e.1 e.2
  nodup := m.nodup.sublist (List.filter_sublist.map _)

def mapValues (m : OrderedMap α β) (f : α → β → β) : OrderedMap α β where
  entries := m.entries.map fun e => (e.1, f e.1 e.2)
  nodup := by simpa [Function.comp_def] using m.nodup

theorem keys_mapValues (m : OrderedMap α β) (f : α → β → β) : (m.mapValues f).keys = m.keys := by
  simp [keys, mapValues]

variable [DecidableEq α]

private def lookupIn (k : α) : List (α × β) → Option β
  | [] => none
  | (key, value) :: rest => if key = k then some value else lookupIn k rest

private def insertIn (k : α) (v : β) : List (α × β) → List (α × β)
  | [] => [(k, v)]
  | (key, value) :: rest => if key = k then (key, v) :: rest else (key, value) :: insertIn k v rest

def get? (m : OrderedMap α β) (k : α) : Option β := lookupIn k m.entries

def contains (m : OrderedMap α β) (k : α) : Bool := (m.get? k).isSome

private theorem map_fst_insertIn (k : α) (v : β) (es : List (α × β)) :
    (insertIn k v es).map Prod.fst =
      if k ∈ es.map Prod.fst then es.map Prod.fst else es.map Prod.fst ++ [k] := by
  induction es with
  | nil => simp [insertIn]
  | cons e es ih =>
      obtain ⟨key, value⟩ := e
      by_cases h : key = k
      · simp [insertIn, h]
      · have hne : k ≠ key := fun heq => h heq.symm
        by_cases hin : k ∈ es.map Prod.fst
        · simp only [insertIn, h, if_false, List.map_cons, ih, hin, if_true, List.mem_cons,
            or_true]
        · simp only [insertIn, h, if_false, List.map_cons, ih, hin, List.mem_cons, hne, or_self,
            List.cons_append]

/-- Stores a value: in place if the key is present, at the end otherwise. -/
def insert (m : OrderedMap α β) (k : α) (v : β) : OrderedMap α β where
  entries := insertIn k v m.entries
  nodup := by
    rw [map_fst_insertIn]
    split
    · exact m.nodup
    · rename_i h
      exact List.nodup_append.mpr ⟨m.nodup, by simp, fun a ha b hb => by
        simp only [List.mem_singleton] at hb
        exact fun heq => h (hb ▸ heq ▸ ha)⟩

def erase (m : OrderedMap α β) (k : α) : OrderedMap α β := m.filter fun key _ => key ≠ k

/-- Applies a function to the value of one key, if the key is present. -/
def modify (m : OrderedMap α β) (k : α) (f : β → β) : OrderedMap α β :=
  m.mapValues fun key value => if key = k then f value else value

/-- The map of a list of entries; for a repeated key the last value counts, at the first place. -/
def ofList (es : List (α × β)) : OrderedMap α β := es.foldl (fun m e => m.insert e.1 e.2) empty

private theorem lookupIn_insertIn (k j : α) (v : β) (es : List (α × β)) :
    lookupIn j (insertIn k v es) = if k = j then some v else lookupIn j es := by
  induction es with
  | nil => simp [insertIn, lookupIn]
  | cons e es ih =>
      obtain ⟨key, value⟩ := e
      by_cases h : key = k
      · subst h
        by_cases hj : key = j <;> simp [insertIn, lookupIn, hj]
      · by_cases hj : key = j
        · subst hj
          have hkj : k ≠ key := fun heq => h heq.symm
          simp [insertIn, lookupIn, h, hkj]
        · simp [insertIn, lookupIn, h, hj, ih]

theorem get?_insert (m : OrderedMap α β) (k j : α) (v : β) :
    (m.insert k v).get? j = if k = j then some v else m.get? j :=
  lookupIn_insertIn k j v m.entries

theorem keys_insert (m : OrderedMap α β) (k : α) (v : β) :
    (m.insert k v).keys = if k ∈ m.keys then m.keys else m.keys ++ [k] :=
  map_fst_insertIn k v m.entries

private theorem lookupIn_eq_some_iff {k : α} {v : β} {es : List (α × β)}
    (hes : (es.map Prod.fst).Nodup) : lookupIn k es = some v ↔ (k, v) ∈ es := by
  induction es with
  | nil => simp [lookupIn]
  | cons e es ih =>
      obtain ⟨key, value⟩ := e
      simp only [List.map_cons, List.nodup_cons] at hes
      by_cases h : key = k
      · subst h
        simp only [lookupIn, if_true, Option.some.injEq, List.mem_cons, Prod.mk.injEq, true_and]
        constructor
        · exact fun heq => Or.inl heq.symm
        · rintro (heq | hin)
          · exact heq.symm
          · exact absurd (List.mem_map_of_mem (f := Prod.fst) hin) hes.1
      · have hne : k ≠ key := fun heq => h heq.symm
        simp [lookupIn, h, hne, ih hes.2]

theorem get?_eq_some_iff {m : OrderedMap α β} {k : α} {v : β} :
    m.get? k = some v ↔ (k, v) ∈ m.entries :=
  lookupIn_eq_some_iff m.nodup

theorem get?_empty (k : α) : (empty : OrderedMap α β).get? k = none := rfl

theorem get?_filter (m : OrderedMap α β) (p : α → β → Bool) (k : α) :
    (m.filter p).get? k = (m.get? k).filter (p k) := by
  apply Option.ext
  intro v
  rw [get?_eq_some_iff, Option.filter_eq_some_iff, get?_eq_some_iff]
  simp [filter]

theorem get?_erase (m : OrderedMap α β) (k j : α) :
    (m.erase k).get? j = if k = j then none else m.get? j := by
  rw [erase, get?_filter]
  by_cases h : k = j
  · subst h
    simp
  · have hne : j ≠ k := fun heq => h heq.symm
    cases m.get? j <;> simp [h, hne]

theorem get?_mapValues (m : OrderedMap α β) (f : α → β → β) (k : α) :
    (m.mapValues f).get? k = (m.get? k).map (f k) := by
  apply Option.ext
  intro v
  rw [get?_eq_some_iff, Option.map_eq_some_iff]
  simp only [mapValues, List.mem_map, Prod.mk.injEq, Prod.exists, get?_eq_some_iff]
  constructor
  · rintro ⟨a, b, hin, rfl, rfl⟩
    exact ⟨b, hin, rfl⟩
  · rintro ⟨b, hin, rfl⟩
    exact ⟨k, b, hin, rfl, rfl⟩

theorem get?_modify (m : OrderedMap α β) (k j : α) (f : β → β) :
    (m.modify k f).get? j = if j = k then (m.get? j).map f else m.get? j := by
  rw [modify, get?_mapValues]
  by_cases h : j = k <;> simp [h]

theorem keys_modify (m : OrderedMap α β) (k : α) (f : β → β) : (m.modify k f).keys = m.keys :=
  keys_mapValues m _

end OrderedMap

end TriggerCompiler
