import Mathlib.Data.List.Basic
import Mathlib.Data.List.Nodup
import TriggerCompiler.Failure
import TriggerCompiler.Guid
import TriggerCompiler.OrderedMap
import TriggerCompiler.SortedMap

/-! Runs of computations that may fail, and lookups in maps that are built step by step. -/

namespace TriggerCompiler

/-- What every step of a fold keeps, the whole fold keeps. -/
theorem foldl_keeps {α σ γ : Type} {f : σ → α → σ} {g : σ → γ} (h : ∀ s a, g (f s a) = g s)
    (l : List α) (s : σ) : g (l.foldl f s) = g s := by
  induction l generalizing s with
  | nil => rfl
  | cons a l ih => exact (ih (f s a)).trans (h s a)

namespace Attempt

variable {σ α β : Type}

theorem run_bind (x : Attempt σ α) (f : α → Attempt σ β) (s : σ) :
    (x >>= f).run s = match x.run s with
      | (.ok a, s') => (f a).run s'
      | (.error failure, s') => (.error failure, s') := by
  show (ExceptT.bindCont f (x.run s).1 : StateM σ (Except Failure β)) (x.run s).2 = _
  rcases x.run s with ⟨result, s'⟩
  cases result with
  | error failure => rfl
  | ok a => rfl

theorem run_lift (x : StateM σ α) (s : σ) :
    (liftM x : Attempt σ α).run s = (.ok (x s).1, (x s).2) := rfl

theorem run_get_bind (f : σ → Attempt σ β) (s : σ) :
    (get >>= f : Attempt σ β).run s = (f s).run s := rfl

theorem run_set_bind (s' : σ) (f : PUnit → Attempt σ β) (s : σ) :
    (set s' >>= f : Attempt σ β).run s = (f ⟨⟩).run s' := rfl

theorem run_eq_of_fst {x : Attempt σ α} {s : σ} {result : Except Failure α} (h : (x.run s).1 = result) :
    x.run s = (result, (x.run s).2) := Prod.ext h rfl

/-- What holds of the state behind the first part, and is kept by the second, holds at the end. -/
theorem state_bind {P : σ → Prop} {x : Attempt σ α} {f : α → Attempt σ β} {s : σ}
    (hx : P (x.run s).2) (hf : ∀ a s', x.run s = (.ok a, s') → P s' → P ((f a).run s').2) :
    P ((x >>= f).run s).2 := by
  rw [run_bind]
  rcases h : x.run s with ⟨result, s'⟩
  rw [h] at hx
  cases result with
  | error failure => exact hx
  | ok a => exact hf a s' h hx

end Attempt

namespace OrderedMap

variable {α β : Type} [DecidableEq α] {m : OrderedMap α β} {v : β}

theorem contains_eq_true {k : α} :
    m.contains k = true ↔ ∃ v, m.get? k = some v := Option.isSome_iff_exists

theorem contains_insert {k j : α} : (m.insert k v).contains j = true ↔ j = k ∨ m.contains j = true := by
  rw [contains, contains, get?_insert]
  by_cases h : k = j
  · simp [h]
  · have hne : j ≠ k := fun heq => h heq.symm
    simp [h, hne]

/-- The entries after a value has been stored are those before, in part, and the new one. -/
theorem mem_entries_insert {k : α} {e : α × β}
    (h : e ∈ (m.insert k v).entries) : e = (k, v) ∨ e ∈ m.entries := by
  obtain ⟨j, w⟩ := e
  rw [← get?_eq_some_iff, get?_insert] at h
  split at h
  · rename_i hkey
    cases h
    exact Or.inl (by rw [hkey])
  · exact Or.inr (get?_eq_some_iff.mp h)

theorem mem_values_insert {k : α} {w : β} (h : w ∈ (m.insert k v).values) : w = v ∨ w ∈ m.values := by
  obtain ⟨e, he, rfl⟩ := List.mem_map.mp h
  rcases mem_entries_insert he with rfl | he
  · exact Or.inl rfl
  · exact Or.inr (List.mem_map_of_mem he)

theorem mem_values_of_get? {k : α} (h : m.get? k = some v) : v ∈ m.values :=
  List.mem_map_of_mem (f := Prod.snd) (get?_eq_some_iff.mp h)

/-- The entries are determined by the keys in their order and by the lookups. -/
theorem entries_eq (m : OrderedMap α β) :
    m.entries = m.keys.filterMap fun k => (m.get? k).map (Prod.mk k) := by
  rw [keys, List.filterMap_map]
  conv_lhs => rw [← List.filterMap_some (l := m.entries)]
  refine List.filterMap_congr fun e he => ?_
  rw [Function.comp_apply, get?_eq_some_iff.mpr he]
  rfl

/-- Maps with the same keys in the same order and the same lookups are equal. -/
theorem eq_of_get? {m' : OrderedMap α β} (hkeys : m.keys = m'.keys)
    (hget : ∀ k, m.get? k = m'.get? k) : m = m' := by
  have hentries : m.entries = m'.entries := by
    rw [entries_eq, entries_eq, hkeys]
    simp only [hget]
  cases m
  cases m'
  cases hentries
  rfl

/-- A value is stored in the place of the old one, or at the end. -/
theorem entries_insert (m : OrderedMap α β) (k : α) (v : β) :
    (∃ before old after, m.entries = before ++ (k, old) :: after ∧ m.get? k = some old ∧
      (m.insert k v).entries = before ++ (k, v) :: after) ∨
      m.get? k = none ∧ (m.insert k v).entries = m.entries ++ [(k, v)] := by
  cases hget : m.get? k with
  | some old =>
    obtain ⟨before, after, hsplit⟩ := List.append_of_mem (get?_eq_some_iff.mp hget)
    refine Or.inl ⟨before, old, after, hsplit, rfl, ?_⟩
    have hkeys : (before ++ (k, v) :: after).map Prod.fst = m.keys := by
      rw [keys, hsplit]
      simp
    let replaced : OrderedMap α β := ⟨before ++ (k, v) :: after, hkeys ▸ m.nodup⟩
    have hnodup := m.nodup
    rw [hsplit] at hnodup
    have hmem : k ∈ m.keys := hkeys ▸ by simp
    have hsame : ∀ j, replaced.get? j = (m.insert k v).get? j := by
      intro j
      apply Option.ext
      intro w
      rw [get?_insert]
      by_cases hj : k = j
      · subst hj
        rw [if_pos rfl]
        have hself : replaced.get? k = some v := get?_eq_some_iff.mpr (by simp [replaced])
        rw [hself]
      · rw [if_neg hj, get?_eq_some_iff, get?_eq_some_iff, hsplit]
        have hne : j ≠ k := fun heq => hj heq.symm
        simp [replaced, hne]
    rw [entries_eq (m.insert k v), keys_insert, if_pos hmem, ← hkeys]
    have hentries := entries_eq replaced
    simp only [hsame] at hentries
    exact hentries.symm
  | none =>
    have hmem : k ∉ m.keys := fun hk => by
      obtain ⟨e, he, rfl⟩ := List.mem_map.mp hk
      rw [get?_eq_some_iff.mpr he] at hget
      cases hget
    refine Or.inr ⟨rfl, ?_⟩
    rw [entries_eq (m.insert k v), keys_insert, if_neg hmem, List.filterMap_append, entries_eq m]
    congr 1
    · refine List.filterMap_congr fun j hj => ?_
      have hne : k ≠ j := fun heq => hmem (heq ▸ hj)
      rw [get?_insert, if_neg hne]
    · simp [get?_insert]

end OrderedMap

namespace SortedMap

variable {β : Type} {es : List (String × β)} {k : String}

theorem contains_insert (m : SortedMap β) (k j : String) (v : β) :
    (m.insert k v).contains j = true ↔ j = k ∨ m.contains j = true := by
  rw [contains_eq_isSome_get?, contains_eq_isSome_get?, get?_insert]
  by_cases h : k = j
  · simp [h]
  · have hne : j ≠ k := fun heq => h heq.symm
    simp [h, hne]

theorem contains_insertNew (m : SortedMap β) (k j : String) (v : β) :
    (m.insertNew k v).contains j = true ↔ j = k ∨ m.contains j = true := by
  unfold insertNew
  split
  · rename_i h
    constructor
    · exact Or.inr
    · rintro (rfl | hj)
      · exact h
      · exact hj
  · exact m.contains_insert k j v

theorem nodup_keys (m : SortedMap β) : m.keys.Nodup := m.sorted.imp String.ne_of_lt

theorem get?_eq_some_iff {m : SortedMap β} : m.get? k = some v ↔ (k, v) ∈ m.entries := by
  have hkeys : (m.entries.map Prod.fst).Nodup := m.nodup_keys
  rw [get?, Option.map_eq_some_iff]
  constructor
  · rintro ⟨e, he, rfl⟩
    have hkey : e.1 = k := by simpa using List.find?_some he
    rw [← hkey]
    exact List.mem_of_find?_eq_some he
  · intro h
    cases hfind : m.entries.find? (·.1 = k) with
    | none =>
      have hne := List.find?_eq_none.mp hfind (k, v) h
      simp at hne
    | some e =>
      have hkey : e.1 = k := by simpa using List.find?_some hfind
      have heq : e = (k, v) :=
        List.inj_on_of_nodup_map hkeys (List.mem_of_find?_eq_some hfind) h hkey
      exact ⟨e, rfl, by rw [heq]⟩

theorem get?_foldl_insert_of_notMem (h : k ∉ es.map Prod.fst) (m : SortedMap β) :
    (es.foldl (fun m e => m.insert e.1 e.2) m).get? k = m.get? k := by
  induction es generalizing m with
  | nil => rfl
  | cons e es ih =>
    rw [List.map_cons, List.mem_cons, not_or] at h
    rw [List.foldl_cons, ih h.2, get?_insert, if_neg fun heq => h.1 heq.symm]

theorem get?_foldl_insert (hes : (es.map Prod.fst).Nodup) (h : (k, v) ∈ es) (m : SortedMap β) :
    (es.foldl (fun m e => m.insert e.1 e.2) m).get? k = some v := by
  induction es generalizing m with
  | nil => cases h
  | cons e es ih =>
    rw [List.map_cons, List.nodup_cons] at hes
    rw [List.foldl_cons]
    rcases List.mem_cons.mp h with rfl | h
    · rw [get?_foldl_insert_of_notMem hes.1, get?_insert, if_pos rfl]
    · exact ih hes.2 h _

theorem mem_of_get?_foldl_insert {m : SortedMap β}
    (h : (es.foldl (fun m e => m.insert e.1 e.2) m).get? k = some v) :
    (k, v) ∈ es ∨ m.get? k = some v := by
  induction es generalizing m with
  | nil => exact Or.inr h
  | cons e es ih =>
    rcases ih h with hmem | hget
    · exact Or.inl (List.mem_cons_of_mem _ hmem)
    · rw [get?_insert] at hget
      split at hget
      · rename_i heq
        cases hget
        exact Or.inl (heq ▸ List.mem_cons_self)
      · exact Or.inr hget

theorem mem_of_get?_ofList (h : (ofList es).get? k = some v) : (k, v) ∈ es :=
  (mem_of_get?_foldl_insert h).resolve_right nofun

theorem get?_ofList (hes : (es.map Prod.fst).Nodup) : (ofList es).get? k = some v ↔ (k, v) ∈ es :=
  ⟨mem_of_get?_ofList, fun h => get?_foldl_insert hes h empty⟩

end SortedMap

/-- Identifiers that differ in their last digit. -/
def sampleGuid (n : Fin 16) : Guid where
  digits := List.replicate 12 0 ++ [4, 0, 0, 0, 8, 0, 0, 0] ++ List.replicate 11 0 ++ [n]
  length_digits := rfl

end TriggerCompiler
