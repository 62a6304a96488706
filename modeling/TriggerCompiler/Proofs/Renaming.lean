import TriggerCompiler.Linking.Renaming
import TriggerCompiler.Proofs.HeapNames
import TriggerCompiler.Proofs.Methods

/-! The names of a module inside a caller. They follow from the beginning of names that the merge gets,
and from the caller's names of the modules that are nested in the module. -/

namespace TriggerCompiler

open Text

theorem OrderedMap.get?_foldl_insert_map {α β : Type} [DecidableEq α] (f : α → β) (ks : List α)
    (m : OrderedMap α β) (k : α) :
    (ks.foldl (fun m k => m.insert k (f k)) m).get? k = if k ∈ ks then some (f k) else m.get? k := by
  induction ks generalizing m with
  | nil => simp
  | cons j ks ih =>
    rw [List.foldl_cons, ih, OrderedMap.get?_insert]
    by_cases hk : k ∈ ks
    · simp [hk]
    · by_cases hj : j = k
      · simp [hj]
      · have hne : k ≠ j := fun heq => hj heq.symm
        simp [hk, hj, hne]

variable {v : Variable}

namespace SymbolTable

variable {t : SymbolTable}

theorem mem_variables :
    v ∈ t.toList.map Prod.snd ↔ ∃ id, t.get? id = some v := by
  rw [List.mem_map]
  constructor
  · rintro ⟨e, he, rfl⟩
    exact ⟨e.1, OrderedMap.get?_eq_some_iff.mpr he⟩
  · rintro ⟨id, hid⟩
    exact ⟨(id, v), OrderedMap.get?_eq_some_iff.mp hid, rfl⟩

theorem Proper.nodup_variables (h : t.Proper) :
    ((t.toList.map Prod.snd).map Variable.name).Nodup := by
  have hnodup : t.vars.entries.Nodup := List.Nodup.of_map _ t.vars.nodup
  rw [List.map_map]
  refine List.Nodup.map_on (fun e he e' he' heq => ?_) hnodup
  have hv := h.unique (OrderedMap.get?_eq_some_iff.mpr he)
  have hv' := h.unique (OrderedMap.get?_eq_some_iff.mpr he')
  rw [show e.2.name = e'.2.name from heq, hv'] at hv
  have hid : e'.1 = e.1 := Option.some.inj hv
  have hval := OrderedMap.get?_eq_some_iff.mpr he
  rw [← hid, OrderedMap.get?_eq_some_iff.mpr he'] at hval
  exact Prod.ext hid.symm (Option.some.inj hval).symm

end SymbolTable

variable {vars : List Variable} {m : Linkable}

namespace Renaming

variable {n : Naming} {t : Renaming} {x l : String}

/-- Only a label becomes a label. -/
theorem instruction_eq_label {i : Instruction} (h : t.instruction i = .label l) :
    ∃ l', i = .label l' ∧ l = t.label l' := by
  cases i with
  | label l' =>
    cases h
    exact ⟨l', rfl, rfl⟩
  | jump target => cases target <;> cases h
  | jumpIfFalse target => cases target <;> cases h
  | _ => cases h

/-! ### The names of a merge -/

theorem methods_foldl_addMethod (methods : List Method) (t : Renaming) (x : String) :
    (methods.foldl (addMethod n) t).methods.get? x =
      if x ∈ methods.map Method.name then some (n.method x).1 else t.methods.get? x := by
  induction methods generalizing t with
  | nil => simp
  | cons method methods ih =>
    rw [List.foldl_cons, ih, show (addMethod n t method).methods =
      t.methods.insert method.name (n.method method.name).1 from rfl, OrderedMap.get?_insert]
    by_cases hx : x ∈ methods.map Method.name
    · rw [if_pos hx, List.map_cons, if_pos (List.mem_cons_of_mem _ hx)]
    · by_cases heq : method.name = x
      · subst heq
        simp [hx]
      · have hne : x ≠ method.name := fun h => heq h.symm
        rw [if_neg hx, if_neg heq, if_neg]
        simpa [hne] using hx

theorem labels_foldl_addMethod (methods : List Method) (t : Renaming) (l : String) :
    (methods.foldl (addMethod n) t).labels.get? l =
      if l ∈ methods.flatMap (placedIn ·.code) then some (n.label l) else t.labels.get? l := by
  induction methods generalizing t with
  | nil => simp
  | cons method methods ih =>
    rw [List.foldl_cons, ih, show (addMethod n t method).labels =
      (placedIn method.code).foldl (fun ls l => ls.insert l (n.label l)) t.labels from rfl,
      OrderedMap.get?_foldl_insert_map, List.flatMap_cons]
    by_cases hl : l ∈ methods.flatMap (placedIn ·.code)
    · rw [if_pos hl, if_pos (List.mem_append_right _ hl)]
    · simp only [List.mem_append, hl, or_false, if_false]

theorem mem_shared_foldl_addMethod {methods : List Method} {t : Renaming} {x : String} :
    x ∈ (methods.foldl (addMethod n) t).shared ↔
      x ∈ methods.map Method.name ∧ (n.method x).2 = true ∨ x ∈ t.shared := by
  induction methods generalizing t with
  | nil => simp
  | cons method methods ih =>
    rw [List.foldl_cons, ih, show (addMethod n t method).shared =
      if (n.method method.name).2 then method.name :: t.shared else t.shared from rfl]
    by_cases hshared : (n.method method.name).2 = true
    · simp only [hshared, if_true, List.mem_cons, List.map_cons]
      constructor
      · rintro (⟨hx, h⟩ | rfl | h)
        · exact Or.inl ⟨Or.inr hx, h⟩
        · exact Or.inl ⟨Or.inl rfl, hshared⟩
        · exact Or.inr h
      · rintro (⟨rfl | hx, h⟩ | h)
        · exact Or.inr (Or.inl rfl)
        · exact Or.inl ⟨hx, h⟩
        · exact Or.inr (Or.inr h)
    · simp only [if_neg hshared, List.mem_cons, List.map_cons]
      constructor
      · rintro (⟨hx, h⟩ | h)
        · exact Or.inl ⟨Or.inr hx, h⟩
        · exact Or.inr h
      · rintro (⟨rfl | hx, h⟩ | h)
        · exact absurd h hshared
        · exact Or.inl ⟨hx, h⟩
        · exact Or.inr h

theorem foldl_addVariable (vars : List Variable) (t : Renaming) :
    (vars.foldl (addVariable n) t).methods = t.methods ∧
      (vars.foldl (addVariable n) t).labels = t.labels ∧
      (vars.foldl (addVariable n) t).namePrefix = t.namePrefix := by
  induction vars generalizing t with
  | nil => exact ⟨rfl, rfl, rfl⟩
  | cons v vars ih =>
    rw [List.foldl_cons, (ih _).1, (ih _).2.1, (ih _).2.2]
    unfold addVariable
    split <;> exact ⟨rfl, rfl, rfl⟩

theorem symbols_addVariable (t : Renaming) (v : Variable) (x : String) :
    (addVariable n t v).symbols.get? x =
      if v.name = x then ((n.variableName? v).map Prod.fst).or (t.symbols.get? x)
      else t.symbols.get? x := by
  unfold addVariable
  split
  · rename_i hname
    rw [hname]
    simp
  · rename_i name isShared hname
    rw [hname, OrderedMap.get?_insert]
    rfl

theorem symbols_foldl_of_notMem (vars : List Variable) (t : Renaming)
    (hx : x ∉ vars.map Variable.name) :
    (vars.foldl (addVariable n) t).symbols.get? x = t.symbols.get? x := by
  induction vars generalizing t with
  | nil => rfl
  | cons v vars ih =>
    rw [List.map_cons, List.mem_cons, not_or] at hx
    rw [List.foldl_cons, ih _ hx.2, symbols_addVariable, if_neg (Ne.symm hx.1)]

theorem symbols_foldl_addVariable (hnodup : (vars.map Variable.name).Nodup)
    (hv : v ∈ vars) (t : Renaming) :
    (vars.foldl (addVariable n) t).symbols.get? v.name =
      ((n.variableName? v).map Prod.fst).or (t.symbols.get? v.name) := by
  induction vars generalizing t with
  | nil => cases hv
  | cons w vars ih =>
    rw [List.map_cons, List.nodup_cons] at hnodup
    rw [List.foldl_cons]
    rcases List.mem_cons.mp hv with rfl | hv
    · rw [symbols_foldl_of_notMem _ _ hnodup.1, symbols_addVariable, if_pos rfl]
    · have hne : w.name ≠ v.name := fun heq => hnodup.1 (heq ▸ List.mem_map_of_mem hv)
      rw [ih hnodup.2 hv, symbols_addVariable, if_neg hne]

theorem mem_shared_foldl_addVariable {t : Renaming} {x : String} :
    x ∈ (vars.foldl (addVariable n) t).shared ↔
      (∃ v ∈ vars, v.name = x ∧ ∃ y, n.variableName? v = some (y, true)) ∨ x ∈ t.shared := by
  induction vars generalizing t with
  | nil => simp
  | cons v vars ih =>
    have hstep : x ∈ (addVariable n t v).shared ↔
        (v.name = x ∧ ∃ y, n.variableName? v = some (y, true)) ∨ x ∈ t.shared := by
      unfold addVariable
      split
      · simp_all
      · rename_i name isShared hname
        cases isShared <;> simp [hname, eq_comm]
    rw [List.foldl_cons, ih, hstep]
    simp only [List.mem_cons, exists_eq_or_imp]
    rw [or_assoc, or_left_comm]

theorem mem_names {methods : MethodTable} {x : String} :
    x ∈ methods.toList.map Method.name ↔ methods.contains x = true := by
  constructor
  · intro hx
    obtain ⟨method, hmethod, rfl⟩ := List.mem_map.mp hx
    exact MethodTable.contains_of_mem hmethod
  · intro hx
    obtain ⟨method, hmethod, rfl, -⟩ := MethodTable.exists_mem_toList hx
    exact List.mem_map_of_mem hmethod

/-- The names of the methods: one for each method of the module. -/
theorem methods_build (m : Linkable) (n : Naming) (x : String) :
    (build m n).methods.get? x =
      if m.program.methods.contains x = true then some (n.method x).1 else none := by
  rw [build, (foldl_addVariable _ _).1, methods_foldl_addMethod]
  simp only [mem_names, OrderedMap.get?_empty]

/-- The names of the labels: one for each label that the module places. -/
theorem labels_build (m : Linkable) (n : Naming) (l : String) :
    (build m n).labels.get? l =
      if l ∈ m.program.methods.placed then some (n.label l) else none := by
  rw [build, (foldl_addVariable _ _).2.1, labels_foldl_addMethod, MethodTable.toList,
    List.flatMap_map, OrderedMap.get?_empty]
  rfl

theorem namePrefix_build (m : Linkable) (n : Naming) : (build m n).namePrefix = n.namePrefix := by
  rw [build, (foldl_addVariable _ _).2.2]
  exact foldl_keeps (f := addMethod n) (g := Renaming.namePrefix) (fun _ _ => rfl) _ _

/-- The names of the variables, pooled constants apart. -/
theorem symbols_build (hp : m.program.symbols.Proper) (n : Naming) {id : VarId}
    (hv : m.program.symbols.get? id = some v) :
    (build m n).symbols.get? v.name = (n.variableName? v).map Prod.fst := by
  rw [build, symbols_foldl_addVariable hp.nodup_variables (SymbolTable.mem_variables.mpr ⟨id, hv⟩),
    foldl_keeps (f := addMethod n) (g := Renaming.symbols) (fun _ _ => rfl), OrderedMap.get?_empty,
    Option.or_none]

theorem exists_of_symbols_build {n : Naming} {x y : String}
    (h : (build m n).symbols.get? x = some y) :
    ∃ id v, m.program.symbols.get? id = some v ∧ v.name = x := by
  by_cases hx : x ∈ (m.program.symbols.toList.map Prod.snd).map Variable.name
  · obtain ⟨v, hv, rfl⟩ := List.mem_map.mp hx
    obtain ⟨id, hid⟩ := SymbolTable.mem_variables.mp hv
    exact ⟨id, v, hid, rfl⟩
  · rw [build, symbols_foldl_of_notMem _ _ hx,
      foldl_keeps (f := addMethod n) (g := Renaming.symbols) (fun _ _ => rfl),
      OrderedMap.get?_empty] at h
    cases h

theorem instances_build (m : Linkable) (n : Naming) : (build m n).instances = [] := by
  have hvar : ∀ (t : Renaming) (v : Variable), (addVariable n t v).instances = t.instances := by
    intro t v
    unfold addVariable
    split <;> rfl
  rw [build, foldl_keeps (f := addVariable n) (g := Renaming.instances) hvar]
  exact foldl_keeps (f := addMethod n) (g := Renaming.instances) (fun _ _ => rfl) _ _

/-- The names that belong to nested modules, those of methods and those of variables. -/
theorem mem_shared_build {n : Naming} {x : String} :
    x ∈ (build m n).shared ↔
      m.program.methods.contains x = true ∧ (n.method x).2 = true ∨
      ∃ id v, m.program.symbols.get? id = some v ∧ v.name = x ∧
        ∃ y, n.variableName? v = some (y, true) := by
  rw [build, mem_shared_foldl_addVariable, mem_shared_foldl_addMethod, or_comm, mem_names]
  simp only [List.not_mem_nil, or_false, SymbolTable.mem_variables]
  refine or_congr_right ⟨?_, ?_⟩
  · rintro ⟨v, ⟨id, hv⟩, hname, hy⟩
    exact ⟨id, v, hv, hname, hy⟩
  · rintro ⟨id, v, hv, hname, hy⟩
    exact ⟨v, ⟨id, hv⟩, hname, hy⟩

/-! ### Names of nested modules -/

namespace Naming

/-- The beginnings of names that a merge deals with: its own one, and distinct ones of the nested
modules. -/
structure Regular (n : Naming) : Prop where
  own : ∃ ordinal, n.namePrefix = mergedPrefix ordinal
  nested : ∀ a ∈ n.aliases, ∃ ordinal, a.1 = mergedPrefix ordinal
  nodup : (n.aliases.map Prod.fst).Nodup

end Naming

variable {aliases : List Alias} {table : Renaming → OrderedMap String String} {y : String}

theorem exists_of_aliased? (h : aliased? aliases table x = some y) :
    ∃ start names w, (start, names) ∈ aliases ∧ x = start ++ w ∧ (table names).get? w = some y := by
  obtain ⟨⟨start, names⟩, ha, hy⟩ := List.exists_of_findSome?_eq_some h
  obtain ⟨w, hw, hy⟩ := Option.bind_eq_some_iff.mp hy
  exact ⟨start, names, w, ha, withoutStart?_eq_some_iff.mp hw, hy⟩

/-- A name that begins like the names of a nested module is looked up there. -/
theorem aliased?_of_mem (hnested : ∀ a ∈ aliases, ∃ ordinal, a.1 = mergedPrefix ordinal)
    (hnodup : (aliases.map Prod.fst).Nodup) {start : String} {names : Renaming}
    (h : (start, names) ∈ aliases) (w : String) :
    aliased? aliases table (start ++ w) = (table names).get? w := by
  have hself : withoutStart? start (start ++ w) = some w := withoutStart?_eq_some_iff.mpr rfl
  induction aliases with
  | nil => cases h
  | cons a aliases ih =>
    rw [List.map_cons, List.nodup_cons] at hnodup
    rw [aliased?, List.findSome?_cons]
    -- Two beginnings of names are never the beginnings of one name.
    have hother : ∀ a' ∈ a :: aliases, a'.1 ≠ start → withoutStart? a'.1 (start ++ w) = none := by
      intro a' ha' hne
      obtain ⟨k, hk⟩ := hnested _ ha'
      obtain ⟨j, hj⟩ := hnested _ h
      rw [Option.eq_none_iff_forall_ne_some]
      intro u hu
      have heq := withoutStart?_eq_some_iff.mp hu
      rw [hk, show start = mergedPrefix j from hj] at heq
      rw [hk, show start = mergedPrefix j from hj, (mergedPrefix_append_inj heq).1] at hne
      exact hne rfl
    rcases List.mem_cons.mp h with rfl | hmem
    · rw [hself, Option.bind_some]
      cases hget : (table names).get? w with
      | some y => rfl
      | none =>
        rw [List.findSome?_eq_none_iff]
        intro a' ha'
        have hne : a'.1 ≠ start := fun heq => hnodup.1 (List.mem_map.mpr ⟨a', ha', heq⟩)
        rw [hother a' (List.mem_cons_of_mem _ ha') hne, Option.bind_none]
    · have hne : a.1 ≠ start := fun heq => hnodup.1 (heq ▸ List.mem_map_of_mem hmem)
      rw [hother a List.mem_cons_self hne, Option.bind_none]
      exact ih (fun a ha => hnested a (List.mem_cons_of_mem _ ha)) hnodup.2 hmem

end Renaming

end TriggerCompiler
