import Mathlib.Data.List.Nodup
import Mathlib.Data.List.Sigma
import TriggerCompiler.Proofs.MergeSteps

/-! The variables of the instances of a module. Each instance gets a variable of its own for every
variable that the instances do not share, under a name that has the number of the instance in front. The
variables are new if no variable of the module has such a name; the variables that the code of the module
uses are there before, and they are not synced. -/

namespace TriggerCompiler

open Text

/-- The copy of a module's variable that a caller gets under a name. -/
def Variable.importedAs (v : Variable) (name : String) : Variable :=
  { v with name, kind := .imported, global := true, guid := none, previous := none }

/-! ### Heaps -/

variable {f : Variable → Variable} {id : VarId}

namespace SymbolTable

variable {t : SymbolTable} {v : Variable} {P : String → Prop}

/-- No variable with a name of a sort is synced. -/
def Unsynced (t : SymbolTable) (P : String → Prop) : Prop :=
  ∀ ⦃id v⦄, t.get? id = some v → P v.name → v.sync = .notSynced

theorem Unsynced.insert (h : t.Unsynced P) (hv : P v.name → v.sync = .notSynced) :
    (t.insert v).2.Unsynced P := by
  intro id w hw hname
  rw [get?_insert] at hw
  split at hw
  · cases hw
    exact hv hname
  · exact h hw hname

theorem Unsynced.getOrInsert (h : t.Unsynced P) (hv : P v.name → v.sync = .notSynced) :
    (t.getOrInsert v).2.Unsynced P := by
  unfold SymbolTable.getOrInsert
  split
  · exact h
  · exact h.insert hv

theorem Unsynced.constant (h : t.Unsynced P) (type : VarType) (value : Value) :
    (t.constant type value).2.Unsynced P := by
  unfold SymbolTable.constant
  dsimp only
  split
  · exact h
  · exact Unsynced.insert (t := t.countUp) h fun _ => rfl

theorem Unsynced.modifyVar (h : t.Unsynced P)
    (hf : ∀ v, (f v).name = v.name ∧ (f v).sync = v.sync) : (t.modifyVar id f).Unsynced P := by
  intro j w hw hname
  rw [get?_modifyVar] at hw
  split at hw
  · obtain ⟨v, hv, rfl⟩ := Option.map_eq_some_iff.mp hw
    rw [(hf v).2]
    exact h hv ((hf v).1 ▸ hname)
  · exact h hw hname

/-- A variable that is looked up or added, and then changed. -/
theorem Unsynced.getOrInsert_modifyVar (h : t.Unsynced P) (hc : t.Consistent)
    (hf : ∀ w : Variable, w.name = v.name → P (f w).name →
      (f w).sync = .notSynced) :
    ((t.getOrInsert v).2.modifyVar (t.getOrInsert v).1 f).Unsynced P := by
  intro j w hw hname
  rw [get?_modifyVar] at hw
  split at hw
  · rename_i heq
    obtain ⟨u, hu, rfl⟩ := Option.map_eq_some_iff.mp hw
    exact hf u (hc.name_getOrInsert (heq ▸ hu)) hname
  · rename_i hne
    unfold SymbolTable.getOrInsert at hw hne
    split at hw
    · exact h hw hname
    · rename_i hfree
      rw [get?_insert] at hw
      split at hw
      · rename_i heq
        rw [hfree] at hne
        exact absurd heq.symm hne
      · exact h hw hname

theorem getOrInsert_of_free (h : t.names.contains v.name = false) : t.getOrInsert v = t.insert v := by
  rw [OrderedMap.contains, Option.isSome_eq_false_iff, Option.isNone_iff_eq_none] at h
  rw [getOrInsert, idOfName?, h]

theorem contains_insert {name : String} :
    (t.insert v).2.names.contains name = true ↔ name = v.name ∨ t.names.contains name = true :=
  OrderedMap.contains_insert

/-- Variables that are declared under different free names are all new, and no other variable changes. -/
theorem exists_of_foldl_declareImported (slots : List (String × String × Variable))
    (hnodup : (slots.map Prod.fst).Nodup) (hc : t.Consistent)
    (hfree : ∀ slot ∈ slots, t.names.contains slot.1 = false) :
    (∀ {id v}, t.get? id = some v → (slots.foldl
      (fun symbols slot => (symbols.declareImported slot.1 slot.2.2).2) t).get? id = some v) ∧
    ∀ slot ∈ slots, ∃ id, t.get? id = none ∧ (slots.foldl
      (fun symbols slot => (symbols.declareImported slot.1 slot.2.2).2) t).get? id =
        some (slot.2.2.importedAs slot.1) := by
  induction slots generalizing t with
  | nil => exact ⟨fun h => h, fun _ h => by cases h⟩
  | cons slot slots ih =>
    rw [List.map_cons, List.nodup_cons] at hnodup
    have hinsert : (t.declareImported slot.1 slot.2.2).2 =
        (t.insert (slot.2.2.importedAs slot.1)).2 :=
      congrArg Prod.snd (getOrInsert_of_free (v := slot.2.2.importedAs slot.1)
        (hfree slot List.mem_cons_self))
    have hfree' : ∀ other ∈ slots,
        (t.insert (slot.2.2.importedAs slot.1)).2.names.contains other.1 = false := by
      intro other hother
      rw [Bool.eq_false_iff, Ne, contains_insert, not_or]
      refine ⟨fun heq => hnodup.1 (List.mem_map.mpr ⟨other, hother, heq⟩), ?_⟩
      rw [hfree other (List.mem_cons_of_mem _ hother)]
      exact Bool.false_ne_true
    obtain ⟨hold, hnew⟩ := ih hnodup.2 (consistent_insert hc rfl) hfree'
    rw [List.foldl_cons, hinsert]
    refine ⟨fun {id v} hv => hold ?_, fun other hother => ?_⟩
    · rw [hc.get?_insert_of_live ⟨v, hv⟩, hv]
    · rcases List.mem_cons.mp hother with rfl | hother
      · exact ⟨t.nextId, hc.get?_nextId, hold (get?_insert_self t _)⟩
      · obtain ⟨id, hnone, hid⟩ := hnew other hother
        refine ⟨id, ?_, hid⟩
        rw [get?_insert] at hnone
        split at hnone
        · cases hnone
        · exact hnone

end SymbolTable

variable {P : String → Prop}

namespace Linker.Merging

variable {m : Linkable} {n : Renaming.Naming} {base : SymbolTable} {s : Merging} {v : Variable}
  {copies : List String}

/-! ### The variables that the code of a module uses -/

/-- The names in a caller of the variables of which each instance has its own. -/
def IsCopied (n : Renaming.Naming) (copies : List String) (y : String) : Prop :=
  ∃ x ∈ copies, y = n.namePrefix ++ x

theorem unsynced_addVariable (h : Adding m n base s)
    (hv : m.program.symbols.get? id = some v)
    (hs : s.program.symbols.Unsynced (IsCopied n copies)) :
    (s.addVariable copies v).program.symbols.Unsynced (IsCopied n copies) := by
  unfold addVariable
  dsimp only
  split
  · split
    · exact hs.getOrInsert fun _ => rfl
    · exact hs
  · exact hs.constant _ _
  · rename_i hsystem hconstant
    split
    · exact hs.getOrInsert fun _ => rfl
    · rename_i hparam
      split
      · exact hs
      · rename_i hshared
        split
        · exact hs
        · rename_i name hname
          rw [Renaming.isShared, decide_eq_true_eq, h.shared] at hshared
          have hown : name = n.namePrefix ++ v.name := by
            rw [h.symbols hv hconstant] at hname
            rcases variableName?_of_not_shared hv hconstant hsystem hshared with ⟨hkind, hdef⟩ | hdef
            · simp [h.symbols hv hconstant, hdef, hkind] at hparam
            · rw [hdef] at hname
              exact (Option.some.inj hname).symm
          refine hs.getOrInsert_modifyVar h.imported.consistent fun w hw hcopied => ?_
          obtain ⟨x, hx, hxname⟩ := hcopied
          have hmem : v.name ∈ copies := by
            rw [show w.name = name from hw, hown] at hxname
            rwa [append_right_cancel_iff.mp hxname]
          exact if_pos hmem

theorem unsynced_linkPrevious (source : SymbolTable)
    (hs : s.program.symbols.Unsynced P) :
    (s.linkPrevious source v).program.symbols.Unsynced P := by
  unfold linkPrevious
  dsimp only
  split
  · exact hs
  · split
    · exact hs.modifyVar fun _ => ⟨rfl, rfl⟩
    · exact hs

theorem unsynced_foldl_linkPrevious (source : SymbolTable) (vars : List Variable)
    (hs : s.program.symbols.Unsynced P) :
    (vars.foldl (linkPrevious source) s).program.symbols.Unsynced P := by
  induction vars generalizing s with
  | nil => exact hs
  | cons v vars ih => exact ih (unsynced_linkPrevious source hs)

end Linker.Merging

/-- Whether a module has a variable with a name, other than the storage of a parameter that the caller
shares with its modules. -/
def Linkable.HasOwnVariable (includeHooks : Bool) (m : Linkable) (x : String) : Prop :=
  ∃ id v, m.program.symbols.get? id = some v ∧ v.name = x ∧
    (v.kind = .eventParam && includeHooks) = false

/-- The module without instances of its own. -/
def Linkable.withoutInstances (m : Linkable) : Linkable :=
  { m with interface := { m.interface with multiInstance := false } }

variable {ordinal : Nat} {x : String}

namespace Linker

open Merging

variable {m : Linkable} {n : Renaming.Naming} {program : Program} {s : Merging}

/-- The caller with the variables and the methods of a module, before its instances are added. -/
def addShared (m : Linkable) (program : Program) (t : Renaming) : Merging :=
  let source := m.program.symbols
  let vars := source.toList.map Prod.snd
  let s := vars.foldl (addVariable (duplicated m t)) ⟨program, t⟩
  let s := (vars.filter fun v => !s.names.isShared v.name).foldl (linkPrevious source) s
  let named := s.program.symbols.namedMethods
  (m.program.methods.toList.filter fun method => !s.names.isShared method.name).foldl
    (addMethod m named) s

theorem addModule_eq (m : Linkable) (instances : List Guid) (program : Program) (t : Renaming) :
    addModule m instances program t = instances.zipIdx.foldl
      (fun s e => s.addInstance m (duplicated m t) e.2 e.1) (addShared m program t) := rfl

/-- What a caller has of a module before its instances are added: a copy of each variable, and no other
variable with the beginning of the module's names. The copies of which each instance has its own are not
synced. -/
structure Shares (m : Linkable) (n : Renaming.Naming) (program : Program) (s : Merging) : Prop where
  adding : Adding m.withoutInstances n program.symbols s
  has {id : VarId} {v : Variable} : m.program.symbols.get? id = some v →
    v.name ∉ (Renaming.build m n).shared → s.Has v
  unsynced : s.program.symbols.Unsynced (IsCopied n (duplicated m (Renaming.build m n)))

section

variable (hp : m.program.symbols.Proper) {ordinal : Nat}
  (hbeginning : n.namePrefix = mergedPrefix ordinal) (hproper : program.symbols.Proper)
  (hfresh : program.symbols.Unmerged ordinal)

include hp hbeginning hproper hfresh

theorem unsynced_foldl_addVariable (copies : List String) (vars : List Variable)
    (hvars : ∀ v ∈ vars, ∃ id, m.program.symbols.get? id = some v)
    (h : Adding m n program.symbols s) (hs : s.program.symbols.Unsynced (IsCopied n copies)) :
    (vars.foldl (addVariable copies) s).program.symbols.Unsynced (IsCopied n copies) := by
  induction vars generalizing s with
  | nil => exact hs
  | cons v vars ih =>
    obtain ⟨id, hv⟩ := hvars v List.mem_cons_self
    exact ih (fun w hw => hvars w (List.mem_cons_of_mem _ hw))
      (added_addVariable hp hbeginning hproper hfresh copies h hv).adding
      (unsynced_addVariable h hv hs)

theorem shares_addShared (hconsistent : program.symbols.Consistent) :
    Shares m n program (addShared m program (Renaming.build m n)) := by
  have hmem : ∀ v ∈ m.program.symbols.toList.map Prod.snd, ∃ id,
      m.program.symbols.get? id = some v := fun v hv => SymbolTable.mem_variables.mp hv
  have hstart : Adding m.withoutInstances n program.symbols ⟨program, Renaming.build m n⟩ :=
    adding_start (m := m.withoutInstances) hp hconsistent hproper
  have hall := addedAll_foldl (m := m.withoutInstances) hp hbeginning hproper hfresh
    (duplicated m (Renaming.build m n)) _ hmem hp.nodup_variables hstart
  have hquiet : program.symbols.Unsynced
      (IsCopied n (duplicated m (Renaming.build m n))) := by
    rintro id v hv ⟨x, -, hx⟩
    rw [hbeginning] at hx
    exact absurd (hx ▸ begins_append _ _) (hfresh hv)
  have hunsynced := unsynced_foldl_addVariable (m := m.withoutInstances) hp hbeginning
    hproper hfresh (duplicated m (Renaming.build m n)) _ hmem hstart hquiet
  unfold addShared
  dsimp only
  generalize (m.program.symbols.toList.map Prod.snd).foldl
    (addVariable (duplicated m (Renaming.build m n))) ⟨program, Renaming.build m n⟩ = s
    at hall hunsynced ⊢
  have hlinks : ∀ v ∈ (m.program.symbols.toList.map Prod.snd).filter
      (fun v => !s.names.isShared v.name), (∃ id, m.program.symbols.get? id = some v) ∧
        v.name ∉ (Renaming.build m n).shared := by
    intro v hv
    obtain ⟨hv, hshared⟩ := List.mem_filter.mp hv
    refine ⟨hmem v hv, ?_⟩
    rw [show (Renaming.build m n).shared = s.names.shared from hall.adding.shared.symm]
    simpa [Renaming.isShared] using hshared
  have hunsynced' := unsynced_foldl_linkPrevious m.program.symbols
    ((m.program.symbols.toList.map Prod.snd).filter fun v => !s.names.isShared v.name) hunsynced
  obtain ⟨f, hf, hadding, hkeeps⟩ := adding_foldl_linkPrevious (m := m.withoutInstances) hp hbeginning
    hproper hfresh _ hlinks hall.adding
  rw [show (m.withoutInstances).program = m.program from rfl] at hf
  rw [hf] at hunsynced' ⊢
  rw [foldl_addMethod]
  exact ⟨hadding.onMethods _, fun {id v} hv hshared => (hall.has (SymbolTable.mem_variables.mpr ⟨id, hv⟩)
    hshared).mono rfl rfl hall.adding.imported.consistent hkeeps, hunsynced'⟩

end

/-- A variable with the beginning of the module's names is the copy of the module's variable with the
rest of the name. -/
theorem Shares.exists_variable (h : Shares m n program s) (hp : m.program.symbols.Proper)
    (hbeginning : n.namePrefix = mergedPrefix ordinal) (hfresh : program.symbols.Unmerged ordinal)
    {v : Variable} (hv : s.program.symbols.get? id = some v)
    (hname : v.name = n.namePrefix ++ x) :
    ∃ j w, m.program.symbols.get? j = some w ∧ w.name = x ∧
      (w.kind = .eventParam && n.includeHooks) = false ∧ v.type = w.type ∧ v.default = w.default := by
  have hbegins : Begins (mergedPrefix ordinal) v.name := by
    rw [hname, hbeginning]
    exact begins_append _ _
  obtain ⟨hnone, hkind⟩ := h.adding.imported.isNew hfresh hv hbegins
  rcases h.adding.imported.new hv with hold | ⟨-, himport⟩
  · rw [hnone] at hold
    cases hold
  · cases himport with
    | @copied j w _ y hw hconstant hsystem _ hname' hy htype hdefault =>
      rcases hy with hcopies | ⟨hmulti, -⟩
      · refine ⟨j, w, hw, ?_, ?_, htype, hdefault⟩
        · rw [hname, Renaming.namePrefix_build, append_right_cancel_iff, hcopies.name] at hname'
          exact hname'.symm
        · have hsymbol := hcopies.symbol
          rw [Renaming.namePrefix_build, Renaming.symbols_build (m := m.withoutInstances) hp n hw,
            Renaming.Naming.variableName?_of_kind_ne hconstant hsystem, hbeginning] at hsymbol
          rw [Bool.eq_false_iff]
          intro hparam
          rw [if_pos hparam] at hsymbol
          exact mergedPrefix_append_ne (Option.some.inj hsymbol).symm
      · cases hmulti
    | constant _ _ hv => simp [hv.kind] at hkind
    | system which => simp [SystemVariable.toVariable] at hkind
    | eventParam _ _ => simp at hkind

/-! ### The variables of the instances -/

namespace Merging

/-- The name of an instance's own variable behind the beginning of the module's names: the number of the
instance stands in front. -/
def instanceName (k : Nat) (x : String) : String := "i" ++ toString k ++ "_" ++ x

theorem instanceSlot_eq (start : String) (k : Nat) (x : String) :
    instanceSlot start k x = start ++ instanceName k x := by
  show start ++ "i" ++ toString k ++ "_" ++ x = start ++ ("i" ++ toString k ++ "_" ++ x)
  simp only [String.append_assoc]

theorem instanceSlot_inj {start : String} {k k' : Nat} {x' : String}
    (h : instanceSlot start k x = instanceSlot start k' x') : k = k' ∧ x = x' := by
  rw [instanceSlot_eq, instanceSlot_eq, append_right_cancel_iff, instanceName, instanceName] at h
  simp only [String.append_assoc, append_right_cancel_iff] at h
  simp only [← String.append_assoc] at h
  exact number_underscore_inj h

theorem foldl_addInstance (m : Linkable) (copies : List String) (instances : List (Guid × Nat))
    (s : Merging) :
    instances.foldl (fun s e => s.addInstance m copies e.2 e.1) s =
      { program :=
          { symbols := (instances.flatMap fun e => slots m copies s.names e.2).foldl
              (fun symbols slot => (symbols.declareImported slot.1 slot.2.2).2) s.program.symbols
            methods := (instances.flatMap fun e =>
              instanceChunks m copies s.names e.2 e.1).foldl MethodTable.merge s.program.methods }
        names := { s.names with
          instances := s.names.instances ++
            instances.map fun e => copyMethods s.names e.2 e.1 } } := by
  induction instances generalizing s with
  | nil => simp
  | cons e instances ih =>
    rw [List.foldl_cons, ih, addInstance_eq, List.flatMap_cons, List.flatMap_cons, List.foldl_append,
      List.foldl_append, List.map_cons]
    simp only [List.append_assoc, List.singleton_append]
    rfl

variable {t : Renaming} {vars : List Variable}

/-- The variables of which each instance has its own are some of the variables that the author of the
module, or of a module merged into it, has declared. -/
theorem exists_duplicated (m : Linkable) (t : Renaming) :
    ∃ vars : List Variable, duplicated m t = vars.map Variable.name ∧
      vars.Sublist (m.program.symbols.toList.map Prod.snd) ∧
      ∀ v ∈ vars, (v.kind = .user ∨ v.kind = .imported) ∧ v.name ∉ t.shared := by
  unfold duplicated
  split
  · refine ⟨_, rfl, List.filter_sublist, fun v hv => ?_⟩
    have hkind := (List.mem_filter.mp hv).2
    simp only [Bool.and_eq_true, Bool.or_eq_true, decide_eq_true_eq, Bool.not_eq_true',
      Renaming.isShared, decide_eq_false_iff_not] at hkind
    exact ⟨hkind.1.1, hkind.2⟩
  · exact ⟨[], rfl, List.nil_sublist _, fun v hv => by cases hv⟩

theorem duplicated_congr (m : Linkable) {t u : Renaming} (h : t.shared = u.shared) :
    duplicated m t = duplicated m u := by
  simp only [duplicated, Renaming.isShared, h]

/-- The variables of an instance, if every variable that it copies has a copy in the caller. -/
theorem slots_eq (k : Nat) (hvars : ∀ v ∈ vars, m.program.symbols.byName? v.name = some v ∧
      t.symbols.get? v.name = some (t.namePrefix ++ v.name)) :
    slots m (vars.map Variable.name) t k =
      vars.map fun v => (instanceSlot t.namePrefix k v.name, t.namePrefix ++ v.name, v) := by
  rw [slots, List.filterMap_map, ← List.filterMap_eq_map]
  refine List.filterMap_congr fun v hv => ?_
  obtain ⟨hbyName, hsymbol⟩ := hvars v hv
  rw [Function.comp, hsymbol, hbyName]
  rfl

theorem nodup_flatMap_instanceSlot (start : String) (instances : List Guid) {xs : List String}
    (hnodup : xs.Nodup) :
    (instances.zipIdx.flatMap fun e => xs.map (instanceSlot start e.2)).Nodup := by
  rw [List.nodup_flatMap]
  refine ⟨fun e _ => hnodup.map fun x x' heq => (instanceSlot_inj heq).2, ?_⟩
  refine (List.pairwise_map.mp (List.nodup_zipIdx_map_snd instances)).imp fun {e e'} hne => ?_
  intro y hy hy'
  obtain ⟨x, -, rfl⟩ := List.mem_map.mp hy
  obtain ⟨x', -, heq⟩ := List.mem_map.mp hy'
  exact hne (instanceSlot_inj heq).1.symm

/-- The variables of instances have different names. -/
theorem nodup_slots (instances : List Guid) (hnodup : (vars.map Variable.name).Nodup)
    (hvars : ∀ v ∈ vars, m.program.symbols.byName? v.name = some v ∧
      t.symbols.get? v.name = some (t.namePrefix ++ v.name)) :
    ((instances.zipIdx.flatMap fun e => slots m (vars.map Variable.name) t e.2).map Prod.fst).Nodup := by
  have hnames (k : Nat) : (slots m (vars.map Variable.name) t k).map Prod.fst =
      (vars.map Variable.name).map (instanceSlot t.namePrefix k) := by
    rw [slots_eq k hvars, List.map_map, List.map_map]
    rfl
  simp only [List.map_flatMap, hnames]
  exact nodup_flatMap_instanceSlot _ _ hnodup

/-- The methods that copy the variables of instances have different names. -/
theorem nodup_instanceChunks (m : Linkable) (copies : List String) (t : Renaming)
    (instances : List Guid) :
    ((instances.zipIdx.flatMap fun e => instanceChunks m copies t e.2 e.1).map Method.name).Nodup := by
  have hname (k : Nat) (part : String) : t.namePrefix ++ "i" ++ toString k ++ ("_" ++ part) =
      instanceSlot t.namePrefix k part := by
    rw [instanceSlot_eq, instanceName]
    simp only [String.append_assoc]
  have hnames (k : Nat) (guid : Guid) : (instanceChunks m copies t k guid).map Method.name =
      ["_copy_in", "_copy_out"].map (instanceSlot t.namePrefix k) := by
    simp only [List.map_cons, List.map_nil, ← hname]
    rfl
  simp only [List.map_flatMap, hnames]
  exact nodup_flatMap_instanceSlot _ _ (by decide)

end Merging

/-- The code of the methods that copy the variables of instances. -/
theorem Outcome.codeOf_copy {instances : List Guid} (h : Outcome m n instances program s)
    (hbeginning : n.namePrefix = mergedPrefix ordinal) (hcopy : ∀ x, m.HasMethod x → ¬IsCopyName x)
    {c : Method} (hc : c ∈ instances.zipIdx.flatMap fun e =>
      instanceChunks m (duplicated m (Renaming.build m n)) s.names e.2 e.1) :
    s.program.methods.codeOf c.name = program.methods.codeOf c.name ++ c.code := by
  obtain ⟨heap, -, hmethods⟩ := h.methods
  have hothers : ((m.program.methods.toList.filter fun μ => !s.names.isShared μ.name).filterMap
      (methodChunk m heap.namedMethods s.names)).filter (·.name = c.name) = [] := by
    rw [List.filter_eq_nil_iff]
    intro μ' hμ'
    obtain ⟨μ, hμ, hchunk⟩ := List.mem_filterMap.mp hμ'
    obtain ⟨hμ, hshared⟩ := List.mem_filter.mp hμ
    have hcontains := MethodTable.contains_of_mem hμ
    rw [methodChunk, h.adding.methods, Renaming.methods_build, if_pos hcontains, Option.map_some]
      at hchunk
    cases hchunk
    obtain ⟨⟨guid, k⟩, -, hc⟩ := List.mem_flatMap.mp hc
    rw [decide_eq_true_eq]
    exact (h.name_copy_ne hbeginning hcopy hcontains
      (by simpa [Renaming.isShared] using hshared) hc).symm
  rw [hmethods, MethodTable.codeOf_foldl_merge, chunks, List.filter_append, hothers, List.nil_append,
    filter_eq_singleton_of_nodup (nodup_instanceChunks _ _ _ _) hc, List.flatMap_singleton]

/-- The variables of which each instance has its own are copied to the names of the module. -/
theorem exists_copied (hp : m.program.symbols.Proper) {t : Renaming}
    (hbeginning : t.namePrefix = n.namePrefix)
    (hsymbols : ∀ {id v}, m.program.symbols.get? id = some v → v.kind ≠ .constant →
      t.symbols.get? v.name = (n.variableName? v).map Prod.fst) :
    ∃ vars : List Variable, duplicated m (Renaming.build m n) = vars.map Variable.name ∧
      (vars.map Variable.name).Nodup ∧ (∀ v ∈ vars, v.name ∉ (Renaming.build m n).shared) ∧
      ∀ v ∈ vars, m.program.symbols.byName? v.name = some v ∧
        t.symbols.get? v.name = some (t.namePrefix ++ v.name) := by
  obtain ⟨vars, hvars, hsub, hkinds⟩ := exists_duplicated m (Renaming.build m n)
  refine ⟨vars, hvars, hp.nodup_variables.sublist (hsub.map _), fun v hv => (hkinds v hv).2,
    fun v hv => ?_⟩
  obtain ⟨id, hid⟩ := SymbolTable.mem_variables.mp (hsub.subset hv)
  obtain ⟨hkind, hshared⟩ := hkinds v hv
  refine ⟨by rw [SymbolTable.byName?, SymbolTable.idOfName?, hp.unique hid]; exact hid, ?_⟩
  have hconstant : v.kind ≠ .constant := by rcases hkind with hkind | hkind <;> simp [hkind]
  have hsystem : v.kind ≠ .system := by rcases hkind with hkind | hkind <;> simp [hkind]
  rw [hsymbols hid hconstant, hbeginning]
  rcases variableName?_of_not_shared hid hconstant hsystem hshared with ⟨hparam, -⟩ | hown
  · rcases hkind with hkind | hkind <;> simp [hkind] at hparam
  · rw [hown]
    rfl

/-- How a caller stores a variable of which each instance has its own: the code of the module uses a
variable that is not synced, and each instance has a new variable that is like that of the module. -/
structure Stored (before after : SymbolTable) (t : Renaming) (count : Nat) (v : Variable) : Prop where
  shared : ∃ id c, after.get? id = some c ∧ c.name = t.namePrefix ++ v.name ∧ c.type = v.type ∧
    c.default = v.default ∧ c.sync = .notSynced
  own {k : Nat} : k < count → ∃ id, before.get? id = none ∧
    after.get? id = some (v.importedAs (instanceSlot t.namePrefix k v.name))

section

variable (h : Shares m n program s)

include h

theorem Shares.namePrefix : s.names.namePrefix = n.namePrefix :=
  h.adding.namePrefix.trans (Renaming.namePrefix_build _ _)

variable {ordinal : Nat} (hbeginning : n.namePrefix = mergedPrefix ordinal)
  (hfresh : program.symbols.Unmerged ordinal)

include hbeginning hfresh

theorem Shares.free (hp : m.program.symbols.Proper)
    (hx : ¬m.HasOwnVariable n.includeHooks x) :
    s.program.symbols.names.contains (n.namePrefix ++ x) = false := by
  refine h.adding.imported.consistent.free_of_forall_ne fun id v hv hname => hx ?_
  obtain ⟨j, w, hw, hwname, hkind, -⟩ := h.exists_variable hp hbeginning hfresh hv hname
  exact ⟨j, w, hw, hwname, hkind⟩

/-- The variable that the code of the module uses for one of which each instance has its own. -/
theorem Shares.exists_shared (hp : m.program.symbols.Proper) {v : Variable}
    (hv : m.program.symbols.get? id = some v) (hmem : v.name ∈ duplicated m (Renaming.build m n))
    (hname : s.names.symbols.get? v.name = some (n.namePrefix ++ v.name))
    (hshared : v.name ∉ (Renaming.build m n).shared) :
    ∃ j c, s.program.symbols.get? j = some c ∧ c.name = n.namePrefix ++ v.name ∧
      c.type = v.type ∧ c.default = v.default ∧ c.sync = .notSynced := by
  obtain ⟨y, hy, hcontains⟩ := (h.has hv hshared).named
  rw [hname] at hy
  cases hy
  obtain ⟨j, hj⟩ := OrderedMap.contains_eq_true.mp hcontains
  obtain ⟨c, hc, hcname⟩ := h.adding.imported.consistent.names hj
  obtain ⟨i, w, hw, hwname, -, htype, hdefault⟩ := h.exists_variable hp hbeginning hfresh hc hcname
  cases hp.eq_of_name hw hv hwname
  exact ⟨j, c, hc, hcname, htype, hdefault, h.unsynced hc ⟨v.name, hmem, hcname⟩⟩

end

/-- The merge of a module stores each variable of which each instance has its own, if the module has no
variable whose name is that of an instance's variable. -/
theorem stored_addModule (hp : m.program.symbols.Proper)
    (hbeginning : n.namePrefix = mergedPrefix ordinal)
    (hconsistent : program.symbols.Consistent) (hproper : program.symbols.Proper)
    (hfresh : program.symbols.Unmerged ordinal) (instances : List Guid)
    (hclear : ∀ k < instances.length, ∀ x ∈ duplicated m (Renaming.build m n),
      ¬m.HasOwnVariable n.includeHooks (instanceName k x))
    (hx : x ∈ duplicated m (Renaming.build m n)) :
    ∃ v, m.program.symbols.byName? x = some v ∧ v.name = x ∧
      Stored program.symbols (addModule m instances program (Renaming.build m n)).program.symbols
        (addModule m instances program (Renaming.build m n)).names instances.length v := by
  have hshares := shares_addShared (m := m) hp hbeginning hproper hfresh hconsistent
  rw [addModule_eq, foldl_addInstance]
  generalize addShared m program (Renaming.build m n) = s at hshares ⊢
  obtain ⟨vars, hvars, hnodup, hshared, hcopied⟩ := exists_copied hp hshares.namePrefix hshares.adding.symbols
  have hfree : ∀ slot ∈ instances.zipIdx.flatMap fun e =>
      slots m (duplicated m (Renaming.build m n)) s.names e.2,
      s.program.symbols.names.contains slot.1 = false := by
    intro slot hslot
    obtain ⟨e, he, hslot⟩ := List.mem_flatMap.mp hslot
    rw [hvars, slots_eq e.2 hcopied] at hslot
    obtain ⟨v, hv, rfl⟩ := List.mem_map.mp hslot
    rw [instanceSlot_eq, hshares.namePrefix]
    refine hshares.free hbeginning hfresh hp (hclear e.2 (List.snd_lt_of_mem_zipIdx he) v.name ?_)
    rw [hvars]
    exact List.mem_map_of_mem hv
  obtain ⟨hold, hnew⟩ := SymbolTable.exists_of_foldl_declareImported _
    (by rw [hvars]; exact nodup_slots instances hnodup hcopied)
    hshares.adding.imported.consistent hfree
  have hx' := hx
  rw [hvars] at hx'
  obtain ⟨v, hv, rfl⟩ := List.mem_map.mp hx'
  obtain ⟨hbyName, hsymbol⟩ := hcopied v hv
  refine ⟨v, hbyName, rfl, ?_, fun {k} hk => ?_⟩
  · obtain ⟨id, -, hid⟩ := Option.bind_eq_some_iff.mp hbyName
    rw [hshares.namePrefix] at hsymbol
    obtain ⟨j, c, hc, hdata⟩ :=
      hshares.exists_shared hbeginning hfresh hp hid hx hsymbol (hshared v hv)
    rw [← hshares.namePrefix] at hdata
    exact ⟨j, c, hold hc, hdata⟩
  · obtain ⟨guid, hguid⟩ : ∃ guid, (guid, k) ∈ instances.zipIdx :=
      ⟨_, List.mk_mem_zipIdx_iff_getElem?.mpr (List.getElem?_eq_getElem hk)⟩
    obtain ⟨id, hnone, hid⟩ := hnew (instanceSlot s.names.namePrefix k v.name,
      s.names.namePrefix ++ v.name, v) (List.mem_flatMap.mpr ⟨_, hguid, by
        rw [hvars, slots_eq k hcopied]
        exact List.mem_map_of_mem hv⟩)
    refine ⟨id, ?_, hid⟩
    rw [Option.eq_none_iff_forall_ne_some]
    intro w hw
    rw [hshares.adding.imported.old hw] at hnone
    cases hnone

end Linker

end TriggerCompiler
