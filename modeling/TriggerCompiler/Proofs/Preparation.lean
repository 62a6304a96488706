import TriggerCompiler.Compile
import TriggerCompiler.Proofs.HeapNames
import TriggerCompiler.Proofs.Methods

/-! The steps that finish a program, before the addresses are filled in. Every step keeps the code of the
methods in one piece and puts a fixed sequence of instructions before or behind it, and of the heap only
system variables come and go. -/

namespace TriggerCompiler

open Text

namespace MethodTable

variable {t : MethodTable} {x y : String}

theorem mem_names : x ∈ t.names ↔ t.contains x = true := by
  rw [names, OrderedMap.keys, contains_iff, List.mem_map]
  constructor
  · rintro ⟨e, he, rfl⟩
    exact ⟨e.2, OrderedMap.get?_eq_some_iff.mpr he⟩
  · rintro ⟨b, hb⟩
    exact ⟨(x, b), OrderedMap.get?_eq_some_iff.mp hb, rfl⟩

theorem names_update (f : MethodBody → MethodBody) :
    (t.update x f).names = if x ∈ t.names then t.names else t.names ++ [x] :=
  t.bodies.keys_insert x _

theorem get?_exportExisting (t : MethodTable) (x y : String) :
    (t.exportExisting x).bodies.get? y =
      if y = x then (t.bodies.get? y).map fun b => { b with exported := true }
      else t.bodies.get? y := t.bodies.get?_modify x y _

theorem contains_exportExisting : (t.exportExisting x).contains y = t.contains y := by
  rw [contains, contains, OrderedMap.contains, get?_exportExisting]
  split
  · rw [Option.isSome_map]
    rfl
  · rfl

theorem codeOf_exportExisting (t : MethodTable) (x y : String) :
    (t.exportExisting x).codeOf y = t.codeOf y := by
  rw [codeOf, get?_exportExisting]
  split
  · rw [Option.map_map]
    rfl
  · rfl

theorem names_foldl_exportExisting (names : List String) (t : MethodTable) :
    (names.foldl exportExisting t).names = t.names :=
  foldl_keeps (fun t x => OrderedMap.keys_modify t.bodies x _) names t

theorem codeOf_foldl_emit {names : List String} (hnodup : names.Nodup) (code : List Instruction) :
    (names.foldl (fun t x => t.emit x code) t).codeOf y =
      t.codeOf y ++ if y ∈ names then code else [] := by
  induction names generalizing t with
  | nil => simp
  | cons name names ih =>
    obtain ⟨hname, hnodup⟩ := List.nodup_cons.mp hnodup
    rw [List.foldl_cons, ih hnodup, emit, codeOf_update fun _ => rfl, List.append_assoc]
    by_cases hy : name = y
    · subst hy
      simp [hname]
    · simp [hy, Ne.symm hy]

theorem names_foldl_emit {names : List String} (hnames : names ⊆ t.names) (code : List Instruction) :
    (names.foldl (fun t x => t.emit x code) t).names = t.names := by
  induction names generalizing t with
  | nil => rfl
  | cons name names ih =>
    have hsame : (t.emit name code).names = t.names := by
      rw [emit, names_update, if_pos (hnames List.mem_cons_self)]
    rw [List.foldl_cons, ih, hsame]
    rw [hsame]
    exact fun _ hx => hnames (List.mem_cons_of_mem _ hx)

/-- The methods whose code marks a write to a synced variable. -/
theorem mem_sentinels : x ∈ (t.toList.filter Method.containsSentinel).map Method.name ↔
    (t.codeOf x).any Instruction.isSentinel = true := by
  constructor
  · intro hx
    obtain ⟨m, hm, rfl⟩ := List.mem_map.mp hx
    obtain ⟨hm, hsentinel⟩ := List.mem_filter.mp hm
    rwa [codeOf_of_mem hm]
  · intro hsentinel
    obtain ⟨i, hi, -⟩ := List.any_eq_true.mp hsentinel
    obtain ⟨m, hm, rfl, hcode⟩ := exists_mem_toList (mem_codeOf hi)
    refine List.mem_map_of_mem (List.mem_filter.mpr ⟨hm, ?_⟩)
    rwa [Method.containsSentinel, hcode]

theorem sentinels_sublist (t : MethodTable) :
    ((t.toList.filter Method.containsSentinel).map Method.name).Sublist t.names := by
  have hnames : t.toList.map Method.name = t.names := by
    rw [toList, List.map_map]
    rfl
  exact hnames ▸ List.filter_sublist.map _

end MethodTable

/-! ### Heaps with system variables -/

namespace SymbolTable

variable {t t' t'' : SymbolTable} {which : SystemVariable}

theorem nameOf_system (h : t.Grounded) (which : SystemVariable) :
    (t.system which).2.nameOf (t.system which).1 = which.name := by
  obtain ⟨v, hv, hname⟩ := (h.getOrInsert which.toVariable).names (names_getOrInsert_self t _)
  rw [nameOf, system, hv]
  exact hname

theorem contains_system_iff {s : String} :
    (t.system which).2.names.contains s = true ↔ s = which.name ∨ t.names.contains s = true := by
  rw [system, getOrInsert]
  split
  · rename_i id hid
    refine (or_iff_right_of_imp fun hs => ?_).symm
    exact hs ▸ OrderedMap.contains_eq_true.mpr ⟨id, hid⟩
  · exact OrderedMap.contains_insert

theorem contains_system (t : SymbolTable) (which : SystemVariable) :
    (t.system which).2.names.contains which.name = true := contains_system_iff.mpr (Or.inl rfl)

/-- A variable that is named like a system variable is the one that the name stands for, and there is no
variable for its previous value. -/
def SystemNamed (t : SymbolTable) : Prop :=
  ∀ (id : VarId) (v : Variable) (which : SystemVariable), t.get? id = some v → v.name = which.name →
    t.idOfName? which.name = some id ∧ v.previous = none

/-- A heap that may have further system variables. -/
structure Furnishes (t t' : SymbolTable) : Prop where
  grounded : t'.Grounded
  vars {id : VarId} {v : Variable} : t.get? id = some v → t'.get? id = some v
  names {s : String} {id : VarId} : t.names.get? s = some id → t'.names.get? s = some id
  new {id : VarId} {v : Variable} : t'.get? id = some v → t.get? id = some v ∨
    ∃ which : SystemVariable, v = which.toVariable ∧ t'.names.get? which.name = some id

namespace Furnishes

theorem refl (h : t.Grounded) : t.Furnishes t := ⟨h, fun hv => hv, fun hs => hs, Or.inl⟩

theorem trans (h : t.Furnishes t') (h' : t'.Furnishes t'') : t.Furnishes t'' := by
  refine ⟨h'.grounded, fun hv => h'.vars (h.vars hv), fun hs => h'.names (h.names hs),
    fun {id v} hv => ?_⟩
  rcases h'.new hv with hv | hnew
  · rcases h.new hv with hv | ⟨which, rfl, hid⟩
    · exact Or.inl hv
    · exact Or.inr ⟨which, rfl, h'.names hid⟩
  · exact Or.inr hnew

theorem contains (h : t.Furnishes t') {s : String} (hs : t.names.contains s = true) :
    t'.names.contains s = true := by
  obtain ⟨id, hid⟩ := OrderedMap.contains_eq_true.mp hs
  exact OrderedMap.contains_eq_true.mpr ⟨id, h.names hid⟩

theorem systemNamed (h : t.Furnishes t') (ht : t.SystemNamed) : t'.SystemNamed := by
  intro id v which hv hname
  rcases h.new hv with hv | ⟨which', rfl, hid⟩
  · exact ⟨h.names (ht id v which hv hname).1, (ht id v which hv hname).2⟩
  · rw [← show which'.name = which.name from hname]
    exact ⟨hid, rfl⟩

end Furnishes

theorem furnishes_system (h : t.Grounded) (which : SystemVariable) :
    t.Furnishes (t.system which).2 := by
  rw [system, getOrInsert]
  cases hid : t.idOfName? which.toVariable.name with
  | some id => exact .refl h
  | none =>
    refine ⟨h.insert _, fun hv => ?_, fun {s id} hs => ?_, fun {id v} hv => ?_⟩
    · exact (h.get?_insert_of_live ⟨_, hv⟩ _).trans hv
    · show (t.names.insert which.toVariable.name t.nextId).get? s = some id
      rw [OrderedMap.get?_insert, if_neg, hs]
      rintro rfl
      rw [show t.names.get? which.toVariable.name = none from hid] at hs
      cases hs
    · dsimp only at hv
      rw [get?_insert] at hv
      split at hv
      · rename_i heq
        refine Or.inr ⟨which, (Option.some.inj hv).symm, ?_⟩
        show (t.names.insert which.name t.nextId).get? which.name = some id
        rw [OrderedMap.get?_insert, if_pos rfl, heq]
      · exact Or.inl hv

/-- A heap from which all but some names are gone, with their variables. -/
structure Restricts (K : String → Prop) (t t' : SymbolTable) : Prop where
  vars {id : VarId} {v : Variable} : t'.get? id = some v ↔ t.get? id = some v ∧ K v.name
  names {s : String} {id : VarId} : t'.names.get? s = some id ↔ t.names.get? s = some id ∧ K s

theorem Restricts.trans {K L : String → Prop} (h : t.Restricts K t') (h' : t'.Restricts L t'') :
    t.Restricts (fun s => K s ∧ L s) t'' := by
  refine ⟨fun {id v} => ?_, fun {s id} => ?_⟩
  · rw [h'.vars, h.vars, and_assoc]
  · rw [h'.names, h.names, and_assoc]

theorem Restricts.systemNamed {K : String → Prop} (h : t.Restricts K t') (ht : t.SystemNamed) :
    t'.SystemNamed := by
  intro id v which hv hname
  obtain ⟨hv, hK⟩ := h.vars.mp hv
  obtain ⟨hid, hprevious⟩ := ht id v which hv hname
  exact ⟨h.names.mpr ⟨hid, hname ▸ hK⟩, hprevious⟩

theorem get?_drop (t : SymbolTable) (id j : VarId) (v : Variable) :
    (t.drop id v).get? j = if id = j then none else t.get? j := t.vars.get?_erase id j

/-- The removal of a system variable removes nothing else. -/
theorem SystemNamed.restricts_remove (ht : t.SystemNamed)
    (hnames : ∀ s id, t.names.get? s = some id → ∃ v, t.get? id = some v ∧ v.name = s) {id : VarId}
    (hid : t.idOfName? which.name = some id) : t.Restricts (· ≠ which.name) (t.remove id).2 := by
  obtain ⟨v, hv, hname⟩ := hnames _ id hid
  have hremove : (t.remove id).2 = t.drop id v := by
    rw [SymbolTable.remove]
    split
    · rename_i hnone
      rw [hv] at hnone
      cases hnone
    · rename_i w hw
      rw [hv] at hw
      cases hw
      rw [(ht id v which hv hname).2]
  rw [hremove]
  refine ⟨fun {j w} => ?_, fun {s j} => ?_⟩
  · rw [get?_drop]
    split
    · rename_i heq
      subst heq
      refine iff_of_false (fun hnone => by cases hnone) fun hkept => ?_
      obtain ⟨hw, hne⟩ := hkept
      rw [hv] at hw
      cases hw
      exact hne hname
    · rename_i hne
      refine (and_iff_left_of_imp fun hw hwname => hne ?_).symm
      have hfound := (ht j w which hw hwname).1
      rw [hid] at hfound
      exact Option.some.inj hfound
  · rw [drop, hname, if_pos (show t.names.get? which.name = some id from hid)]
    dsimp only
    rw [OrderedMap.get?_erase]
    split
    · rename_i heq
      exact iff_of_false (fun hnone => by cases hnone) fun h => h.2 heq.symm
    · rename_i hne
      exact (and_iff_left (Ne.symm hne)).symm

end SymbolTable

namespace Program

open SymbolTable

variable {p q : Program} {x s : String} {sync : SyncMethod} {settings : Settings}

/-- A heap whose names are proper and found. -/
structure Sane (p : Program) : Prop where
  consistent : p.symbols.Consistent
  proper : p.symbols.Proper

/-- A heap in which the names lead to the variables that have them, and on which no system variable is
watched. -/
structure Prunable (t : SymbolTable) : Prop where
  names {name : String} {id : VarId} : t.names.get? name = some id →
    ∃ v, t.get? id = some v ∧ v.name = name
  unique {id : VarId} {v : Variable} : t.get? id = some v → t.names.get? v.name = some id
  system {id : VarId} {v : Variable} {which : SystemVariable} : t.get? id = some v →
    v.name = which.name → v.previous = none

theorem Sane.kind_of_name (h : p.Sane) {id : VarId} {v : Variable} {which : SystemVariable}
    (hv : p.symbols.get? id = some v) (hname : v.name = which.name) : v.kind = .system := by
  have hstart : which.name ∈ VariableKind.system.starts := by cases which <;> decide
  exact (h.proper.fits hv).eq_of_begins hstart (by rw [hname]; exact List.prefix_refl _)

theorem Sane.prunable (h : p.Sane) : Prunable p.symbols where
  names hname := h.consistent.names hname
  unique hv := h.proper.unique hv
  system {id v which} hv hname := by
    cases hprevious : v.previous with
    | none => rfl
    | some previous =>
      rcases h.proper.watched hv (Or.inr (by rw [hprevious]; rfl)) with hwatched | hwatched
      · rw [h.kind_of_name hv hname] at hwatched
        cases hwatched
      · rw [h.kind_of_name hv hname] at hwatched
        cases hwatched

namespace Prunable

variable {t t' : SymbolTable}

theorem systemNamed (h : Prunable t) : t.SystemNamed := fun _ _ _ hv hname =>
  ⟨hname ▸ h.unique hv, h.system hv hname⟩

theorem furnish (h : Prunable t) (hheap : t.Furnishes t') : Prunable t' where
  names := hheap.grounded.names
  unique hv := by
    rcases hheap.new hv with hv | ⟨which, rfl, hid⟩
    · exact hheap.names (h.unique hv)
    · exact hid
  system hv hname := (hheap.systemNamed h.systemNamed _ _ _ hv hname).2

theorem restrict (h : Prunable t) {K : String → Prop} (hheap : t.Restricts K t') : Prunable t' where
  names hs := by
    obtain ⟨hs, hK⟩ := hheap.names.mp hs
    obtain ⟨v, hv, rfl⟩ := h.names hs
    exact ⟨v, hheap.vars.mpr ⟨hv, hK⟩, rfl⟩
  unique hv := by
    obtain ⟨hv, hK⟩ := hheap.vars.mp hv
    exact hheap.names.mpr ⟨h.unique hv, hK⟩
  system hv := h.system (hheap.vars.mp hv).1

end Prunable

/-! ### The steps on methods -/

theorem mem_code {i : Instruction} : i ∈ p.code ↔ ∃ x, i ∈ p.methods.codeOf x := by
  rw [code, List.mem_flatMap]
  constructor
  · rintro ⟨m, hm, hi⟩
    exact ⟨m.name, by rwa [MethodTable.codeOf_of_mem hm]⟩
  · rintro ⟨x, hi⟩
    obtain ⟨m, hm, -, hcode⟩ := MethodTable.exists_mem_toList (MethodTable.mem_codeOf hi)
    exact ⟨m, hm, hcode ▸ hi⟩

theorem referenceCount_ne_zero_iff : p.referenceCount s ≠ 0 ↔ ∃ i ∈ p.code, i.symbol? = some s := by
  rw [referenceCount, ← Nat.pos_iff_ne_zero, List.length_pos_iff_exists_mem]
  simp

/-- The local player is a variable that some instruction names. -/
def UsesLocalPlayer (p : Program) : Prop :=
  p.symbols.names.contains SystemVariable.localPlayer.name = true ∧
    p.referenceCount SystemVariable.localPlayer.name ≠ 0

instance (p : Program) : Decidable p.UsesLocalPlayer := inferInstanceAs (Decidable (_ ∧ _))

theorem usesLocalPlayer_congr (hnames : q.symbols.names.contains SystemVariable.localPlayer.name =
      p.symbols.names.contains SystemVariable.localPlayer.name)
    (hcode : ∀ x i, i.symbol? = some SystemVariable.localPlayer.name →
      (i ∈ q.methods.codeOf x ↔ i ∈ p.methods.codeOf x)) :
    q.UsesLocalPlayer ↔ p.UsesLocalPlayer := by
  rw [UsesLocalPlayer, UsesLocalPlayer, hnames, referenceCount_ne_zero_iff, referenceCount_ne_zero_iff]
  simp only [mem_code]
  refine and_congr_right fun _ => exists_congr fun i => and_congr_left fun hs => ?_
  exact exists_congr fun x => hcode x i hs

/-- The instructions that fetch the local player. -/
def localPlayerFetch : List Instruction :=
  [.push SystemVariable.localPlayer.name, .invoke Signature.getLocalPlayer]

/-- What stands before the code of a method in a finished program. -/
def opening (p : Program) (exported : Bool) (x : String) : List Instruction :=
  (if exported then [.push SystemVariable.haltAddress.name] else []) ++ [.label (entryLabel x)] ++
    if x = startMethod ∧ p.UsesLocalPlayer then localPlayerFetch else []

/-- What stands behind the code of a method in a finished program. -/
def closing (p : Program) (sync : SyncMethod) (settings : Settings) (x : String) : List Instruction :=
  (if sync = .manual && settings.autoRequestSerialization &&
      (p.methods.codeOf x).any Instruction.isSentinel then serializationRequest else []) ++
    [.label (endLabel x), .push SystemVariable.returnJump.name, .copy,
      .jumpIndirect SystemVariable.returnJump.name]

theorem codeOf_exportNamedMethods (p : Program) (x : String) :
    p.exportNamedMethods.methods.codeOf x = p.methods.codeOf x :=
  foldl_keeps (g := fun t : MethodTable => t.codeOf x) (fun t name => t.codeOf_exportExisting name x) _ _

theorem codeOf_requestSerialization (p : Program) (x : String) :
    p.requestSerialization.2.methods.codeOf x = p.methods.codeOf x ++
      if (p.methods.codeOf x).any Instruction.isSentinel then serializationRequest else [] := by
  have hmem := @MethodTable.mem_sentinels p.methods x
  rw [requestSerialization]
  split
  · rename_i hempty
    rw [List.isEmpty_iff.mp hempty] at hmem
    rw [if_neg fun hsentinel => List.not_mem_nil (hmem.mpr hsentinel), List.append_nil]
  · refine (MethodTable.codeOf_foldl_emit ?_ _).trans ?_
    · exact p.methods.bodies.nodup.sublist p.methods.sentinels_sublist
    · simp only [hmem]

theorem initLocalPlayer_of_uses (h : p.UsesLocalPlayer) : p.initLocalPlayer =
    { p with methods := p.methods.update startMethod fun b =>
      { exported := true
        code := [.push SystemVariable.localPlayer.name, .invoke Signature.getLocalPlayer] ++
          b.code } } := by
  obtain ⟨id, hid⟩ := OrderedMap.contains_eq_true.mp h.1
  have hname : p.symbols.idOfName? SystemVariable.localPlayer.name = some id := hid
  rw [initLocalPlayer, hname]
  simp [h.2]

theorem initLocalPlayer_of_not_uses (h : ¬p.UsesLocalPlayer) : p.initLocalPlayer = p := by
  rw [initLocalPlayer]
  refine if_pos ?_
  by_contra hused
  simp only [Bool.or_eq_true, Option.isNone_iff_eq_none, decide_eq_true_eq, not_or] at hused
  obtain ⟨id, hid⟩ := Option.ne_none_iff_exists'.mp hused.1
  exact h ⟨OrderedMap.contains_eq_true.mpr ⟨id, hid⟩, hused.2⟩

theorem codeOf_initLocalPlayer (p : Program) (x : String) :
    p.initLocalPlayer.methods.codeOf x =
      (if x = startMethod ∧ p.UsesLocalPlayer then localPlayerFetch else []) ++ p.methods.codeOf x := by
  by_cases h : p.UsesLocalPlayer
  · rw [initLocalPlayer_of_uses h, MethodTable.codeOf, MethodTable.get?_update]
    by_cases hx : startMethod = x
    · subst hx
      rw [if_pos rfl, if_pos ⟨rfl, h⟩, MethodTable.codeOf]
      cases p.methods.bodies.get? startMethod <;> simp [localPlayerFetch]
    · rw [if_neg hx, if_neg fun hboth => hx hboth.1.symm]
      rfl
  · rw [initLocalPlayer_of_not_uses h, if_neg fun hboth => h hboth.2]
    rfl

theorem names_initLocalPlayer (p : Program) : p.initLocalPlayer.methods.names = p.methods.names ++
    if p.UsesLocalPlayer ∧ startMethod ∉ p.methods.names then [startMethod] else [] := by
  by_cases h : p.UsesLocalPlayer
  · rw [initLocalPlayer_of_uses h, MethodTable.names_update]
    by_cases hstart : startMethod ∈ p.methods.names <;> simp [h, hstart]
  · rw [initLocalPlayer_of_not_uses h, if_neg fun hboth => h hboth.1, List.append_nil]

theorem get?_addReturnSequences (h : p.symbols.Grounded) (x : String) :
    p.addReturnSequences.methods.bodies.get? x = (p.methods.bodies.get? x).map
      (wrapBody SystemVariable.haltAddress.name SystemVariable.returnJump.name x) := by
  have hfirst := (furnishes_system h .haltAddress).grounded
  rw [addReturnSequences]
  split
  · rename_i hempty
    have hnone : p.methods.bodies.get? x = none := by
      rw [OrderedMap.get?, List.isEmpty_iff.mp hempty]
      rfl
    rw [hnone]
    rfl
  · dsimp only
    rw [OrderedMap.get?_mapValues, nameOf_system h, nameOf_system hfirst]

theorem names_addReturnSequences (p : Program) :
    p.addReturnSequences.methods.names = p.methods.names := by
  rw [addReturnSequences]
  split
  · rfl
  · exact OrderedMap.keys_mapValues _ _

theorem methods_pruneSystemVariables (p : Program) (vars : List SystemVariable) :
    (p.pruneSystemVariables vars).2.methods = p.methods := by
  induction vars generalizing p with
  | nil => rfl
  | cons which rest ih =>
    rw [pruneSystemVariables]
    split
    · exact ih p
    · split
      · exact ih _
      · exact ih p

/-! ### The steps on the heap -/

theorem furnishes_requestSerialization (h : p.symbols.Grounded) :
    p.symbols.Furnishes p.requestSerialization.2.symbols := by
  rw [requestSerialization]
  split
  · exact .refl h
  · exact furnishes_system h .this

theorem furnishes_initLocalPlayer (h : p.symbols.Grounded) :
    p.symbols.Furnishes p.initLocalPlayer.symbols := by
  rw [initLocalPlayer]
  split <;> exact .refl h

theorem furnishes_addReturnSequences (h : p.symbols.Grounded) :
    p.symbols.Furnishes p.addReturnSequences.symbols := by
  have hfirst := furnishes_system h .haltAddress
  rw [addReturnSequences]
  split
  · exact .refl h
  · exact hfirst.trans (furnishes_system hfirst.grounded .returnJump)

/-- Pruning removes the given system variables that no instruction names. -/
theorem restricts_pruneSystemVariables (hsystem : p.symbols.SystemNamed)
    (hnames : ∀ s id, p.symbols.names.get? s = some id →
      ∃ v, p.symbols.get? id = some v ∧ v.name = s) (vars : List SystemVariable) :
    p.symbols.Restricts (fun s => p.referenceCount s = 0 → ∀ which ∈ vars, which.name ≠ s)
      (p.pruneSystemVariables vars).2.symbols := by
  induction vars generalizing p with
  | nil => exact ⟨by simp [pruneSystemVariables], by simp [pruneSystemVariables]⟩
  | cons which rest ih =>
    rw [pruneSystemVariables]
    simp only [List.forall_mem_cons]
    have hsame {s : String} (hne : which.name ≠ s) :
        (p.referenceCount s = 0 → ∀ other ∈ rest, other.name ≠ s) ↔
          (p.referenceCount s = 0 → which.name ≠ s ∧ ∀ other ∈ rest, other.name ≠ s) := by
      simp [hne]
    split
    · rename_i hnone
      replace hnone : p.symbols.names.get? which.name = none := hnone
      have hrest := ih hsystem hnames
      refine ⟨fun {id v} => hrest.vars.trans (and_congr_right fun hv => hsame fun hname => ?_),
        fun {s id} => hrest.names.trans (and_congr_right fun hs => hsame fun hname => ?_)⟩
      · have hfound : p.symbols.names.get? which.name = some id := (hsystem id v which hv hname.symm).1
        rw [hnone] at hfound
        cases hfound
      · rw [← hname, hnone] at hs
        cases hs
    · rename_i id hid
      split
      · rename_i hcount
        have hremoved := hsystem.restricts_remove hnames hid
        have hrest := hremoved.trans (ih (p := { p with symbols := (p.symbols.remove id).2 })
          (hremoved.systemNamed hsystem) fun s j hj => by
            obtain ⟨hj, hne⟩ := hremoved.names.mp hj
            obtain ⟨v, hv, rfl⟩ := hnames s j hj
            exact ⟨v, hremoved.vars.mpr ⟨hv, hne⟩, rfl⟩)
        have hiff (s : String) : s ≠ which.name ∧
            (p.referenceCount s = 0 → ∀ other ∈ rest, other.name ≠ s) ↔
              (p.referenceCount s = 0 → which.name ≠ s ∧ ∀ other ∈ rest, other.name ≠ s) := by
          by_cases hs : which.name = s
          · subst hs
            simp [hcount]
          · rw [and_iff_right (Ne.symm hs), hsame hs]
        exact ⟨hrest.vars.trans (and_congr_right fun _ => hiff _),
          hrest.names.trans (and_congr_right fun _ => hiff _)⟩
      · rename_i hcount
        have hrest := ih hsystem hnames
        have hiff (s : String) : (p.referenceCount s = 0 → ∀ other ∈ rest, other.name ≠ s) ↔
            (p.referenceCount s = 0 → which.name ≠ s ∧ ∀ other ∈ rest, other.name ≠ s) := by
          by_cases hs : which.name = s
          · subst hs
            simp [hcount]
          · exact hsame hs
        exact ⟨hrest.vars.trans (and_congr_right fun _ => hiff _),
          hrest.names.trans (and_congr_right fun _ => hiff _)⟩

/-! ### Everything before the addresses -/

/-- The program before the local player is fetched. -/
def requested (p : Program) (sync : SyncMethod) (settings : Settings) : Program :=
  if sync = .manual && settings.autoRequestSerialization then p.exportNamedMethods.requestSerialization.2
  else p.exportNamedMethods

/-- The program before the system variables are pruned. -/
def wrapped (p : Program) (sync : SyncMethod) (settings : Settings) : Program :=
  (p.requested sync settings).initLocalPlayer.addReturnSequences

theorem prepare_eq (p : Program) (sync : SyncMethod) (settings : Settings) :
    (p.prepare sync settings).2 =
      ((p.wrapped sync settings).pruneSystemVariables SystemVariable.all).2 := by
  rw [prepare, wrapped, requested]
  dsimp only
  split <;> rfl

theorem methods_prepare (p : Program) (sync : SyncMethod) (settings : Settings) :
    (p.prepare sync settings).2.methods = (p.wrapped sync settings).methods := by
  rw [prepare_eq, methods_pruneSystemVariables]

theorem codeOf_requested (p : Program) (sync : SyncMethod) (settings : Settings) (x : String) :
    (p.requested sync settings).methods.codeOf x = p.methods.codeOf x ++
      if sync = .manual && settings.autoRequestSerialization &&
        (p.methods.codeOf x).any Instruction.isSentinel then serializationRequest else [] := by
  rw [requested]
  cases hon : sync = .manual && settings.autoRequestSerialization with
  | true =>
    rw [if_pos rfl, codeOf_requestSerialization, codeOf_exportNamedMethods, Bool.true_and]
  | false =>
    rw [if_neg Bool.false_ne_true, codeOf_exportNamedMethods, Bool.false_and, if_neg Bool.false_ne_true,
      List.append_nil]

theorem names_requested (p : Program) (sync : SyncMethod) (settings : Settings) :
    (p.requested sync settings).methods.names = p.methods.names := by
  have hexport : p.exportNamedMethods.methods.names = p.methods.names :=
    MethodTable.names_foldl_exportExisting _ _
  rw [requested]
  split
  · rw [requestSerialization]
    split
    · exact hexport
    · exact (MethodTable.names_foldl_emit (MethodTable.sentinels_sublist _).subset _).trans hexport
  · exact hexport

theorem usesLocalPlayer_requested (p : Program) (sync : SyncMethod) (settings : Settings) :
    (p.requested sync settings).UsesLocalPlayer ↔ p.UsesLocalPlayer := by
  refine usesLocalPlayer_congr ?_ fun x i hs => ?_
  · rw [requested]
    split
    · rw [requestSerialization]
      split
      · rfl
      · rw [Bool.eq_iff_iff, contains_system_iff, or_iff_right (by decide)]
        rfl
    · rfl
  · rw [codeOf_requested, List.mem_append, or_iff_left]
    have hrequest : ∀ i ∈ serializationRequest, i.symbol? ≠ some SystemVariable.localPlayer.name := by
      decide
    split
    · exact fun hi => hrequest i hi hs
    · exact List.not_mem_nil

theorem furnishes_requested (h : p.symbols.Grounded) (sync : SyncMethod) (settings : Settings) :
    p.symbols.Furnishes (p.requested sync settings).symbols := by
  rw [requested]
  split
  · exact furnishes_requestSerialization (p := p.exportNamedMethods) h
  · exact .refl h

/-- The methods of a program that is finished but for its addresses. -/
theorem code_of_prepare (hc : p.symbols.Grounded) {b : MethodBody}
    (hb : (p.prepare sync settings).2.methods.bodies.get? x = some b) :
    b.code = p.opening b.exported x ++ p.methods.codeOf x ++ p.closing sync settings x := by
  have hheap := furnishes_initLocalPlayer (furnishes_requested hc sync settings).grounded
  rw [methods_prepare, wrapped, get?_addReturnSequences hheap.grounded] at hb
  obtain ⟨c, hget, rfl⟩ := Option.map_eq_some_iff.mp hb
  have hcode : c.code = (if x = startMethod ∧ p.UsesLocalPlayer then localPlayerFetch else []) ++
      (p.methods.codeOf x ++ if sync = .manual && settings.autoRequestSerialization &&
        (p.methods.codeOf x).any Instruction.isSentinel then serializationRequest else []) := by
    rw [← MethodTable.codeOf_of_get? hget, codeOf_initLocalPlayer, codeOf_requested]
    simp only [usesLocalPlayer_requested]
  show (wrapBody _ _ x c).code = p.opening c.exported x ++ _ ++ _
  rw [wrapBody, hcode, opening, closing]
  simp

theorem names_prepare (p : Program) (sync : SyncMethod) (settings : Settings) :
    (p.prepare sync settings).2.methods.names = p.methods.names ++
      if p.UsesLocalPlayer ∧ startMethod ∉ p.methods.names then [startMethod] else [] := by
  rw [methods_prepare, wrapped, names_addReturnSequences, names_initLocalPlayer, names_requested]
  simp only [usesLocalPlayer_requested]

theorem contains_prepare (h : (p.prepare sync settings).2.methods.contains x = true) :
    p.methods.contains x = true ∨ x = startMethod := by
  rw [← MethodTable.mem_names, names_prepare] at h
  rcases List.mem_append.mp h with hx | hx
  · exact Or.inl (MethodTable.mem_names.mp hx)
  · split at hx
    · exact Or.inr (List.mem_singleton.mp hx)
    · cases hx

theorem mem_placed_prepare (hc : p.symbols.Grounded) {l : String}
    (hl : l ∈ (p.prepare sync settings).2.methods.placed) :
    l ∈ p.methods.placed ∨ ∃ x, l = entryLabel x ∨ l = endLabel x := by
  obtain ⟨x, hl⟩ := MethodTable.mem_placed.mp hl
  rw [mem_placedIn] at hl
  obtain ⟨b, hb⟩ := MethodTable.contains_iff.mp (MethodTable.mem_codeOf hl)
  rw [MethodTable.codeOf_of_get? hb, code_of_prepare hc hb, List.mem_append, List.mem_append] at hl
  rcases hl with (hl | hl) | hl
  · refine Or.inr ⟨x, Or.inl ?_⟩
    rw [opening] at hl
    split at hl <;> split at hl <;> simpa [localPlayerFetch] using hl
  · exact Or.inl (MethodTable.mem_placed.mpr ⟨x, mem_placedIn.mpr hl⟩)
  · refine Or.inr ⟨x, Or.inr ?_⟩
    rw [closing] at hl
    split at hl <;> simpa [serializationRequest] using hl

/-! ### The heap before the addresses -/

theorem furnishes_wrapped (h : p.symbols.Grounded) (sync : SyncMethod) (settings : Settings) :
    p.symbols.Furnishes (p.wrapped sync settings).symbols := by
  have hrequested := furnishes_requested h sync settings
  have hplayer := hrequested.trans (furnishes_initLocalPlayer hrequested.grounded)
  exact hplayer.trans (furnishes_addReturnSequences hplayer.grounded)

theorem restricts_prepare (hc : p.symbols.Grounded) (hsystem : p.symbols.SystemNamed)
    (sync : SyncMethod) (settings : Settings) :
    (p.wrapped sync settings).symbols.Restricts
      (fun s => (p.wrapped sync settings).referenceCount s = 0 →
        ∀ which ∈ SystemVariable.all, which.name ≠ s) (p.prepare sync settings).2.symbols := by
  have hheap := furnishes_wrapped hc sync settings
  rw [prepare_eq]
  exact restricts_pruneSystemVariables (hheap.systemNamed hsystem) (fun _ _ => hheap.grounded.names) _

namespace Sane

variable {id : VarId} {v : Variable}

theorem restricts (h : p.Sane) (sync : SyncMethod) (settings : Settings) :
    (p.wrapped sync settings).symbols.Restricts
      (fun s => (p.wrapped sync settings).referenceCount s = 0 →
        ∀ which ∈ SystemVariable.all, which.name ≠ s) (p.prepare sync settings).2.symbols :=
  restricts_prepare h.consistent.toGrounded h.prunable.systemNamed sync settings

theorem prunable_wrapped (h : p.Sane) (sync : SyncMethod) (settings : Settings) :
    Prunable (p.wrapped sync settings).symbols :=
  h.prunable.furnish (furnishes_wrapped h.consistent.toGrounded sync settings)

theorem get?_prepare (h : p.Sane) (hv : p.symbols.get? id = some v) (hkind : v.kind ≠ .system) :
    (p.prepare sync settings).2.symbols.get? id = some v := by
  have hheap := furnishes_wrapped h.consistent.toGrounded sync settings
  refine (h.restricts sync settings).vars.mpr ⟨hheap.vars hv, fun _ which _ hname => ?_⟩
  exact hkind (h.kind_of_name hv hname.symm)

theorem new_of_prepare (h : p.Sane) (hv : (p.prepare sync settings).2.symbols.get? id = some v) :
    p.symbols.get? id = some v ∨ ∃ which : SystemVariable, v = which.toVariable := by
  have hheap := furnishes_wrapped h.consistent.toGrounded sync settings
  rcases hheap.new ((h.restricts sync settings).vars.mp hv).1 with hold | ⟨which, hwhich, -⟩
  · exact Or.inl hold
  · exact Or.inr ⟨which, hwhich⟩

/-- Two handles, of a variable before and of one after, are the same if the names are. -/
theorem name_prepare_eq_iff (h : p.Sane) {j : VarId} {w : Variable} (hv : p.symbols.get? j = some v)
    (hw : (p.prepare sync settings).2.symbols.get? id = some w) : v.name = w.name ↔ j = id := by
  have hwrapped := h.prunable_wrapped sync settings
  replace hv := (furnishes_wrapped h.consistent.toGrounded sync settings).vars hv
  replace hw := ((h.restricts sync settings).vars.mp hw).1
  constructor
  · intro hname
    have hj := hwrapped.unique hv
    rw [hname, hwrapped.unique hw] at hj
    exact (Option.some.inj hj).symm
  · rintro rfl
    rw [hv] at hw
    rw [Option.some.inj hw]

end Sane

end Program

end TriggerCompiler
