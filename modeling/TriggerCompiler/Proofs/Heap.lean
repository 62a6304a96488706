import TriggerCompiler.Machine.SymbolTable
import TriggerCompiler.Proofs.Basic

/-! The heap under construction. Every handle that a table stores denotes a variable, and the requests
that emission makes keep it so: a request leaves the variables that are there in place, and what it
returns denotes a variable. -/

namespace TriggerCompiler

/-- Two states of one variable: its name, its type, its value and what it is for stay the same. -/
structure Variable.Same (v w : Variable) : Prop where
  name : w.name = v.name
  type : w.type = v.type
  default : w.default = v.default
  kind : w.kind = v.kind

/-- The variable for the previous value of a variable. -/
def Variable.shadow (v : Variable) : Variable where
  name := "__prev_" ++ v.name
  type := v.type
  default := v.default
  kind := .internal

namespace SymbolTable

variable {t t' t'' : SymbolTable} {id : VarId} {v : Variable}

/-- Whether a handle denotes a variable. -/
def Live (t : SymbolTable) (id : VarId) : Prop := ∃ v, t.get? id = some v

/-- Whether a handle denotes a temporary. -/
def IsTemp (t : SymbolTable) (id : VarId) : Prop := ∃ v, t.get? id = some v ∧ v.kind = .temp

/-- The next handle is new, and every name leads to the variable that has it. -/
structure Grounded (t : SymbolTable) : Prop where
  bound {id : VarId} {v : Variable} : t.get? id = some v → id < t.nextId
  names {name : String} {id : VarId} : t.names.get? name = some id →
    ∃ v, t.get? id = some v ∧ v.name = name

/-- Identifiers stand for variables as well, and what is leased is a temporary. -/
structure Anchored (t : SymbolTable) : Prop extends Grounded t where
  guids {guid : Guid} {id : VarId} : t.guids.get? guid = some id → t.Live id
  leases {id : VarId} : id ∈ t.leased → t.IsTemp id

/-- Every handle that the table stores denotes a variable, and every variable is found by its name. -/
structure Consistent (t : SymbolTable) : Prop extends Anchored t where
  named {id : VarId} {v : Variable} : t.get? id = some v → t.names.contains v.name = true
  constants {key : String} {id : VarId} : t.constants.get? key = some id →
    ∃ v, t.get? id = some v ∧ v.kind = .constant ∧ v.default.poolKey v.type = key
  temps {type : VarType} {ids : List VarId} {id : VarId} : t.freeTemps.get? type = some ids →
    id ∈ ids → t.IsTemp id
  previous {id p : VarId} {v : Variable} : t.get? id = some v → v.previous = some p → t.Live p

/-- A table with the variables, the names and the pool of another one. -/
structure Extends (t t' : SymbolTable) : Prop where
  vars {id : VarId} {v : Variable} : t.get? id = some v → ∃ w, t'.get? id = some w ∧ v.Same w
  names {name : String} : t.names.contains name = true → t'.names.contains name = true
  constants {key : String} {id : VarId} : t.constants.get? key = some id →
    t'.constants.get? key = some id

namespace Extends

theorem refl (t : SymbolTable) : t.Extends t :=
  ⟨fun h => ⟨_, h, rfl, rfl, rfl, rfl⟩, fun h => h, fun h => h⟩

theorem trans (h : t.Extends t') (h' : t'.Extends t'') : t.Extends t'' := by
  refine ⟨fun hv => ?_, fun hn => h'.names (h.names hn), fun hk => h'.constants (h.constants hk)⟩
  obtain ⟨w, hw, hsame⟩ := h.vars hv
  obtain ⟨u, hu, hsame'⟩ := h'.vars hw
  exact ⟨u, hu, hsame'.name.trans hsame.name, hsame'.type.trans hsame.type,
    hsame'.default.trans hsame.default, hsame'.kind.trans hsame.kind⟩

theorem live (h : t.Extends t') (hid : t.Live id) : t'.Live id := by
  obtain ⟨v, hv⟩ := hid
  obtain ⟨w, hw, -⟩ := h.vars hv
  exact ⟨w, hw⟩

theorem isTemp (h : t.Extends t') (hid : t.IsTemp id) : t'.IsTemp id := by
  obtain ⟨v, hv, hkind⟩ := hid
  obtain ⟨w, hw, hsame⟩ := h.vars hv
  exact ⟨w, hw, hsame.kind.trans hkind⟩

theorem nameOf (h : t.Extends t') (hid : t.Live id) : t'.nameOf id = t.nameOf id := by
  obtain ⟨v, hv⟩ := hid
  obtain ⟨w, hw, hsame⟩ := h.vars hv
  simp only [SymbolTable.nameOf, hv, hw, hsame.name]

end Extends

theorem extends_of_vars_eq (hvars : t'.vars = t.vars) (hnames : t'.names = t.names)
    (hpool : t'.constants = t.constants) : t.Extends t' := by
  refine ⟨fun {id v} hv => ⟨v, ?_, rfl, rfl, rfl, rfl⟩, fun {name} hn => ?_, fun {key id} hk => ?_⟩
  · rw [get?, hvars]
    exact hv
  · rw [hnames]
    exact hn
  · rw [hpool]
    exact hk

theorem Consistent.contains_nameOf (h : t.Consistent) (hid : t.Live id) :
    t.names.contains (t.nameOf id) = true := by
  obtain ⟨v, hv⟩ := hid
  simp only [nameOf, hv]
  exact h.named hv

theorem anchored_empty : ({} : SymbolTable).Anchored where
  bound h := by cases h
  names h := by cases h
  guids h := by cases h
  leases h := by cases h

theorem consistent_empty : ({} : SymbolTable).Consistent where
  toAnchored := anchored_empty
  named h := by cases h
  constants h := by cases h
  temps h := by cases h
  previous h := by cases h

/-! ### Inserting a variable -/

theorem get?_insert (t : SymbolTable) (v : Variable) (id : VarId) :
    (t.insert v).2.get? id = if t.nextId = id then some v else t.get? id :=
  t.vars.get?_insert t.nextId id v

theorem get?_insert_self (t : SymbolTable) (v : Variable) :
    (t.insert v).2.get? t.nextId = some v := by
  rw [get?_insert, if_pos rfl]

theorem Grounded.get?_nextId (h : t.Grounded) : t.get? t.nextId = none := by
  cases hv : t.get? t.nextId with
  | none => rfl
  | some v => exact absurd (h.bound hv) (Nat.lt_irrefl _)

theorem Grounded.ne_nextId (h : t.Grounded) (hid : t.Live id) : t.nextId ≠ id := by
  obtain ⟨v, hv⟩ := hid
  exact (Nat.ne_of_lt (h.bound hv)).symm

theorem Grounded.get?_insert_of_live (h : t.Grounded) (hid : t.Live id) (v : Variable) :
    (t.insert v).2.get? id = t.get? id := by
  rw [get?_insert, if_neg (h.ne_nextId hid)]

theorem Grounded.extends_insert (h : t.Grounded) (v : Variable) : t.Extends (t.insert v).2 := by
  refine ⟨fun {_ w} hw => ⟨w, ?_, rfl, rfl, rfl, rfl⟩, fun hn => ?_, fun hk => hk⟩
  · rw [h.get?_insert_of_live ⟨_, hw⟩]
    exact hw
  · exact OrderedMap.contains_insert.mpr (Or.inr hn)

theorem Grounded.insert (h : t.Grounded) (v : Variable) : (t.insert v).2.Grounded := by
  refine ⟨fun {id w} hw => ?_, fun {name id} hn => ?_⟩
  · rw [get?_insert] at hw
    split at hw
    · rename_i heq
      rw [← heq]
      exact Nat.lt_succ_self _
    · exact Nat.lt_succ_of_lt (h.bound hw)
  · rw [SymbolTable.insert, OrderedMap.get?_insert] at hn
    split at hn
    · rename_i heq
      cases hn
      exact ⟨v, get?_insert_self t v, heq⟩
    · obtain ⟨w, hw, hname⟩ := h.names hn
      exact ⟨w, by rw [h.get?_insert_of_live ⟨w, hw⟩, hw], hname⟩

theorem Anchored.insert (h : t.Anchored) (v : Variable) : (t.insert v).2.Anchored := by
  have hext := h.extends_insert v
  refine ⟨h.toGrounded.insert v, fun {guid id} hg => ?_, fun hin => hext.isTemp (h.leases hin)⟩
  have hold (hold : t.guids.get? guid = some id) : (t.insert v).2.Live id := hext.live (h.guids hold)
  rw [SymbolTable.insert] at hg
  dsimp only at hg
  split at hg
  · rw [OrderedMap.get?_insert] at hg
    split at hg
    · cases hg
      exact ⟨v, get?_insert_self t v⟩
    · exact hold hg
  · exact hold hg

theorem consistent_insert (h : t.Consistent) (hv : v.previous = none) :
    (t.insert v).2.Consistent := by
  have hext := h.extends_insert v
  refine ⟨h.toAnchored.insert v, fun {id w} hw => ?_, fun {key id} hk => ?_,
    fun hf hin => hext.isTemp (h.temps hf hin), fun {id p w} hw hp => ?_⟩
  · rw [get?_insert] at hw
    split at hw
    · cases hw
      exact OrderedMap.contains_insert.mpr (Or.inl rfl)
    · exact hext.names (h.named hw)
  · obtain ⟨w, hw, hkind, hpool⟩ := h.constants hk
    exact ⟨w, by rw [h.get?_insert_of_live ⟨w, hw⟩, hw], hkind, hpool⟩
  · rw [get?_insert] at hw
    split at hw
    · cases hw
      rw [hv] at hp
      cases hp
    · exact hext.live (h.previous hw hp)

/-! ### The requests -/

/-- What a request for a variable yields: a consistent table that has kept its variables, and the handle
of a variable. -/
structure Yields (t : SymbolTable) (r : VarId × SymbolTable) : Prop where
  consistent : r.2.Consistent
  keeps : t.Extends r.2
  live : r.2.Live r.1

theorem yields_insert (h : t.Consistent) (hv : v.previous = none) : t.Yields (t.insert v) :=
  ⟨consistent_insert h hv, h.extends_insert v, v, get?_insert_self t v⟩

theorem yields_getOrInsert (h : t.Consistent) (hv : v.previous = none) :
    t.Yields (t.getOrInsert v) := by
  unfold getOrInsert
  split
  · rename_i id hid
    obtain ⟨w, hw, -⟩ := h.names hid
    exact ⟨h, .refl t, w, hw⟩
  · exact yields_insert h hv

theorem names_getOrInsert_self (t : SymbolTable) (v : Variable) :
    (t.getOrInsert v).2.names.get? v.name = some (t.getOrInsert v).1 := by
  unfold getOrInsert
  split
  · assumption
  · rw [insert, OrderedMap.get?_insert, if_pos rfl]

theorem Grounded.getOrInsert (h : t.Grounded) (v : Variable) : (t.getOrInsert v).2.Grounded := by
  unfold SymbolTable.getOrInsert
  split
  · exact h
  · exact h.insert v

theorem Grounded.name_getOrInsert (h : t.Grounded) {w : Variable}
    (hw : (t.getOrInsert v).2.get? (t.getOrInsert v).1 = some w) : w.name = v.name := by
  obtain ⟨u, hu, hname⟩ := (h.getOrInsert v).names (names_getOrInsert_self t v)
  rw [hu] at hw
  cases hw
  exact hname

theorem Anchored.countUp (h : t.Anchored) : t.countUp.Anchored := ⟨⟨h.bound, h.names⟩, h.guids, h.leases⟩

theorem Consistent.countUp (h : t.Consistent) : t.countUp.Consistent :=
  ⟨h.toAnchored.countUp, h.named, h.constants, h.temps, h.previous⟩

theorem yields_countUp_insert (h : t.Consistent) (hv : v.previous = none) :
    t.Yields (t.countUp.insert v) := by
  obtain ⟨hc, hk, hl⟩ := yields_insert h.countUp hv
  exact ⟨hc, ⟨hk.vars, hk.names, hk.constants⟩, hl⟩

/-- A constant that has been requested is in the pool. -/
theorem constants_constant (t : SymbolTable) (type : VarType) (value : Value) :
    (t.constant type value).2.constants.get? (value.poolKey type) =
      some (t.constant type value).1 := by
  unfold constant
  dsimp only
  split
  · assumption
  · dsimp only
    rw [OrderedMap.get?_insert, if_pos rfl]

theorem Anchored.constant (h : t.Anchored) (type : VarType) (value : Value) :
    (t.constant type value).2.Anchored := by
  unfold SymbolTable.constant
  dsimp only
  split
  · exact h
  · generalize ({ name := _, type, default := value, kind := .constant } : Variable) = v
    have hl := h.countUp.insert v
    exact ⟨⟨hl.bound, hl.names⟩, hl.guids, hl.leases⟩

theorem yields_constant (h : t.Consistent) (type : VarType) (value : Value) :
    t.Yields (t.constant type value) := by
  have hanchored := h.toAnchored.constant type value
  revert hanchored
  unfold constant
  dsimp only
  split
  · rename_i id hid
    obtain ⟨v, hv, -⟩ := h.constants hid
    exact fun _ => ⟨h, .refl t, v, hv⟩
  · generalize hv : ({ name := _, type, default := value, kind := .constant } : Variable) = v
    intro hanchored
    obtain ⟨hc, hk, hl⟩ := yields_countUp_insert (v := v) h (by rw [← hv])
    refine ⟨⟨hanchored, hc.named, fun {key id} hpool => ?_, hc.temps, hc.previous⟩,
      ⟨hk.vars, hk.names, fun {key id} hpool => ?_⟩, hl⟩
    · dsimp only at hpool
      rw [OrderedMap.get?_insert] at hpool
      split at hpool
      · rename_i heq
        cases hpool
        exact ⟨v, get?_insert_self t.countUp v, by rw [← hv], by rw [← heq, ← hv]⟩
      · exact hc.constants hpool
    · dsimp only
      rw [OrderedMap.get?_insert, if_neg]
      · exact hk.constants hpool
      · rintro rfl
        simp_all

theorem Anchored.acquireTemp (h : t.Anchored) (type : VarType)
    (hfree : ∀ i ∈ (t.freeTemps.get? type).getD [], t.IsTemp i) : (t.acquireTemp type).2.Anchored := by
  unfold SymbolTable.acquireTemp
  split
  · rename_i id rest hlist
    refine ⟨⟨h.bound, h.names⟩, h.guids, fun {i} hi => ?_⟩
    rcases List.mem_cons.mp hi with rfl | hi
    · exact hfree _ (hlist ▸ List.mem_cons_self)
    · exact h.leases hi
  · generalize hv : (Variable.mk _ type _ .temp _ _ _ _ _ _) = v
    have hl := h.countUp.insert v
    refine ⟨⟨hl.bound, hl.names⟩, hl.guids, fun {i} hi => ?_⟩
    rcases List.mem_cons.mp hi with rfl | hi
    · exact ⟨v, get?_insert_self t.countUp v, by rw [← hv]⟩
    · exact hl.leases hi

/-- The handles on the list of a type. -/
theorem Consistent.temps_getD (h : t.Consistent) (type : VarType) :
    ∀ i ∈ (t.freeTemps.get? type).getD [], t.IsTemp i := by
  intro i hi
  cases hget : t.freeTemps.get? type with
  | none =>
    rw [hget] at hi
    cases hi
  | some ids =>
    rw [hget] at hi
    exact h.temps hget hi

theorem yields_acquireTemp (h : t.Consistent) (type : VarType) : t.Yields (t.acquireTemp type) := by
  have htemps := h.temps_getD type
  have hanchored := h.toAnchored.acquireTemp type htemps
  revert hanchored
  unfold acquireTemp
  split
  · rename_i id rest hlist
    intro hanchored
    rw [hlist] at htemps
    obtain ⟨v, hv, -⟩ := htemps id List.mem_cons_self
    refine ⟨⟨hanchored, h.named, h.constants, fun {type' ids i} hf hi => ?_, h.previous⟩,
      extends_of_vars_eq rfl rfl rfl, v, hv⟩
    dsimp only at hf
    rw [OrderedMap.get?_insert] at hf
    split at hf
    · cases hf
      exact htemps i (List.mem_cons_of_mem _ hi)
    · exact h.temps hf hi
  · generalize hv : (Variable.mk _ type _ .temp _ _ _ _ _ _) = v
    intro hanchored
    obtain ⟨hc, hk, hl⟩ := yields_countUp_insert (v := v) h (by rw [← hv])
    exact ⟨⟨hanchored, hc.named, hc.constants, hc.temps, hc.previous⟩,
      ⟨hk.vars, hk.names, hk.constants⟩, hl⟩

theorem isTemp_acquireTemp (h : t.Consistent) (type : VarType) :
    (t.acquireTemp type).2.IsTemp (t.acquireTemp type).1 := by
  apply (yields_acquireTemp h type).consistent.leases
  unfold acquireTemp
  split
  · exact List.mem_cons_self
  · exact List.mem_cons_self

theorem get?_modifyVar (t : SymbolTable) (id j : VarId) (f : Variable → Variable) :
    (t.modifyVar id f).get? j = if j = id then (t.get? j).map f else t.get? j :=
  t.vars.get?_modify id j f

theorem get?_modifyVar_eq_some {j : VarId} {f : Variable → Variable} {w : Variable} :
    (t.modifyVar id f).get? j = some w ↔
      ∃ v, t.get? j = some v ∧ w = if j = id then f v else v := by
  rw [get?_modifyVar]
  split
  · rw [Option.map_eq_some_iff]
    exact exists_congr fun v => and_congr_right fun _ => eq_comm
  · simp

theorem extends_modifyVar (t : SymbolTable) (id : VarId) {f : Variable → Variable}
    (hf : ∀ v : Variable, v.Same (f v)) : t.Extends (t.modifyVar id f) := by
  refine ⟨fun {j v} hv => ?_, fun hn => hn, fun hk => hk⟩
  rw [get?_modifyVar, hv]
  split
  · exact ⟨f v, rfl, hf v⟩
  · exact ⟨v, rfl, rfl, rfl, rfl, rfl⟩

theorem Grounded.modifyVar (h : t.Grounded) {f : Variable → Variable}
    (hname : ∀ v, (f v).name = v.name) (id : VarId) : (t.modifyVar id f).Grounded := by
  refine ⟨fun hw => ?_, fun hn => ?_⟩
  · obtain ⟨v, hv, -⟩ := get?_modifyVar_eq_some.mp hw
    exact h.bound hv
  · obtain ⟨v, hv, rfl⟩ := h.names hn
    refine ⟨_, get?_modifyVar_eq_some.mpr ⟨v, hv, rfl⟩, ?_⟩
    split
    · exact hname v
    · rfl

theorem Anchored.modifyVar (h : t.Anchored) {f : Variable → Variable}
    (hf : ∀ v : Variable, v.Same (f v)) (id : VarId) : (t.modifyVar id f).Anchored := by
  have hext := extends_modifyVar t id hf
  exact ⟨h.toGrounded.modifyVar (fun v => (hf v).name) id, fun hg => hext.live (h.guids hg),
    fun hin => hext.isTemp (h.leases hin)⟩

/-- A change of a variable that leaves its name, its type, its value and its kind alone, and links it
with a variable at most. -/
theorem consistent_modifyVar (h : t.Consistent) {f : Variable → Variable}
    (hf : ∀ v : Variable, v.Same (f v))
    (hprevious : ∀ v p, (f v).previous = some p → v.previous = some p ∨ t.Live p) (id : VarId) :
    (t.modifyVar id f).Consistent := by
  have hext := extends_modifyVar t id hf
  refine ⟨h.toAnchored.modifyVar hf id, fun {j w} hw => ?_, fun hk => ?_,
    fun hl hin => hext.isTemp (h.temps hl hin), fun {j p w} hw hp => ?_⟩
  · obtain ⟨v, hv, rfl⟩ := get?_modifyVar_eq_some.mp hw
    split
    · rw [(hf v).name]
      exact h.named hv
    · exact h.named hv
  · obtain ⟨v, hv, hkind, hkey⟩ := h.constants hk
    obtain ⟨w, hw, hsame⟩ := hext.vars hv
    exact ⟨w, hw, hsame.kind.trans hkind, by rw [hsame.default, hsame.type, hkey]⟩
  · obtain ⟨v, hv, rfl⟩ := get?_modifyVar_eq_some.mp hw
    apply hext.live
    split at hp
    · exact (hprevious v p hp).elim (h.previous hv) fun hlive => hlive
    · exact h.previous hv hp

theorem Anchored.releaseTemp (h : t.Anchored) (id : VarId) : (t.releaseTemp id).Anchored := by
  have hleases {i : VarId} (hi : i ∈ t.leased.filter (· ≠ id)) : t.IsTemp i :=
    h.leases (List.mem_filter.mp hi).1
  unfold SymbolTable.releaseTemp
  split
  · dsimp only
    split
    · exact ⟨⟨h.bound, h.names⟩, h.guids, hleases⟩
    · exact ⟨⟨h.bound, h.names⟩, h.guids, hleases⟩
  · exact h

theorem consistent_releaseTemp (h : t.Consistent) (id : VarId) : (t.releaseTemp id).Consistent := by
  have hanchored := h.toAnchored.releaseTemp id
  revert hanchored
  unfold releaseTemp
  split
  · rename_i hleased
    dsimp only
    split
    · rename_i v hv
      refine fun hanchored => ⟨hanchored, h.named, h.constants, fun {type ids i} hf hin => ?_, h.previous⟩
      dsimp only at hf
      rw [OrderedMap.get?_insert] at hf
      split at hf
      · cases hf
        rcases List.mem_cons.mp hin with rfl | hin
        · exact h.leases hleased
        · exact h.temps_getD v.type _ hin
      · exact h.temps hf hin
    · exact fun hanchored => ⟨hanchored, h.named, h.constants, h.temps, h.previous⟩
  · exact fun _ => h

theorem Anchored.bindGuid (h : t.Anchored) (hid : t.Live id) (guid : Guid) : (t.bindGuid guid id).Anchored := by
  refine ⟨⟨h.bound, h.names⟩, fun {guid' id'} hg => ?_, h.leases⟩
  rw [SymbolTable.bindGuid, OrderedMap.get?_insert] at hg
  split at hg
  · cases hg
    exact hid
  · exact h.guids hg

theorem consistent_bindGuid (h : t.Consistent) (hid : t.Live id) (guid : Guid) :
    (t.bindGuid guid id).Consistent :=
  ⟨h.toAnchored.bindGuid hid guid, h.named, h.constants, h.temps, h.previous⟩

theorem Anchored.unbind (h : t.Anchored) (id : VarId) : (t.unbind id).Anchored := by
  refine ⟨⟨h.bound, h.names⟩, fun {guid' id'} hg => ?_, h.leases⟩
  rw [SymbolTable.unbind, OrderedMap.get?_filter] at hg
  exact h.guids (Option.filter_eq_some_iff.mp hg).1

theorem consistent_unbind (h : t.Consistent) (id : VarId) : (t.unbind id).Consistent :=
  ⟨h.toAnchored.unbind id, h.named, h.constants, h.temps, h.previous⟩

/-- A declaration inserts the variable that the author describes. -/
theorem declareUser_eq_ok {d : VariableDecl} {r : VarId × SymbolTable}
    (h : t.declareUser d = .ok r) :
    t.names.contains d.name = false ∧ t.guids.contains d.guid = false ∧ r = t.insert
      { name := d.name, type := d.type, default := d.initialValue, kind := .user, sync := d.sync,
        exported := d.exported, global := true, guid := some d.guid } := by
  unfold declareUser at h
  split at h
  · cases h
  · rename_i hname
    split at h
    · cases h
    · rename_i hguid
      cases h
      exact ⟨by simpa using hname, by simpa using hguid, rfl⟩

theorem get?_declareUser {d : VariableDecl} (h : t.declareUser d = .ok (id, t')) :
    t'.get? id = some
      { name := d.name, type := d.type, default := d.initialValue, kind := .user, sync := d.sync,
        exported := d.exported, global := true, guid := some d.guid } := by
  obtain ⟨-, -, heq⟩ := declareUser_eq_ok h
  obtain ⟨rfl, rfl⟩ := Prod.mk.inj heq
  exact get?_insert_self t _

theorem yields_declareLocal (h : t.Consistent) (name : String) (type : VarType) :
    t.Yields (t.declareLocal name type) := yields_countUp_insert h rfl

theorem yields_declareInternal (h : t.Consistent) (name : String) (type : VarType)
    (value : Value) : t.Yields (t.declareInternal name type value) := yields_getOrInsert h rfl

theorem yields_declareEventParam (h : t.Consistent) (name : String) (type : VarType) :
    t.Yields (t.declareEventParam name type) := yields_getOrInsert h rfl

theorem yields_declareImported (h : t.Consistent) (name : String) (source : Variable) :
    t.Yields (t.declareImported name source) := yields_getOrInsert h rfl

theorem yields_system (h : t.Consistent) (which : SystemVariable) : t.Yields (t.system which) :=
  yields_getOrInsert h rfl

theorem Yields.bindGuid {r : VarId × SymbolTable} (h : t.Yields r) (guid : Guid) :
    t.Yields (r.1, r.2.bindGuid guid r.1) :=
  ⟨consistent_bindGuid h.consistent h.live guid, h.keeps.trans (extends_of_vars_eq rfl rfl rfl),
    h.live⟩

/-! ### Previous values -/

/-- A table with the variable for a previous value, and with the link to it. -/
def shadowed (t : SymbolTable) (id : VarId) (v : Variable) : SymbolTable :=
  (t.insert v.shadow).2.modifyVar id fun v => { v with previous := some t.nextId }

/-- A request for the variable of a previous value leaves the table as it is or adds the variable. -/
theorem ensurePrevious_cases (t : SymbolTable) (id : VarId) :
    (t.ensurePrevious id).2 = t ∨
      ∃ v, t.get? id = some v ∧ v.previous = none ∧ (t.ensurePrevious id).2 = t.shadowed id v := by
  unfold ensurePrevious
  split
  · exact Or.inl rfl
  · rename_i v hv
    split
    · exact Or.inl rfl
    · rename_i hnone
      exact Or.inr ⟨v, hv, hnone, rfl⟩

theorem Grounded.get?_shadowed (h : t.Grounded) (hv : t.get? id = some v) (j : VarId) :
    (t.shadowed id v).get? j = if j = id then some { v with previous := some t.nextId }
      else if t.nextId = j then some v.shadow else t.get? j := by
  rw [shadowed, get?_modifyVar, get?_insert]
  split
  · rename_i hj
    subst hj
    rw [if_neg (h.ne_nextId ⟨v, hv⟩), hv]
    rfl
  · rfl

end SymbolTable

end TriggerCompiler
