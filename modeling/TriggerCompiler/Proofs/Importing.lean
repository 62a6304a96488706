import TriggerCompiler.Linking.Merge
import TriggerCompiler.Proofs.HeapNames

/-! The heap of a caller while a module is merged into it. The variables that are there stay as they
are; the new ones are copies of the module's variables, which have the module's beginning of names, and
variables that the caller shares with its modules: constants, system variables, and the storage of
event parameters. -/

namespace TriggerCompiler

open Text

/-- Whether a name is the one of an instance's own copy of a module variable, the beginning apart. -/
def Linkable.IsSlotName (m : Linkable) (base name : String) : Prop :=
  m.interface.multiInstance = true ∧ ∃ k : Nat, name = "i" ++ toString k ++ "_" ++ base

/-- Whether a name is that of a module variable which gets a copy: it belongs to no nested module, and
the copy has the module's beginning of names. -/
structure Renaming.Copies (names : Renaming) (w : Variable) (x : String) : Prop where
  name : x = w.name
  own : w.name ∉ names.shared
  symbol : names.symbols.get? w.name = some (names.namePrefix ++ w.name)

/-- The constant that a pool makes of a type and a value. -/
structure Variable.IsConstant (type : VarType) (value : Value) (v : Variable) : Prop where
  kind : v.kind = .constant
  name : ∃ n : Nat, v.name = "__const_" ++ type.machineName ++ "_" ++ toString n
  type : v.type = type
  default : v.default = value

/-- The variables that the merge of a module adds to the heap of a caller. -/
inductive Variable.IsImport (m : Linkable) (names : Renaming) : Variable → Prop
  /-- A copy of a variable, or the copy that an instance has of its own. -/
  | copied {id : VarId} {w v : Variable} {x : String} : m.program.symbols.get? id = some w →
      w.kind ≠ .constant → w.kind ≠ .system → v.kind = .imported → v.name = names.namePrefix ++ x →
      names.Copies w x ∨ m.IsSlotName w.name x → v.type = w.type → v.default = w.default →
      IsImport m names v
  | constant {id : VarId} {w v : Variable} : m.program.symbols.get? id = some w →
      w.kind = .constant → v.IsConstant w.type (names.value w.default) → IsImport m names v
  | system (which : SystemVariable) : IsImport m names which.toVariable
  | eventParam {id : VarId} {w : Variable} : m.program.symbols.get? id = some w →
      w.kind = .eventParam → IsImport m names
        { name := w.name, type := w.type, default := w.type.defaultValue, kind := .eventParam }

namespace Variable.IsImport

variable {m : Linkable} {names : Renaming} {v w : Variable}

theorem kind_ne (h : IsImport m names v) : v.kind ≠ .internal ∧ v.kind ≠ .user := by
  cases h with
  | copied _ _ _ hkind _ _ _ _ => simp [hkind]
  | constant _ _ hv => simp [hv.kind]
  | system which => simp [SystemVariable.toVariable]
  | eventParam _ _ => simp

theorem of_same (h : IsImport m names v) (hkind : v.kind = .imported) (hsame : v.Same w) :
    IsImport m names w := by
  cases h with
  | copied hw hconstant hsystem _ hname hx htype hdefault =>
    exact .copied hw hconstant hsystem (hsame.kind.trans hkind) (hsame.name.trans hname) hx
      (hsame.type.trans htype) (hsame.default.trans hdefault)
  | constant _ _ hv => simp [hv.kind] at hkind
  | system which => simp [SystemVariable.toVariable] at hkind
  | eventParam _ _ => simp at hkind

end Variable.IsImport

namespace SymbolTable

variable {t t' t'' : SymbolTable} {id : VarId} {v : Variable} {P Q : Variable → Prop}

/-- A heap with the variables of another one, as they are, and with further variables of a sort; a new
constant is found by its type and value. -/
structure Adds (P : Variable → Prop) (t t' : SymbolTable) : Prop where
  old {id : VarId} {v : Variable} : t.get? id = some v → t'.get? id = some v
  new {id : VarId} {v : Variable} : t'.get? id = some v →
    t.get? id = some v ∨ t.get? id = none ∧ P v
  guids : t'.guids = t.guids
  constants {key : String} {id : VarId} : t.constants.get? key = some id →
    t'.constants.get? key = some id
  pooled {id : VarId} {v : Variable} : t'.get? id = some v → t.get? id = none →
    v.kind = .constant → t'.constants.get? (v.default.poolKey v.type) = some id

namespace Adds

theorem refl (P : Variable → Prop) (t : SymbolTable) : Adds P t t :=
  ⟨fun h => h, Or.inl, rfl, fun h => h, fun hv hnone => by rw [hv] at hnone; cases hnone⟩

theorem trans (h : Adds P t t') (h' : Adds P t' t'') : Adds P t t'' := by
  refine ⟨fun hv => h'.old (h.old hv), fun {id v} hv => ?_, h'.guids.trans h.guids,
    fun hk => h'.constants (h.constants hk), fun {id v} hv hnone hkind => ?_⟩
  · rcases h'.new hv with hv | ⟨hnone, hP⟩
    · exact h.new hv
    · refine Or.inr ⟨?_, hP⟩
      cases hget : t.get? id with
      | none => rfl
      | some w =>
        rw [h.old hget] at hnone
        cases hnone
  · rcases h'.new hv with hmid | ⟨hmid, -⟩
    · exact h'.constants (h.pooled hmid hnone hkind)
    · exact h'.pooled hv hmid hkind

theorem insert (hc : t.Consistent) (hguid : v.guid = none) (hkind : v.kind ≠ .constant) (hP : P v) :
    Adds P t (t.insert v).2 := by
  refine ⟨fun {id w} hw => ?_, fun {id w} hw => ?_, ?_, fun hk => hk, fun {id w} hw hnone hw' => ?_⟩
  · rw [hc.get?_insert_of_live ⟨w, hw⟩, hw]
  · rw [get?_insert] at hw
    split at hw
    · rename_i heq
      cases hw
      exact Or.inr ⟨heq ▸ hc.get?_nextId, hP⟩
    · exact Or.inl hw
  · rw [SymbolTable.insert, hguid]
  · rw [get?_insert] at hw
    split at hw
    · cases hw
      exact absurd hw' hkind
    · rw [hw] at hnone
      cases hnone

theorem getOrInsert (hc : t.Consistent) (hguid : v.guid = none) (hkind : v.kind ≠ .constant)
    (hP : P v) :
    Adds P t (t.getOrInsert v).2 := by
  unfold SymbolTable.getOrInsert
  split
  · exact refl P t
  · exact insert hc hguid hkind hP

theorem constant (hc : t.Consistent) (type : VarType) (value : Value)
    (hP : ∀ v : Variable, v.IsConstant type value → P v) :
    Adds P t (t.constant type value).2 := by
  unfold SymbolTable.constant
  dsimp only
  split
  · exact refl P t
  · rename_i hfree
    generalize hv : (Variable.mk _ type value .constant _ _ _ _ _ _) = v
    have hget := get?_insert t.countUp v
    refine ⟨fun {id w} hw => ?_, fun {id w} hw => ?_, ?_, fun {key id} hk => ?_,
      fun {id w} hw hnone _ => ?_⟩
    · exact (hc.countUp.get?_insert_of_live ⟨w, hw⟩ v).trans hw
    · replace hw : (t.countUp.insert v).2.get? id = some w := hw
      rw [hget] at hw
      split at hw
      · rename_i heq
        cases hw
        refine Or.inr ⟨heq ▸ hc.get?_nextId, hP v ?_⟩
        rw [← hv]
        exact ⟨rfl, ⟨_, rfl⟩, rfl, rfl⟩
      · exact Or.inl hw
    · rw [← hv]
      rfl
    · dsimp only
      rw [OrderedMap.get?_insert, if_neg]
      · exact hk
      · rintro rfl
        rw [hk] at hfree
        cases hfree
    · replace hw : (t.countUp.insert v).2.get? id = some w := hw
      rw [hget] at hw
      split at hw
      · rename_i heq
        cases hw
        subst heq
        rw [← hv]
        dsimp only
        rw [OrderedMap.get?_insert, if_pos rfl]
        rfl
      · rw [show t.countUp.get? id = t.get? id from rfl, hnone] at hw
        cases hw

end Adds

/-- No variable has the beginning of names of a merge. -/
def Unmerged (t : SymbolTable) (ordinal : Nat) : Prop :=
  ∀ ⦃id v⦄, t.get? id = some v → ¬Begins (mergedPrefix ordinal) v.name

/-- A heap to which the merge of a module has added variables. -/
structure Imported (m : Linkable) (names : Renaming) (t t' : SymbolTable) : Prop
    extends Adds (Variable.IsImport m names) t t' where
  consistent : t'.Consistent
  proper : t'.Proper

namespace Imported

variable {m : Linkable} {names : Renaming} {w : Variable}

theorem refl (hc : t.Consistent) (hp : t.Proper) : Imported m names t t :=
  ⟨.refl _ t, hc, hp⟩

theorem add (h : Imported m names t t')
    (hadds : Adds (Variable.IsImport m names) t' t'') (hc : t''.Consistent)
    (hp : t''.Proper) : Imported m names t t'' :=
  ⟨h.toAdds.trans hadds, hc, hp⟩

theorem system (h : Imported m names t t') (which : SystemVariable) :
    Imported m names t (t'.system which).2 :=
  h.add (.getOrInsert h.consistent rfl (by simp [SystemVariable.toVariable]) (.system which))
    (yields_system h.consistent which).consistent (h.proper.system h.consistent which)

theorem constant (h : Imported m names t t') (hw : m.program.symbols.get? id = some w)
    (hkind : w.kind = .constant) :
    Imported m names t (t'.constant w.type (names.value w.default)).2 := by
  have hyields := yields_constant h.consistent w.type (names.value w.default)
  exact h.add (.constant h.consistent _ _ fun _ => .constant hw hkind) hyields.consistent
    (h.proper.constant h.consistent _ _)

theorem eventParam (h : Imported m names t t') (hw : m.program.symbols.get? id = some w)
    (hkind : w.kind = .eventParam) (hname : Emit.isVariableName w.name = true) :
    Imported m names t (t'.declareEventParam w.name w.type).2 := by
  refine h.add (.getOrInsert h.consistent rfl (by simp) (.eventParam hw hkind))
    (yields_declareEventParam h.consistent w.name w.type).consistent ?_
  exact h.proper.getOrInsert h.consistent hname rfl (not_begins_of_isVariableName hname (by decide))
    (by simp) rfl

/-- A variable with the beginning of names of the merge has been added by the merge. -/
theorem isNew (h : Imported m names t t') {ordinal : Nat} (hfresh : t.Unmerged ordinal)
    (hv : t'.get? id = some v) (hname : Begins (mergedPrefix ordinal) v.name) :
    t.get? id = none ∧ v.kind = .imported := by
  have hm : Begins "__m" v.name := by
    obtain ⟨x, hx⟩ := begins_iff.mp hname
    rw [hx]
    exact begins_mergedPrefix ordinal x
  have hkind : v.kind = .imported :=
    (h.proper.fits hv).eq_of_begins (List.mem_singleton_self _) hm
  rcases h.new hv with hold | ⟨hnone, -⟩
  · exact absurd hname (hfresh hold)
  · exact ⟨hnone, hkind⟩

/-- A change of a variable that the merge has added. -/
theorem modify (h : Imported m names t t') (hp : t.Proper)
    (hnew : ∀ v, t'.get? id = some v → t.get? id = none ∧ v.kind = .imported)
    {f : Variable → Variable} (hsame : ∀ v : Variable, v.Same (f v))
    (hprevious : ∀ v p, (f v).previous = some p → v.previous = some p ∨ t'.Live p) :
    Imported m names t (t'.modifyVar id f) := by
  have hget := fun j => get?_modifyVar t' id j f
  refine ⟨⟨fun {j v} hv => ?_, fun {j v} hv => ?_, h.guids, h.constants,
    fun {j v} hv hnone hkind => ?_⟩, ?_, ?_⟩
  · rw [hget, h.old hv]
    split
    · rename_i heq
      subst heq
      rw [(hnew v (h.old hv)).1] at hv
      cases hv
    · rfl
  · rw [hget] at hv
    split at hv
    · rename_i heq
      subst heq
      obtain ⟨w, hw, rfl⟩ := Option.map_eq_some_iff.mp hv
      obtain ⟨hnone, hkind⟩ := hnew w hw
      rcases h.new hw with hold | ⟨-, himport⟩
      · rw [hnone] at hold
        cases hold
      · exact Or.inr ⟨hnone, himport.of_same hkind (hsame w)⟩
    · exact h.new hv
  · rw [hget] at hv
    split at hv
    · rename_i heq
      subst heq
      obtain ⟨w, hw, rfl⟩ := Option.map_eq_some_iff.mp hv
      rw [(hsame w).kind, (hnew w hw).2] at hkind
      cases hkind
    · exact h.pooled hv hnone hkind
  · exact consistent_modifyVar h.consistent hsame hprevious _
  · refine h.proper.modifyVar (fun v => (hsame v).name) (fun v => (hsame v).kind)
      (fun v hv _ => Or.inr (hnew v hv).2) fun v p w hv hlink hw hname => ?_
    -- The variables for previous values are older than the merge, and so are their owners.
    have hold : t.get? p = some w := by
      refine (h.new hw).resolve_right fun himport => himport.2.kind_ne.1 ?_
      exact (h.proper.fits hw).eq_of_begins (by decide) (hname ▸ begins_append _ _)
    obtain ⟨j, u, hu, huname, -⟩ := hp.shadow hold hname
    have hj : j = id := by
      have hj := h.proper.unique (h.old hu)
      rw [huname, h.proper.unique hv] at hj
      exact (Option.some.inj hj).symm
    rw [hj, (hnew v hv).1] at hu
    cases hu

/-- A copy of a variable of the module. -/
theorem copy (h : Imported m names t t') {ordinal : Nat}
    (hbeginning : names.namePrefix = mergedPrefix ordinal) (hw : m.program.symbols.get? id = some w)
    (hconstant : w.kind ≠ .constant) (hsystem : w.kind ≠ .system) {x : String}
    (hx : names.Copies w x ∨ m.IsSlotName w.name x) :
    Imported m names t (t'.declareImported (names.namePrefix ++ x) w).2 := by
  refine h.add (.getOrInsert h.consistent rfl (by simp)
    (.copied hw hconstant hsystem rfl rfl hx rfl rfl)) (yields_getOrInsert h.consistent rfl).consistent ?_
  rw [hbeginning]
  refine h.proper.getOrInsert h.consistent (begins_mergedPrefix ordinal x) rfl (fun hprev => ?_)
    (fun _ => Or.inr rfl) rfl
  rcases hprev.or (begins_mergedPrefix ordinal x) with hor | hor
  · exact absurd hor (by decide)
  · exact absurd hor (by decide)

end Imported

end SymbolTable

end TriggerCompiler
