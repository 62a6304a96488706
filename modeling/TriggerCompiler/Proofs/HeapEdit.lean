import TriggerCompiler.Proofs.Footprint
import TriggerCompiler.Proofs.Merging

/-! What emission does to the heap: it makes one elementary change after the other. Each keeps the names of
the variables apart, with the events of every program; and the variables that it adds, pooled constants
apart, are of a few sorts. So at every point only variables of the author are watched by the program
itself, and the variables that its actions may use belong to no module. -/

namespace TriggerCompiler

open Text

namespace SymbolTable

variable {F : Footprint} {t t' : SymbolTable}

/-- The parameters of the events of every program are stored under names that an author could give. -/
theorem isVariableName_storage {name : String} {d : EventDef} {spec : EventParamSpec}
    (hd : Catalogue.builtin.event? name = some d) (hspec : spec ∈ d.params) :
    Emit.isVariableName spec.storage = true := by
  have hall : Catalogue.builtin.events.entries.all (fun e =>
      e.2.params.all fun spec => Emit.isVariableName spec.storage) = true := by decide
  have hentry := List.all_eq_true.mp hall _ (OrderedMap.get?_eq_some_iff.mp hd)
  exact List.all_eq_true.mp hentry spec hspec

theorem Proper.bindGuid_getOrInsert (h : t.Proper) (hc : t.Consistent) {v : Variable}
    (hfits : v.kind.Admits t.counter v.name) (hprevious : v.previous = none)
    (hchange : v.onChange = none) (hguid : v.guid = none)
    (hplain : ∀ start, Begins "__" start → ¬Begins start v.name) (guid : Guid) :
    ((t.getOrInsert v).2.bindGuid guid (t.getOrInsert v).1).Proper := by
  have hproper := h.getOrInsert hc hfits hprevious (hplain _ (by decide))
    (by rw [hchange]; simp) hguid
  refine hproper.bindGuid guid fun w hw himported => ?_
  -- The variable has the requested name, which is no name of an imported variable.
  have hname : w.name = v.name := hc.name_getOrInsert hw
  have hbegins := hproper.fits hw
  rw [himported, hname] at hbegins
  exact hplain _ (by decide) hbegins

theorem begins_symbol (position : LiteralPosition) : Begins "__refconst_" position.symbol := by
  have hstart : Begins "__refconst_" "__refconst_e" := by decide
  unfold LiteralPosition.symbol
  split
  · exact hstart.trans (begins_iff.mpr ⟨_, by simp only [String.append_assoc]; rfl⟩)
  · exact hstart.trans (begins_iff.mpr ⟨_, by simp only [String.append_assoc]; rfl⟩)

/-- A change keeps the names of the variables apart if the parameters of events are stored under names
that an author could give. -/
theorem Edit.proper (hF : ∀ spec, F.params spec → Emit.isVariableName spec.storage = true)
    (h : t.Edit F t') (hc : t.Consistent) (hp : t.Proper) : t'.Proper := by
  have hreplay (start : String) (hstart : Begins "__replay" start) (event : Nat) :
      (t.declareInternal (start ++ toString event) .int (.int 0)).2.Proper := by
    have hbegins := hstart.trans (begins_append start (toString event))
    refine hp.getOrInsert hc (Or.inr (Or.inl hbegins)) rfl (fun hprev => ?_) (by simp) rfl
    rcases hprev.or hbegins with hor | hor
    · exact absurd hor (by decide)
    · exact absurd hor (by decide)
  cases h with
  | declared _ hname h => exact hp.declareUser hc hname h
  | @watched d id t' _ hname h =>
    refine (hp.declareUser hc hname h).modifyVar (fun _ => rfl) (fun _ => rfl) (fun v hv _ => ?_)
      fun _ _ _ _ hlink _ _ => hlink
    rw [get?_declareUser h] at hv
    cases hv
    exact Or.inl rfl
  | @literal position type value _ =>
    have hbegins := begins_symbol position
    refine hp.getOrInsert hc hbegins rfl (fun hprev => ?_) (by simp) rfl
    rcases hprev.or hbegins with hor | hor
    · exact absurd hor (by decide)
    · exact absurd hor (by decide)
  | system which => exact hp.system hc which
  | loopIndex _ => exact hp.declareLocal hc _ _
  | boundLocal _ type =>
    refine (hp.declareLocal hc _ type).bindGuid _ fun v hv => ?_
    rw [declareLocal, show (t.countUp.insert _).1 = t.countUp.nextId from rfl,
      get?_insert_self] at hv
    cases hv
    show VariableKind.blockLocal ≠ .imported
    decide
  | parameter _ hlegal hplain =>
    refine hp.bindGuid_getOrInsert hc ?_ rfl rfl rfl ?_ _
    · exact Or.inr (Or.inr ⟨_, _, hlegal, hplain, rfl⟩)
    · exact fun _ hunder => not_begins_customParamVariable hlegal hplain hunder
  | eventParam guid hspec =>
    have hname := hF _ hspec
    refine hp.bindGuid_getOrInsert hc ?_ rfl rfl rfl ?_ guid
    · exact hname
    · exact fun _ hunder => not_begins_of_isVariableName hname hunder
  | replayCounter event =>
    exact (hreplay _ (by decide) _).modifyVar (fun _ => rfl) (fun _ => rfl)
      (fun _ hv hon => (hreplay _ (by decide) _).watched hv hon) fun _ _ _ _ hlink _ _ => hlink
  | replayedCounter event => exact hreplay _ (by decide) _
  | leased type => exact hp.acquireTemp hc type
  | released id => exact hp.releaseTemp id
  | unbound _ id => exact hp.unbind id
  | shadowed hv hwatched => exact hp.ensurePrevious hc hv hwatched

end SymbolTable

/-! ### The variables that emission adds -/

/-- The variables that emission adds to a heap, up to what may change later. -/
inductive Variable.IsMade (F : Footprint) (t : SymbolTable) (v : Variable) : Prop
  | declared {d : VariableDecl} (hd : F.vars d)
      (hlegal : Emit.isVariableName d.name = true) (hkind : v.kind = .user) (hname : v.name = d.name)
      (hdefault : v.default = d.initialValue)
      (hchange : ∀ x, v.onChange = some x → x = changeMethod d.name)
  | literal {position : LiteralPosition} (h : F.literals position v.type v.default)
      (hkind : v.kind = .literal) (hname : v.name = position.symbol)
  | system (which : SystemVariable) (hkind : v.kind = .system) (hname : v.name = which.name)
      (hdefault : v.default = which.defaultValue)
  | blockLocal {name : String} {n : Nat}
      (hlocal : name = "index" ∨ ∃ guid, F.locals guid name)
      (hkind : v.kind = .blockLocal) (hname : v.name = "__lcl_" ++ name ++ "_" ++ toString n)
      (hdefault : v.default = v.type.defaultValue)
  | temp {n : Nat} (hkind : v.kind = .temp) (hname : v.name = "__tmp_" ++ toString n)
      (hdefault : v.default = v.type.defaultValue)
  | parameter {name : String} {p : ParamDecl} (h : F.customs name p)
      (hlegal : Emit.isVariableName name = true) (hplain : startsWithUnderscore name = false)
      (hkind : v.kind = .internal) (hname : v.name = customParamVariable name p.name)
      (hdefault : v.default = v.type.defaultValue)
  | eventParam {spec : EventParamSpec} (hspec : F.params spec)
      (hkind : v.kind = .eventParam) (hname : v.name = spec.storage)
      (hdefault : v.default = v.type.defaultValue)
  | counter {start : String} {n : Nat} (hkind : v.kind = .internal)
      (hstart : start ∈ ["__replay_", "__replayed_"]) (hname : v.name = start ++ toString n)
      (hdefault : v.default = .int 0)
  | shadow {id : VarId} {w : Variable} (hw : t.get? id = some w) (hwatched : w.onChange.isSome = true)
      (hkind : v.kind = .internal) (hname : v.name = "__prev_" ++ w.name)
      (hdefault : v.default = w.default)

namespace Variable.IsMade

variable {F : Footprint} {t : SymbolTable} {v w : Variable}

theorem of_same (h : v.IsMade F t) (hsame : v.Same w) (honChange : w.onChange = v.onChange) :
    w.IsMade F t := by
  cases h with
  | declared hd hlegal hkind hname hdefault hchange =>
    exact .declared hd hlegal (hsame.kind.trans hkind) (hsame.name.trans hname)
      (hsame.default.trans hdefault) (honChange ▸ hchange)
  | literal h hkind hname =>
    exact .literal (by rwa [hsame.type, hsame.default]) (hsame.kind.trans hkind)
      (hsame.name.trans hname)
  | system which hkind hname hdefault =>
    exact .system which (hsame.kind.trans hkind) (hsame.name.trans hname)
      (hsame.default.trans hdefault)
  | blockLocal hlocal hkind hname hdefault =>
    exact .blockLocal hlocal (hsame.kind.trans hkind) (hsame.name.trans hname)
      (by rw [hsame.default, hsame.type, hdefault])
  | temp hkind hname hdefault =>
    exact .temp (hsame.kind.trans hkind) (hsame.name.trans hname)
      (by rw [hsame.default, hsame.type, hdefault])
  | parameter h hlegal hplain hkind hname hdefault =>
    exact .parameter h hlegal hplain (hsame.kind.trans hkind) (hsame.name.trans hname)
      (by rw [hsame.default, hsame.type, hdefault])
  | eventParam hspec hkind hname hdefault =>
    exact .eventParam hspec (hsame.kind.trans hkind) (hsame.name.trans hname)
      (by rw [hsame.default, hsame.type, hdefault])
  | counter hkind hstart hname hdefault =>
    exact .counter (hsame.kind.trans hkind) hstart (hsame.name.trans hname)
      (hsame.default.trans hdefault)
  | shadow hw hwatched hkind hname hdefault =>
    exact .shadow hw hwatched (hsame.kind.trans hkind) (hsame.name.trans hname)
      (hsame.default.trans hdefault)

theorem kind_ne (h : v.IsMade F t) : v.kind ≠ .imported ∧ v.kind ≠ .constant := by
  cases h with
  | _ => simp [*]

theorem changeMethod_of_user (h : v.IsMade F t) (huser : v.kind = .user) {x : String}
    (hx : v.onChange = some x) : x = changeMethod v.name := by
  cases h with
  | declared _ _ _ hname _ hchange => exact hname ▸ hchange x hx
  | _ => simp_all

end Variable.IsMade

namespace SymbolTable

variable {F : Footprint} {t t' : SymbolTable} {P : Variable → Prop}

/-- Every variable of a table is one of another table, up to what may change, or a new one of a sort. -/
def Grown (P : Variable → Prop) (t t' : SymbolTable) : Prop :=
  ∀ ⦃id v⦄, t'.get? id = some v →
    (∃ w, t.get? id = some w ∧ w.Same v ∧ v.onChange = w.onChange) ∨ t.get? id = none ∧ P v

theorem grown_of_vars_eq (h : t'.vars = t.vars) : Grown P t t' := by
  intro id v hv
  rw [get?, h] at hv
  exact Or.inl ⟨v, hv, ⟨rfl, rfl, rfl, rfl⟩, rfl⟩

theorem grown_insert (hc : t.Consistent) {v : Variable} (hP : P v) : Grown P t (t.insert v).2 := by
  intro id w hw
  rw [get?_insert] at hw
  split at hw
  · rename_i heq
    cases hw
    exact Or.inr ⟨heq ▸ hc.get?_nextId, hP⟩
  · exact Or.inl ⟨w, hw, ⟨rfl, rfl, rfl, rfl⟩, rfl⟩

theorem grown_getOrInsert (hc : t.Consistent) {v : Variable} (hP : P v) :
    Grown P t (t.getOrInsert v).2 := by
  unfold getOrInsert
  split
  · exact grown_of_vars_eq rfl
  · exact grown_insert hc hP

/-- A new variable may be changed at once. -/
theorem grown_insert_modifyVar (hc : t.Consistent) {v : Variable} {f : Variable → Variable}
    (hP : P (f v)) : Grown P t ((t.insert v).2.modifyVar t.nextId f) := by
  intro id w hw
  rw [get?_modifyVar, get?_insert] at hw
  by_cases hid : t.nextId = id
  · subst hid
    rw [if_pos rfl, if_pos rfl] at hw
    cases hw
    exact Or.inr ⟨hc.get?_nextId, hP⟩
  · rw [if_neg (Ne.symm hid), if_neg hid] at hw
    exact Or.inl ⟨w, hw, ⟨rfl, rfl, rfl, rfl⟩, rfl⟩

theorem Grown.modifyVar (h : Grown P t t') {f : Variable → Variable}
    (hf : ∀ v : Variable, v.Same (f v) ∧ (f v).onChange = v.onChange)
    (hP : ∀ v w : Variable, v.Same w → w.onChange = v.onChange → P v → P w) (id : VarId) :
    Grown P t (t'.modifyVar id f) := by
  intro j v hv
  rw [get?_modifyVar] at hv
  split at hv
  · obtain ⟨u, hu, rfl⟩ := Option.map_eq_some_iff.mp hv
    obtain ⟨hfu, hchange⟩ := hf u
    rcases h hu with ⟨w, hw, hsame, honChange⟩ | ⟨hnone, hu⟩
    · exact Or.inl ⟨w, hw, ⟨hfu.name.trans hsame.name, hfu.type.trans hsame.type,
        hfu.default.trans hsame.default, hfu.kind.trans hsame.kind⟩, hchange.trans honChange⟩
    · exact Or.inr ⟨hnone, hP _ _ hfu hchange hu⟩
  · exact h hv

/-- What a change adds to the heap. -/
theorem Edit.made (h : t.Edit F t') (hc : t.Consistent) : Grown (Variable.IsMade F t) t t' := by
  have hsame := fun (v w : Variable) (hs : v.Same w) (honChange : w.onChange = v.onChange)
    (hv : v.IsMade F t) => hv.of_same hs honChange
  cases h with
  | declared hd hname h =>
    obtain ⟨-, -, heq⟩ := declareUser_eq_ok h
    obtain ⟨-, rfl⟩ := Prod.mk.inj heq
    exact grown_insert hc (.declared hd hname rfl rfl rfl (by simp))
  | watched hd hname h =>
    obtain ⟨-, -, heq⟩ := declareUser_eq_ok h
    obtain ⟨rfl, rfl⟩ := Prod.mk.inj heq
    exact grown_insert_modifyVar hc (.declared hd hname rfl rfl rfl (by simp))
  | literal h => exact grown_getOrInsert hc (.literal h rfl rfl)
  | system which => exact grown_getOrInsert hc (.system which rfl rfl rfl)
  | loopIndex _ =>
    exact grown_insert (t := t.countUp) hc.countUp (.blockLocal (Or.inl rfl) rfl rfl rfl)
  | boundLocal h type =>
    exact grown_insert (t := t.countUp) hc.countUp (.blockLocal (Or.inr ⟨_, h⟩) rfl rfl rfl)
  | parameter h hlegal hplain =>
    exact grown_getOrInsert hc (.parameter h hlegal hplain rfl rfl rfl)
  | eventParam guid hspec => exact grown_getOrInsert hc (.eventParam hspec rfl rfl rfl)
  | replayCounter event =>
    refine Grown.modifyVar (grown_getOrInsert hc ?_) ?_ hsame _
    · exact .counter rfl List.mem_cons_self rfl rfl
    · exact fun _ => ⟨⟨rfl, rfl, rfl, rfl⟩, rfl⟩
  | replayedCounter event =>
    exact grown_getOrInsert hc (.counter rfl (List.mem_cons_of_mem _ List.mem_cons_self) rfl rfl)
  | leased type =>
    unfold acquireTemp
    split
    · exact grown_of_vars_eq rfl
    · exact grown_insert (t := t.countUp) hc.countUp (.temp rfl rfl rfl)
  | released id =>
    unfold releaseTemp
    split
    · dsimp only
      split
      · exact grown_of_vars_eq rfl
      · exact grown_of_vars_eq rfl
    · exact grown_of_vars_eq rfl
  | unbound _ id => exact grown_of_vars_eq rfl
  | shadowed hv hwatched =>
    rcases ensurePrevious_cases t _ with heq | ⟨v', hv', -, heq⟩
    · rw [heq]
      exact grown_of_vars_eq rfl
    · rw [hv] at hv'
      cases hv'
      rw [heq]
      refine Grown.modifyVar (grown_insert hc ?_) ?_ hsame _
      · exact .shadow hv hwatched rfl rfl rfl
      · exact fun _ => ⟨⟨rfl, rfl, rfl, rfl⟩, rfl⟩

/-! ### Names apart -/

variable {ordinal : Nat}

/-- Names are proper, and those of modules carry the numbers of merges that have been made. -/
structure Apart (t : SymbolTable) (ordinal : Nat) : Prop where
  consistent : t.Consistent
  proper : t.Proper
  merged {id : VarId} {v : Variable} : t.get? id = some v → v.kind = .imported →
    ∃ k < ordinal, Begins (mergedPrefix k) v.name

theorem apart_empty (ordinal : Nat) : ({} : SymbolTable).Apart ordinal where
  consistent := consistent_empty
  proper := proper_empty
  merged hv := by cases hv

/-- No name on the heap begins as the names of the next merge do. -/
theorem Apart.unmerged (h : t.Apart ordinal) : t.Unmerged ordinal := by
  intro id v hv hbegins
  obtain ⟨x, hx⟩ := begins_iff.mp hbegins
  have hkind : v.kind = .imported := by
    refine (h.proper.fits hv).eq_of_begins (List.mem_singleton_self _) ?_
    rw [hx]
    exact begins_mergedPrefix _ x
  obtain ⟨k, hlt, hbegins'⟩ := h.merged hv hkind
  obtain ⟨y, hy⟩ := begins_iff.mp hbegins'
  have heq := (mergedPrefix_append_inj (hx.symm.trans hy)).1
  omega

theorem Apart.of_grown {P : Variable → Prop} (ha : t.Apart ordinal) (hc : t'.Consistent)
    (hp : t'.Proper) (hgrown : Grown P t t') (hP : ∀ v, P v → v.kind ≠ .imported) :
    t'.Apart ordinal := by
  refine ⟨hc, hp, fun {id v} hv hkind => ?_⟩
  rcases hgrown hv with ⟨w, hw, hsame, -⟩ | ⟨-, hnew⟩
  · rw [hsame.name]
    exact ha.merged hw (hsame.kind.symm.trans hkind)
  · exact absurd hkind (hP v hnew)

theorem Edit.apart (hF : ∀ spec, F.params spec → Emit.isVariableName spec.storage = true)
    (h : t.Edit F t') (ha : t.Apart ordinal) : t'.Apart ordinal :=
  ha.of_grown (h.evolves ha.consistent).consistent (h.proper hF ha.consistent ha.proper)
    (h.made ha.consistent) fun _ hv => hv.kind_ne.1

theorem grown_constant (hc : t.Consistent) (type : VarType) (value : Value) :
    Grown (fun v => v.kind = .constant) t (t.constant type value).2 := by
  unfold SymbolTable.constant
  dsimp only
  split
  · exact grown_of_vars_eq rfl
  · exact grown_insert (t := t.countUp) hc.countUp rfl

theorem Apart.constant (ha : t.Apart ordinal) (type : VarType) (value : Value) :
    (t.constant type value).2.Apart ordinal :=
  ha.of_grown (yields_constant ha.consistent type value).consistent
    (ha.proper.constant ha.consistent type value) (grown_constant ha.consistent type value)
    fun v hv => by simp [hv]

/-! ### Variables that actions may use -/

variable {id : VarId} {v : Variable}

/-- Whether a handle denotes a variable that an action may write: one that belongs to no module. -/
def Usable (t : SymbolTable) (id : VarId) : Prop :=
  ∃ v, t.get? id = some v ∧ v.kind ≠ .imported

theorem Extends.usable {id : VarId} (h : t.Extends t')
    (hid : t.Usable id) : t'.Usable id := by
  obtain ⟨v, hv, hkind⟩ := hid
  obtain ⟨w, hw, hsame⟩ := h.vars hv
  exact ⟨w, hw, hsame.kind ▸ hkind⟩

theorem Proper.usable (h : t.Proper) (hv : t.get? id = some v) (hname : ¬Begins "__m" v.name) :
    t.Usable id := by
  refine ⟨v, hv, fun hkind => hname ?_⟩
  have hfits := h.fits hv
  rw [hkind] at hfits
  exact hfits

theorem usable_getOrInsert (hc : t.Consistent) (hp : (t.getOrInsert v).2.Proper)
    (hprevious : v.previous = none) (hname : ¬Begins "__m" v.name) :
    (t.getOrInsert v).2.Usable (t.getOrInsert v).1 := by
  obtain ⟨w, hw⟩ := (yields_getOrInsert hc hprevious).live
  refine hp.usable hw ?_
  rw [hc.name_getOrInsert hw]
  exact hname

theorem usable_constant (hc : t.Consistent) (type : VarType) (value : Value) :
    (t.constant type value).2.Usable (t.constant type value).1 := by
  have hyields := yields_constant hc type value
  obtain ⟨v, hv, hkind, -⟩ := hyields.consistent.constants (constants_constant t type value)
  exact ⟨v, hv, by simp [hkind]⟩

theorem usable_declareLocal (t : SymbolTable) (name : String) (type : VarType) :
    (t.declareLocal name type).2.Usable (t.declareLocal name type).1 :=
  ⟨_, get?_insert_self t.countUp _, by simp⟩

theorem usable_acquireTemp (hc : t.Consistent) (type : VarType) :
    (t.acquireTemp type).2.Usable (t.acquireTemp type).1 := by
  obtain ⟨v, hv, hkind⟩ := isTemp_acquireTemp hc type
  exact ⟨v, hv, by simp [hkind]⟩

theorem usable_system {which : SystemVariable} (hc : t.Consistent)
    (hp : (t.system which).2.Proper) :
    (t.system which).2.Usable (t.system which).1 :=
  usable_getOrInsert hc hp rfl (by cases which <;> decide)

end SymbolTable

/-! ### Merges -/

/-- A module whose heap has proper names. -/
structure Linkable.Proper (m : Linkable) : Prop where
  consistent : m.program.symbols.Consistent
  proper : m.program.symbols.Proper

/-- The heap of a caller behind the merge of a module. -/
theorem SymbolTable.Imported.apart {m : Linkable} {names : Renaming} {t t' : SymbolTable}
    {ordinal : Nat} (h : SymbolTable.Imported m names t t')
    (hbeginning : names.namePrefix = mergedPrefix ordinal) (ha : t.Apart ordinal) :
    t'.Apart (ordinal + 1) := by
  refine ⟨h.consistent, h.proper, fun {id v} hv hkind => ?_⟩
  rcases h.new hv with hold | ⟨-, himport⟩
  · obtain ⟨k, hlt, hbegins⟩ := ha.merged hold hkind
    exact ⟨k, Nat.lt_succ_of_lt hlt, hbegins⟩
  · refine ⟨ordinal, Nat.lt_succ_self _, ?_⟩
    cases himport with
    | copied _ _ _ _ hname _ _ _ =>
      rw [hname, hbeginning]
      exact begins_append _ _
    | constant _ _ hconstant => simp [hconstant.kind] at hkind
    | system which => simp [SystemVariable.toVariable] at hkind
    | eventParam _ _ => simp at hkind

namespace Linker

variable {m : Linkable} {s : Linkage}

theorem outcome_of_apart (hm : m.Proper)
    (h : s.program.symbols.Apart s.linker.nextOrdinal) (includeHooks : Bool)
    (aliases : List Renaming.Alias) (instances : List Guid) :
    Outcome m ⟨mergedPrefix s.linker.nextOrdinal, includeHooks, aliases⟩ instances s.program
      (addModule m instances s.program (Renaming.build m
        ⟨mergedPrefix s.linker.nextOrdinal, includeHooks, aliases⟩)) :=
  outcome_addModule hm.consistent hm.proper rfl h.consistent h.proper h.unmerged instances

theorem apart_mergeOwn (hm : m.Proper) (h : s.program.symbols.Apart s.linker.nextOrdinal)
    (includeHooks : Bool) (aliases : List Renaming.Alias) :
    ((mergeOwn m includeHooks aliases).run s).2.program.symbols.Apart
      ((mergeOwn m includeHooks aliases).run s).2.linker.nextOrdinal := by
  rcases run_mergeOwn m includeHooks aliases s with ⟨failure, -, hrun⟩ | ⟨-, hrun⟩
  · rw [hrun]
    exact h
  · rw [hrun]
    have hout := outcome_of_apart hm h includeHooks aliases
      ((s.linker.instances.get? m.key).getD [])
    exact hout.adding.imported.apart (Renaming.namePrefix_build _ _) h

end Linker

/-! ### States in order -/

/-- Names are apart. A change of a variable of the author calls the method that is named for it, and the
constants of the source are variables of the program. -/
structure Emission.Named (e : Emission) : Prop
    extends SymbolTable.Apart e.program.symbols e.linker.nextOrdinal where
  watched {id : VarId} {v : Variable} {x : String} : e.program.symbols.get? id = some v →
    v.kind = .user → v.onChange = some x → x = changeMethod v.name
  literals {position : LiteralPosition} {id : VarId} : e.literals.get? position = some id →
    e.program.symbols.Usable id

namespace Emission.Named

variable {F : Footprint} {e e' : Emission}

theorem of_symbols_eq (h : e.Named) (hsymbols : e'.program.symbols = e.program.symbols)
    (hlinker : e'.linker = e.linker) (hliterals : e'.literals = e.literals) : e'.Named := by
  refine ⟨?_, fun hv => ?_, fun hget => ?_⟩
  · rw [hsymbols, hlinker]
    exact h.toApart
  · rw [hsymbols] at hv
    exact h.watched hv
  · rw [hliterals] at hget
    rw [hsymbols]
    exact h.literals hget

theorem edit (h : e.Named) (hF : ∀ spec, F.params spec → Emit.isVariableName spec.storage = true)
    {t : SymbolTable} (hedit : e.program.symbols.Edit F t) : (e.withSymbols t).Named := by
  have hkeeps := (hedit.evolves h.consistent).keeps
  refine ⟨hedit.apart hF h.toApart, fun {id v x} hv hkind hx => ?_,
    fun hget => hkeeps.usable (h.literals hget)⟩
  rcases hedit.made h.consistent hv with ⟨w, hw, hsame, honChange⟩ | ⟨-, hmade⟩
  · rw [hsame.name]
    exact h.watched hw (hsame.kind.symm.trans hkind) (honChange.symm.trans hx)
  · exact hmade.changeMethod_of_user hkind hx

theorem constant (h : e.Named) (type : VarType) (value : Value) :
    (e.withSymbols (e.program.symbols.constant type value).2).Named := by
  have hyields := SymbolTable.yields_constant h.consistent type value
  refine ⟨h.toApart.constant type value, fun {id v x} hv hkind hx => ?_,
    fun hget => hyields.keeps.usable (h.literals hget)⟩
  rcases SymbolTable.grown_constant h.consistent type value hv with
    ⟨w, hw, hsame, honChange⟩ | ⟨-, hconstant⟩
  · rw [hsame.name]
    exact h.watched hw (hsame.kind.symm.trans hkind) (honChange.symm.trans hx)
  · rw [hconstant] at hkind
    cases hkind

/-- A merge keeps the names apart, and watches no variable of the author. -/
theorem mergeOwn (h : e.Named) {m : Linkable} (hm : m.Proper) (includeHooks : Bool)
    (aliases : List Renaming.Alias) :
    (e.withLinkage ((Linker.mergeOwn m includeHooks aliases).run e.linkage).2).Named := by
  have hkeeps := (Linker.spares_mergeOwn m includeHooks aliases e.linkage h.consistent).keeps
  refine ⟨Linker.apart_mergeOwn (s := e.linkage) hm h.toApart includeHooks aliases,
    fun {id v x} hv hkind hx => ?_, fun hget => hkeeps.usable (h.literals hget)⟩
  rcases Linker.run_mergeOwn m includeHooks aliases e.linkage with ⟨failure, -, hrun⟩ | ⟨-, hrun⟩
  · rw [hrun] at hv
    exact h.watched hv hkind hx
  · rw [hrun] at hv
    have hout := Linker.outcome_of_apart (s := e.linkage) hm h.toApart includeHooks aliases
      ((e.linkage.linker.instances.get? m.key).getD [])
    rcases hout.adding.imported.new hv with hold | ⟨-, himport⟩
    · exact h.watched hold hkind hx
    · exact absurd hkind himport.kind_ne.2

end Emission.Named

/-- Names are apart, and the labels that blocks hold have been handed out. -/
structure Emission.Orderly (e : Emission) : Prop extends e.Named where
  marked : e.blocks.Marked

/-- If names are kept track of, the state is in order, and the parameters of events are stored under names
that an author could give. -/
def Footprint.Sees (F : Footprint) (e : Emission) : Prop :=
  F.Tracks → (∀ spec, F.params spec → Emit.isVariableName spec.storage = true) ∧ e.Orderly

namespace Emission

variable {F : Footprint} {e e' : Emission}

theorem Orderly.of_symbols_eq (h : e.Orderly) (hsymbols : e'.program.symbols = e.program.symbols)
    (hlinker : e'.linker = e.linker) (hliterals : e'.literals = e.literals)
    (hblocks : e'.blocks = e.blocks) : e'.Orderly :=
  ⟨h.toNamed.of_symbols_eq hsymbols hlinker hliterals, hblocks ▸ h.marked⟩

theorem Alters.orderly (h : Alters F e e') (hF : F.Tracks)
    (hparams : ∀ spec, F.params spec → Emit.isVariableName spec.storage = true) (he : e.Orderly) :
    e'.Orderly := by
  cases h with
  | pooled type value _ => exact ⟨he.toNamed.constant type value, he.marked⟩
  | edited h => exact ⟨he.toNamed.edit hparams h, he.marked⟩
  | blocks _ _ hmarked => exact ⟨he.toNamed.of_symbols_eq rfl rfl rfl, hmarked hF⟩
  | @noted position type value id _ _ hid =>
    refine ⟨⟨he.toApart, he.watched, fun {p j} hj => ?_⟩, he.marked⟩
    rw [OrderedMap.get?_insert] at hj
    split at hj
    · cases hj
      obtain ⟨v, hv, hname⟩ := he.consistent.names hid
      refine he.proper.usable hv ?_
      rw [hname]
      exact (SymbolTable.begins_symbol position).not_begins (by decide) (by decide)
    · exact he.literals hj
  | _ => exact he.of_symbols_eq rfl rfl rfl rfl

theorem Alters.sees (h : Alters F e e') (he : F.Sees e) : F.Sees e' := fun hF =>
  ⟨(he hF).1, h.orderly hF (he hF).1 (he hF).2⟩

theorem Stays.sees (h : Stays F e e') (he : F.Sees e) : F.Sees e' :=
  h.keeps (fun _ _ hstep => hstep.sees) he

theorem Stays.linker (h : Stays F e e') : e'.linker = e.linker :=
  h.keeps (P := fun s => s.linker = e.linker)
    (fun _ _ hstep hs => by cases hstep <;> exact hs) rfl

end Emission

end TriggerCompiler
