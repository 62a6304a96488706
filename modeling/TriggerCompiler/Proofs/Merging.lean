import Mathlib.Logic.Relation
import TriggerCompiler.Proofs.HeapEvolution
import TriggerCompiler.Proofs.Importing
import TriggerCompiler.Proofs.Renaming

/-! What the merge of one module into a program does. The heap of the caller gets copies of the variables
that belong to no nested module, and its methods get the code of the methods that belong to none. -/

open Relation

namespace TriggerCompiler

open Text

namespace Renaming

variable {t u : Renaming}

theorem label_congr (hmethods : t.methods = u.methods) (hlabels : t.labels = u.labels) :
    t.label = u.label := by
  funext l
  rw [label, label, hmethods, hlabels]

theorem value_congr (hmethods : t.methods = u.methods) (hlabels : t.labels = u.labels) :
    t.value = u.value := by
  funext v
  cases v <;> simp only [value, label_congr hmethods hlabels, hmethods]

namespace Naming

variable {n : Naming} {v : Variable}

theorem Regular.aliased?_eq_none (h : n.Regular) {x : String} (hx : ¬Begins "__m" x)
    (table : Renaming → OrderedMap String String) : aliased? n.aliases table x = none := by
  rw [Option.eq_none_iff_forall_ne_some]
  intro y hy
  obtain ⟨start, names, w, ha, rfl, -⟩ := exists_of_aliased? hy
  obtain ⟨ordinal, hordinal⟩ := h.nested _ ha
  rw [show start = mergedPrefix ordinal from hordinal] at hx
  exact hx (begins_mergedPrefix ordinal w)

theorem variableName?_of_kind_ne (hconstant : v.kind ≠ .constant) (hsystem : v.kind ≠ .system) :
    n.variableName? v =
      if v.kind = .eventParam && n.includeHooks then some (v.name, false)
      else
        match aliased? n.aliases Renaming.symbols v.name with
        | some renamed => some (renamed, true)
        | none => some (n.namePrefix ++ v.name, false) := by
  unfold variableName?
  cases hkind : v.kind with
  | constant => exact absurd hkind hconstant
  | system => exact absurd hkind hsystem
  | _ => rfl

end Naming

end Renaming

variable {id : VarId} {t : SymbolTable}

namespace SymbolTable

theorem contains_getOrInsert (t : SymbolTable) (v : Variable) :
    (t.getOrInsert v).2.names.contains v.name = true :=
  OrderedMap.contains_eq_true.mpr ⟨_, names_getOrInsert_self t v⟩

theorem Proper.eq_of_name (h : t.Proper) {j : VarId} {v w : Variable}
    (hv : t.get? id = some v) (hw : t.get? j = some w) (hname : v.name = w.name) : v = w := by
  have hid := h.unique hv
  rw [hname, h.unique hw] at hid
  rw [← Option.some.inj hid, hw] at hv
  exact (Option.some.inj hv).symm

end SymbolTable

variable {copies : List String} {ordinal : Nat} {s s' : Merging}

namespace Linker

namespace Merging

variable {m : Linkable} {n : Renaming.Naming} {base : SymbolTable} {s : Merging} {v : Variable}

/-! ### The variables -/

/-- A state while the variables of a module are added: only the heap of the caller and the names of
constants have changed. -/
structure Adding (m : Linkable) (n : Renaming.Naming) (base : SymbolTable) (s : Merging) : Prop where
  methods : s.names.methods = (Renaming.build m n).methods
  labels : s.names.labels = (Renaming.build m n).labels
  shared : s.names.shared = (Renaming.build m n).shared
  namePrefix : s.names.namePrefix = (Renaming.build m n).namePrefix
  symbols {id : VarId} {v : Variable} : m.program.symbols.get? id = some v → v.kind ≠ .constant →
    s.names.symbols.get? v.name = (n.variableName? v).map Prod.fst
  known {x y : String} : s.names.symbols.get? x = some y →
    ∃ id v, m.program.symbols.get? id = some v ∧ v.name = x
  imported : SymbolTable.Imported m (Renaming.build m n) base s.program.symbols

/-- Whether the caller has a variable of the module under the name that the module's variable has
there. -/
structure Has (s : Merging) (v : Variable) : Prop where
  named : ∃ y, s.names.symbols.get? v.name = some y ∧
    s.program.symbols.names.contains y = true
  pooled : v.kind = .constant → ∃ id,
    s.program.symbols.constants.get? ((s.names.value v.default).poolKey v.type) = some id ∧
      s.names.symbols.get? v.name = some (s.program.symbols.nameOf id)

theorem Has.mono (h : s.Has v) (hnames : s'.names.symbols.get? v.name = s.names.symbols.get? v.name)
    (hvalue : s'.names.value = s.names.value) (hc : s.program.symbols.Consistent)
    (hext : s.program.symbols.Extends s'.program.symbols) : s'.Has v := by
  obtain ⟨y, hy, hcontains⟩ := h.named
  refine ⟨⟨y, hnames.trans hy, hext.names hcontains⟩, fun hkind => ?_⟩
  obtain ⟨id, hid, hname⟩ := h.pooled hkind
  obtain ⟨w, hw, -⟩ := hc.constants hid
  refine ⟨id, by rw [hvalue, hext.constants hid], ?_⟩
  rw [hnames, hname, hext.nameOf ⟨w, hw⟩]

theorem adding_start (hp : m.program.symbols.Proper) {program : Program}
    (hc : program.symbols.Consistent) (hproper : program.symbols.Proper) :
    Adding m n program.symbols ⟨program, Renaming.build m n⟩ :=
  ⟨rfl, rfl, rfl, rfl, fun hv _ => Renaming.symbols_build hp n hv, Renaming.exists_of_symbols_build,
    .refl hc hproper⟩

theorem Adding.onSymbols (h : Adding m n base s) {f : SymbolTable → SymbolTable}
    (himported : SymbolTable.Imported m (Renaming.build m n) base
      (f s.program.symbols)) : Adding m n base (s.onSymbols f) :=
  ⟨h.methods, h.labels, h.shared, h.namePrefix, h.symbols, h.known, himported⟩

theorem Adding.onMethods (h : Adding m n base s) (methods : MethodTable) :
    Adding m n base { s with program := { s.program with methods } } :=
  ⟨h.methods, h.labels, h.shared, h.namePrefix, h.symbols, h.known, h.imported⟩

theorem Adding.value (h : Adding m n base s) : s.names.value = (Renaming.build m n).value :=
  Renaming.value_congr h.methods h.labels

/-- What adding one variable of the module does. -/
structure Added (m : Linkable) (n : Renaming.Naming) (base : SymbolTable) (v : Variable)
    (s s' : Merging) : Prop where
  adding : Adding m n base s'
  keeps : s.program.symbols.Extends s'.program.symbols
  methods : s'.program.methods = s.program.methods
  instances : s'.names.instances = s.names.instances
  other {x : String} : x ≠ v.name → s'.names.symbols.get? x = s.names.symbols.get? x
  has : v.name ∉ (Renaming.build m n).shared → s'.Has v

theorem Added.refl (h : Adding m n base s)
    (hhas : v.name ∉ (Renaming.build m n).shared → s.Has v) : Added m n base v s s :=
  ⟨h, .refl _, rfl, rfl, fun _ => rfl, hhas⟩

theorem Added.ofHeap (h : Adding m n base s) {f : SymbolTable → SymbolTable} {y : String}
    (himported : SymbolTable.Imported m (Renaming.build m n) base
      (f s.program.symbols)) (hkeeps : s.program.symbols.Extends (f s.program.symbols))
    (hkind : v.kind ≠ .constant) (hy : s.names.symbols.get? v.name = some y)
    (hcontains : (f s.program.symbols).names.contains y = true) :
    Added m n base v s (s.onSymbols f) :=
  ⟨h.onSymbols himported, hkeeps, rfl, rfl, fun _ => rfl,
    fun _ => ⟨⟨y, hy, hcontains⟩, fun hconstant => absurd hconstant hkind⟩⟩

theorem added_system (hp : m.program.symbols.Proper) (copies : List String)
    (h : Adding m n base s) (hv : m.program.symbols.get? id = some v)
    (hkind : v.kind = .system) : Added m n base v s (s.addVariable copies v) := by
  have hfits := hp.fits hv
  rw [hkind] at hfits
  obtain ⟨which, hwhich⟩ := hfits
  have hsystem : v.system? = some which := by
    rw [Variable.system?, if_pos hkind, hwhich]
    cases which <;> rfl
  have hname : s.names.symbols.get? v.name = some which.name := by
    rw [h.symbols hv (by simp [hkind]), Renaming.Naming.variableName?, hkind, ← hwhich]
    rfl
  unfold addVariable
  rw [hkind]
  dsimp only
  rw [hsystem]
  refine .ofHeap h (h.imported.system which) (SymbolTable.yields_system h.imported.consistent _).keeps
    (by simp [hkind]) hname ?_
  exact SymbolTable.contains_getOrInsert _ _

theorem added_constant (hp : m.program.symbols.Proper) (copies : List String)
    (h : Adding m n base s) (hv : m.program.symbols.get? id = some v)
    (hkind : v.kind = .constant) : Added m n base v s (s.addVariable copies v) := by
  have hyields := SymbolTable.yields_constant h.imported.consistent v.type (s.names.value v.default)
  have himported := h.imported.constant hv hkind
  have hpool := SymbolTable.constants_constant s.program.symbols v.type (s.names.value v.default)
  rw [← h.value] at himported
  unfold addVariable
  rw [hkind]
  dsimp only
  generalize s.program.symbols.constant v.type (s.names.value v.default) = r
    at hyields himported hpool ⊢
  have hself : (s.names.symbols.insert v.name (r.2.nameOf r.1)).get? v.name =
      some (r.2.nameOf r.1) := by rw [OrderedMap.get?_insert, if_pos rfl]
  refine ⟨⟨h.methods, h.labels, h.shared, h.namePrefix, fun {j w} hw hconstant => ?_,
    fun {x y} hx => ?_, himported⟩, hyields.keeps, rfl, rfl, fun {x} hx => ?_,
    fun _ => ⟨⟨_, hself, hyields.consistent.contains_nameOf hyields.live⟩, fun _ => ⟨_, hpool, hself⟩⟩⟩
  · have hne : v.name ≠ w.name := fun heq => hconstant (hp.eq_of_name hv hw heq ▸ hkind)
    rw [OrderedMap.get?_insert, if_neg hne]
    exact h.symbols hw hconstant
  · dsimp only at hx
    rw [OrderedMap.get?_insert] at hx
    split at hx
    · rename_i heq
      exact ⟨id, v, hv, heq⟩
    · exact h.known hx
  · rw [OrderedMap.get?_insert, if_neg (Ne.symm hx)]

/-- The name of a variable that belongs to no nested module. -/
theorem variableName?_of_not_shared (hv : m.program.symbols.get? id = some v)
    (hconstant : v.kind ≠ .constant) (hsystem : v.kind ≠ .system)
    (hshared : v.name ∉ (Renaming.build m n).shared) :
    v.kind = .eventParam ∧ n.variableName? v = some (v.name, false) ∨
      n.variableName? v = some (n.namePrefix ++ v.name, false) := by
  have hdef := Renaming.Naming.variableName?_of_kind_ne (n := n) hconstant hsystem
  by_cases hparam : (v.kind = .eventParam && n.includeHooks) = true
  · rw [if_pos hparam] at hdef
    simp only [Bool.and_eq_true, decide_eq_true_eq] at hparam
    exact Or.inl ⟨hparam.1, hdef⟩
  · rw [if_neg hparam] at hdef
    cases haliased : Renaming.aliased? n.aliases Renaming.symbols v.name with
    | some renamed =>
      rw [haliased] at hdef
      exact absurd (Renaming.mem_shared_build.mpr (Or.inr ⟨id, v, hv, rfl, renamed, hdef⟩)) hshared
    | none =>
      rw [haliased] at hdef
      exact Or.inr hdef

/-- Copies a variable under the name that it has been given. -/
def addCopy (s : Merging) (copies : List String) (v : Variable) : Merging :=
  match s.names.symbols.get? v.name with
  | none => s
  | some name => s.onSymbols fun symbols =>
    (symbols.declareImported name v).2.modifyVar (symbols.declareImported name v).1
      fun copy => { copy with
        onChange := v.onChange.bind s.names.methods.get?
        sync := if v.name ∈ copies then .notSynced else copy.sync }

/-- The remaining variables: storage of event parameters that the caller shares, variables that belong
to nested modules, and copies. -/
theorem added_copy (hp : m.program.symbols.Proper)
    (hbeginning : n.namePrefix = mergedPrefix ordinal) (hproper : base.Proper)
    (hfresh : base.Unmerged ordinal) (copies : List String) (h : Adding m n base s)
    (hv : m.program.symbols.get? id = some v) (hconstant : v.kind ≠ .constant)
    (hsystem : v.kind ≠ .system) : Added m n base v s (s.addVariable copies v) := by
  have hname := h.symbols hv hconstant
  have hdef : s.addVariable copies v =
      if v.kind = .eventParam && s.names.symbols.get? v.name = some v.name then
        s.onSymbols fun symbols => (symbols.declareEventParam v.name v.type).2
      else if s.names.isShared v.name then s
      else s.addCopy copies v := by
    unfold addVariable
    cases hkind : v.kind with
    | constant => exact absurd hkind hconstant
    | system => exact absurd hkind hsystem
    | _ => rfl
  rw [hdef]
  by_cases hparam : (v.kind = .eventParam && s.names.symbols.get? v.name = some v.name) = true
  · rw [if_pos hparam]
    simp only [Bool.and_eq_true, decide_eq_true_eq] at hparam
    have hfits := hp.fits hv
    rw [hparam.1] at hfits
    exact .ofHeap h (h.imported.eventParam hv hparam.1 hfits)
      (SymbolTable.yields_declareEventParam h.imported.consistent _ _).keeps hconstant hparam.2
      (SymbolTable.contains_getOrInsert _ _)
  · rw [if_neg hparam]
    by_cases hshared : s.names.isShared v.name = true
    · rw [if_pos hshared]
      rw [Renaming.isShared, decide_eq_true_eq, h.shared] at hshared
      exact .refl h fun hnot => absurd hshared hnot
    · rw [if_neg hshared]
      rw [Renaming.isShared, decide_eq_true_eq, h.shared] at hshared
      have hown : s.names.symbols.get? v.name = some ((Renaming.build m n).namePrefix ++ v.name) := by
        rcases variableName?_of_not_shared hv hconstant hsystem hshared with ⟨hkind, hdef⟩ | hdef
        · rw [hdef] at hname
          simp [hkind, hname] at hparam
        · rw [hname, hdef, Renaming.namePrefix_build]
          rfl
      rw [addCopy, hown]
      have hsymbol : (Renaming.build m n).symbols.get? v.name =
          some ((Renaming.build m n).namePrefix ++ v.name) := by
        rw [Renaming.symbols_build hp n hv, ← hname, hown]
      have hcopy := h.imported.copy ((Renaming.namePrefix_build m n).trans hbeginning) hv hconstant
        hsystem (Or.inl ⟨rfl, hshared, hsymbol⟩)
      have hyields := SymbolTable.yields_getOrInsert h.imported.consistent
        (v := { v with name := (Renaming.build m n).namePrefix ++ v.name, kind := .imported
                       global := true, guid := none, previous := none }) rfl
      have hcontains := SymbolTable.contains_getOrInsert s.program.symbols
        { v with name := (Renaming.build m n).namePrefix ++ v.name, kind := .imported
                 global := true, guid := none, previous := none }
      refine .ofHeap h ?_ (hyields.keeps.trans (SymbolTable.extends_modifyVar _ _ ?_)) hconstant hown
        hcontains
      · refine hcopy.modify hproper (fun u hu => hcopy.isNew hfresh hu ?_)
          (fun _ => ⟨rfl, rfl, rfl, rfl⟩) (fun _ _ hlink => Or.inl hlink)
        rw [h.imported.consistent.name_getOrInsert hu, Renaming.namePrefix_build, hbeginning]
        exact begins_append _ _
      · exact fun _ => ⟨rfl, rfl, rfl, rfl⟩

/-- What adding variables of the module does. -/
structure AddedAll (m : Linkable) (n : Renaming.Naming) (base : SymbolTable) (vars : List Variable)
    (s s' : Merging) : Prop where
  adding : Adding m n base s'
  keeps : s.program.symbols.Extends s'.program.symbols
  methods : s'.program.methods = s.program.methods
  instances : s'.names.instances = s.names.instances
  other {x : String} : x ∉ vars.map Variable.name →
    s'.names.symbols.get? x = s.names.symbols.get? x
  has {v : Variable} : v ∈ vars → v.name ∉ (Renaming.build m n).shared → s'.Has v

section

variable (hp : m.program.symbols.Proper) {ordinal : Nat}
  (hbeginning : n.namePrefix = mergedPrefix ordinal) (hproper : base.Proper)
  (hfresh : base.Unmerged ordinal)

include hp hbeginning hproper hfresh

theorem added_addVariable (copies : List String) (h : Adding m n base s)
    (hv : m.program.symbols.get? id = some v) : Added m n base v s (s.addVariable copies v) := by
  by_cases hsystem : v.kind = .system
  · exact added_system hp copies h hv hsystem
  · by_cases hconstant : v.kind = .constant
    · exact added_constant hp copies h hv hconstant
    · exact added_copy hp hbeginning hproper hfresh copies h hv hconstant hsystem

theorem addedAll_foldl (copies : List String) (vars : List Variable)
    (hvars : ∀ v ∈ vars, ∃ id, m.program.symbols.get? id = some v)
    (hnodup : (vars.map Variable.name).Nodup) (h : Adding m n base s) :
    AddedAll m n base vars s (vars.foldl (addVariable copies) s) := by
  induction vars generalizing s with
  | nil => exact ⟨h, .refl _, rfl, rfl, fun _ => rfl, fun hv => by cases hv⟩
  | cons w vars ih =>
    rw [List.map_cons, List.nodup_cons] at hnodup
    obtain ⟨id, hw⟩ := hvars w List.mem_cons_self
    have hfirst := added_addVariable hp hbeginning hproper hfresh copies h hw
    have hrest := ih (fun v hv => hvars v (List.mem_cons_of_mem _ hv)) hnodup.2 hfirst.adding
    rw [List.foldl_cons]
    refine ⟨hrest.adding, hfirst.keeps.trans hrest.keeps, hrest.methods.trans hfirst.methods,
      hrest.instances.trans hfirst.instances, fun {x} hx => ?_, fun {v} hv hshared => ?_⟩
    · rw [List.map_cons, List.mem_cons, not_or] at hx
      rw [hrest.other hx.2, hfirst.other hx.1]
    · rcases List.mem_cons.mp hv with rfl | hv
      · refine (hfirst.has hshared).mono (hrest.other hnodup.1) ?_
          hfirst.adding.imported.consistent hrest.keeps
        rw [hrest.adding.value, hfirst.adding.value]
      · exact hrest.has hv hshared

theorem adding_linkPrevious (h : Adding m n base s)
    (hv : m.program.symbols.get? id = some v) (hshared : v.name ∉ (Renaming.build m n).shared) :
    ∃ f, s.linkPrevious m.program.symbols v = s.onSymbols f ∧
      Adding m n base (s.onSymbols f) ∧ s.program.symbols.Extends (f s.program.symbols) := by
  unfold linkPrevious
  dsimp only
  split
  · exact ⟨fun t => t, rfl, h, .refl _⟩
  · rename_i previous hprevious
    obtain ⟨p, hlink, -⟩ := Option.bind_eq_some_iff.mp hprevious
    split
    · rename_i owner shadow howner hshadow
      obtain ⟨y, hy, howner⟩ := Option.bind_eq_some_iff.mp howner
      obtain ⟨z, -, hz⟩ := Option.bind_eq_some_iff.mp hshadow
      obtain ⟨u, hu, -⟩ := h.imported.consistent.names hz
      have hkind : v.kind = .user ∨ v.kind = .imported :=
        hp.watched hv (Or.inr (by rw [hlink]; rfl))
      have hown : n.variableName? v = some (n.namePrefix ++ v.name, false) := by
        rcases variableName?_of_not_shared (n := n) hv (by rcases hkind with h | h <;> simp [h])
          (by rcases hkind with h | h <;> simp [h]) hshared with ⟨hparam, -⟩ | hown
        · rcases hkind with h | h <;> simp [h] at hparam
        · exact hown
      rw [h.symbols hv (by rcases hkind with h | h <;> simp [h]), hown, hbeginning] at hy
      refine ⟨_, rfl, h.onSymbols (h.imported.modify hproper (fun w hw => ?_) ?_ ?_), ?_⟩
      · obtain ⟨w', hw', hname⟩ := h.imported.consistent.names howner
        rw [hw] at hw'
        cases hw'
        refine h.imported.isNew hfresh hw ?_
        rw [hname, ← Option.some.inj hy]
        exact begins_append _ _
      · exact fun _ => ⟨rfl, rfl, rfl, rfl⟩
      · intro w q hq
        cases hq
        exact Or.inr ⟨u, hu⟩
      · exact SymbolTable.extends_modifyVar _ _ fun _ => ⟨rfl, rfl, rfl, rfl⟩
    · exact ⟨fun t => t, rfl, h, .refl _⟩

theorem adding_foldl_linkPrevious (vars : List Variable)
    (hvars : ∀ v ∈ vars, (∃ id, m.program.symbols.get? id = some v) ∧
      v.name ∉ (Renaming.build m n).shared) (h : Adding m n base s) :
    ∃ f, vars.foldl (linkPrevious m.program.symbols) s = s.onSymbols f ∧
      Adding m n base (s.onSymbols f) ∧ s.program.symbols.Extends (f s.program.symbols) := by
  induction vars generalizing s with
  | nil => exact ⟨fun t => t, rfl, h, .refl _⟩
  | cons v vars ih =>
    obtain ⟨⟨id, hv⟩, hshared⟩ := hvars v List.mem_cons_self
    obtain ⟨f, hf, hadding, hkeeps⟩ := adding_linkPrevious hp hbeginning hproper hfresh h hv hshared
    obtain ⟨g, hg, hadding', hkeeps'⟩ :=
      ih (fun v hv => hvars v (List.mem_cons_of_mem _ hv)) hadding
    refine ⟨fun t => g (f t), ?_, hadding', hkeeps.trans hkeeps'⟩
    rw [List.foldl_cons, hf, hg]
    rfl

end

/-! ### The methods -/

/-- What a method of the module adds to the methods of the caller. -/
def methodChunk (m : Linkable) (named : List String) (t : Renaming) (method : Method) :
    Option Method :=
  (t.methods.get? method.name).map fun name =>
    { name
      exported := name = method.name || name ∈ named
      code := renamedCode m t method (name = method.name) }

theorem foldl_addMethod (m : Linkable) (named : List String) (methods : List Method) (s : Merging) :
    methods.foldl (addMethod m named) s =
      { s with program := { s.program with
        methods := (methods.filterMap (methodChunk m named s.names)).foldl MethodTable.merge
          s.program.methods } } := by
  induction methods generalizing s with
  | nil => rfl
  | cons method methods ih =>
    rw [List.foldl_cons, ih, addMethod]
    cases hname : s.names.methods.get? method.name with
    | none => simp [methodChunk, hname]
    | some name => simp [methodChunk, hname]

/-! ### The instances -/

/-- The variables of an instance, each with the variable that the code of the module uses. -/
def slots (m : Linkable) (copies : List String) (t : Renaming) (k : Nat) :
    List (String × String × Variable) :=
  copies.filterMap fun base => do
    let shared ← t.symbols.get? base
    let v ← m.program.symbols.byName? base
    return (instanceSlot t.namePrefix k base, shared, v)

/-- The names of the methods that copy the variables of an instance. -/
def copyMethods (t : Renaming) (k : Nat) (guid : Guid) : InstanceCopies :=
  ⟨guid, s!"{t.namePrefix}i{k}__copy_in", s!"{t.namePrefix}i{k}__copy_out"⟩

/-- The methods that copy the variables of an instance. -/
def instanceChunks (m : Linkable) (copies : List String) (t : Renaming) (k : Nat) (guid : Guid) :
    List Method :=
  [{ name := (copyMethods t k guid).copyIn
     code := (slots m copies t k).flatMap fun (own, shared, _) =>
       [Instruction.push own, .push shared, .copy] },
   { name := (copyMethods t k guid).copyOut
     code := (slots m copies t k).flatMap fun (own, shared, v) =>
       [Instruction.push shared, .push own, .copy] ++ if v.sync.isSynced then [.sentinel] else [] }]

theorem addInstance_eq (m : Linkable) (copies : List String) (s : Merging) (k : Nat) (guid : Guid) :
    s.addInstance m copies k guid =
      { program :=
          { symbols := (slots m copies s.names k).foldl
              (fun symbols slot => (symbols.declareImported slot.1 slot.2.2).2) s.program.symbols
            methods := (instanceChunks m copies s.names k guid).foldl MethodTable.merge
              s.program.methods }
        names := { s.names with
          instances := s.names.instances ++ [copyMethods s.names k guid] } } := rfl

theorem mem_duplicated {t : Renaming} {x : String} (h : x ∈ duplicated m t) :
    m.interface.multiInstance = true ∧ ∃ id v, m.program.symbols.get? id = some v ∧ v.name = x ∧
      v.kind ≠ .constant ∧ v.kind ≠ .system := by
  unfold duplicated at h
  split at h
  · rename_i hmulti
    obtain ⟨v, hv, rfl⟩ := List.mem_map.mp h
    obtain ⟨hmem, hkind⟩ := List.mem_filter.mp hv
    obtain ⟨id, hid⟩ := SymbolTable.mem_variables.mp hmem
    simp only [Bool.and_eq_true, Bool.or_eq_true, decide_eq_true_eq] at hkind
    refine ⟨hmulti, id, v, hid, rfl, ?_, ?_⟩
    · rcases hkind.1.1 with h | h <;> simp [h]
    · rcases hkind.1.1 with h | h <;> simp [h]
  · cases h

/-- A slot is a copy of a variable of the module. -/
theorem mem_slots (hc : m.program.symbols.Consistent) (hp : m.program.symbols.Proper)
    {t u : Renaming} {k : Nat} {own shared : String} {v : Variable}
    (h : (own, shared, v) ∈ slots m (duplicated m u) t k) :
    (∃ id, m.program.symbols.get? id = some v) ∧ v.kind ≠ .constant ∧ v.kind ≠ .system ∧
      v.name ∈ duplicated m u ∧ t.symbols.get? v.name = some shared ∧
      ∃ x, own = t.namePrefix ++ x ∧ m.IsSlotName v.name x := by
  obtain ⟨base, hbase, hslot⟩ := List.mem_filterMap.mp h
  obtain ⟨y, hy, hslot⟩ := Option.bind_eq_some_iff.mp hslot
  obtain ⟨w, hbyName, hslot⟩ := Option.bind_eq_some_iff.mp hslot
  cases hslot
  obtain ⟨id, hid, hw⟩ := Option.bind_eq_some_iff.mp hbyName
  obtain ⟨w', hw', hname⟩ := hc.names hid
  rw [hw] at hw'
  cases hw'
  obtain ⟨hmulti, j, v', hv', hname', hconstant, hsystem⟩ := mem_duplicated hbase
  cases hp.eq_of_name hw hv' (hname.trans hname'.symm)
  subst hname
  refine ⟨⟨id, hw⟩, hconstant, hsystem, hbase, hy, _, ?_, hmulti, k, rfl⟩
  rw [instanceSlot]
  show t.namePrefix ++ "i" ++ toString k ++ "_" ++ v.name = _
  simp only [String.append_assoc]

theorem imported_foldl_slots {t : Renaming}
    (hbeginning : t.namePrefix = mergedPrefix ordinal) (slots : List (String × String × Variable))
    (hslots : ∀ e ∈ slots, (∃ id, m.program.symbols.get? id = some e.2.2) ∧
      e.2.2.kind ≠ .constant ∧ e.2.2.kind ≠ .system ∧
      ∃ x, e.1 = t.namePrefix ++ x ∧ m.IsSlotName e.2.2.name x) {heap : SymbolTable}
    (h : SymbolTable.Imported m t base heap) : SymbolTable.Imported m t base (slots.foldl
      (fun symbols slot => (symbols.declareImported slot.1 slot.2.2).2) heap) ∧
      heap.Extends (slots.foldl
        (fun symbols slot => (symbols.declareImported slot.1 slot.2.2).2) heap) ∧
      ∀ slot ∈ slots, (slots.foldl (fun symbols slot =>
        (symbols.declareImported slot.1 slot.2.2).2) heap).names.contains slot.1 = true := by
  induction slots generalizing heap with
  | nil => exact ⟨h, .refl _, fun _ hslot => by cases hslot⟩
  | cons e slots ih =>
    obtain ⟨⟨id, hid⟩, hconstant, hsystem, x, hx, hslot⟩ := hslots e List.mem_cons_self
    have hcopy := h.copy hbeginning hid hconstant hsystem (Or.inr hslot)
    rw [← hx] at hcopy
    obtain ⟨himported, hkeeps, hnamed⟩ :=
      ih (fun e he => hslots e (List.mem_cons_of_mem _ he)) hcopy
    refine ⟨himported, .trans ?_ hkeeps, fun slot hslot => ?_⟩
    · exact (SymbolTable.yields_declareImported h.consistent _ _).keeps
    · rcases List.mem_cons.mp hslot with rfl | hslot
      · exact hkeeps.names (SymbolTable.contains_getOrInsert _ _)
      · exact hnamed slot hslot

/-- What adding instances of the module does. -/
theorem adding_foldl_addInstance (hc : m.program.symbols.Consistent)
    (hp : m.program.symbols.Proper) (hbeginning : n.namePrefix = mergedPrefix ordinal)
    {u : Renaming} (hcopies : copies = duplicated m u)
    (instances : List (Guid × Nat)) (h : Adding m n base s) :
    ∃ symbols, instances.foldl (fun s e => s.addInstance m copies e.2 e.1) s =
        { program :=
            { symbols
              methods := (instances.flatMap fun e =>
                instanceChunks m copies s.names e.2 e.1).foldl MethodTable.merge s.program.methods }
          names := { s.names with
            instances := s.names.instances ++
              instances.map fun e => copyMethods s.names e.2 e.1 } } ∧
      SymbolTable.Imported m (Renaming.build m n) base symbols ∧
      s.program.symbols.Extends symbols ∧
      ∀ e ∈ instances, ∀ slot ∈ slots m copies s.names e.2,
        symbols.names.contains slot.1 = true := by
  induction instances generalizing s with
  | nil => exact ⟨s.program.symbols, by simp, h.imported, .refl _, fun _ he => by cases he⟩
  | cons e instances ih =>
    have hslots : ∀ slot ∈ slots m copies s.names e.2,
        (∃ id, m.program.symbols.get? id = some slot.2.2) ∧ slot.2.2.kind ≠ .constant ∧
          slot.2.2.kind ≠ .system ∧ ∃ x, slot.1 = (Renaming.build m n).namePrefix ++ x ∧
            m.IsSlotName slot.2.2.name x := by
      intro slot hslot
      rw [hcopies] at hslot
      obtain ⟨hid, hconstant, hsystem, -, -, hx⟩ := mem_slots hc hp hslot
      rw [h.namePrefix] at hx
      exact ⟨hid, hconstant, hsystem, hx⟩
    obtain ⟨himported, hkeeps, hnamed⟩ := imported_foldl_slots
      ((Renaming.namePrefix_build m n).trans hbeginning) _ hslots h.imported
    have hfirst : Adding m n base (s.addInstance m copies e.2 e.1) :=
      ⟨h.methods, h.labels, h.shared, h.namePrefix, h.symbols, h.known, himported⟩
    obtain ⟨symbols, hrest, himported', hkeeps', hnamed'⟩ := ih hfirst
    refine ⟨symbols, ?_, himported', hkeeps.trans hkeeps', fun e' he' slot hslot => ?_⟩
    · rw [List.foldl_cons, hrest, addInstance_eq, List.flatMap_cons, List.foldl_append,
        List.map_cons]
      simp only [List.append_assoc, List.singleton_append]
      rfl
    · rcases List.mem_cons.mp he' with rfl | he'
      · exact hkeeps'.names (hnamed slot hslot)
      · exact hnamed' e' he' slot hslot

end Merging

variable {m : Linkable} {n : Renaming.Naming} {program : Program}

open Merging

/-- The methods that a merge adds to those of the caller. -/
def chunks (m : Linkable) (named : List String) (t u : Renaming) (instances : List Guid) :
    List Method :=
  ((m.program.methods.toList.filter fun method => !u.isShared method.name).filterMap
    (methodChunk m named u)) ++
    instances.zipIdx.flatMap fun e => instanceChunks m (duplicated m t) u e.2 e.1

/-- What the merge of a module does to a caller. -/
structure Outcome (m : Linkable) (n : Renaming.Naming) (instances : List Guid) (program : Program)
    (s : Merging) : Prop where
  adding : Adding m n program.symbols s
  has {id : VarId} {v : Variable} : m.program.symbols.get? id = some v →
    v.name ∉ (Renaming.build m n).shared → s.Has v
  slots {guid : Guid} {k : Nat} : (guid, k) ∈ instances.zipIdx →
    ∀ slot ∈ Merging.slots m (duplicated m (Renaming.build m n)) s.names k,
      s.program.symbols.names.contains slot.1 = true
  copies : s.names.instances = instances.zipIdx.map fun e => copyMethods s.names e.2 e.1
  methods : ∃ heap : SymbolTable, heap.Extends s.program.symbols ∧ s.program.methods =
    (chunks m heap.namedMethods (Renaming.build m n) s.names instances).foldl MethodTable.merge
      program.methods

/-- The merge of a module whose heap has proper names, into a caller where no name begins as the names
of the merge do. -/
theorem outcome_addModule (hc : m.program.symbols.Consistent) (hp : m.program.symbols.Proper)
    (hbeginning : n.namePrefix = mergedPrefix ordinal)
    (hconsistent : program.symbols.Consistent) (hproper : program.symbols.Proper)
    (hfresh : program.symbols.Unmerged ordinal) (instances : List Guid) :
    Outcome m n instances program (addModule m instances program (Renaming.build m n)) := by
  have hmem : ∀ v ∈ m.program.symbols.toList.map Prod.snd, ∃ id,
      m.program.symbols.get? id = some v := fun v hv => SymbolTable.mem_variables.mp hv
  unfold addModule
  dsimp only
  have hall := addedAll_foldl hp hbeginning hproper hfresh (duplicated m (Renaming.build m n)) _ hmem
    hp.nodup_variables (adding_start hp hconsistent hproper)
  generalize (m.program.symbols.toList.map Prod.snd).foldl
    (addVariable (duplicated m (Renaming.build m n))) ⟨program, Renaming.build m n⟩ = s at hall ⊢
  have hlinks : ∀ v ∈ (m.program.symbols.toList.map Prod.snd).filter
      (fun v => !s.names.isShared v.name), (∃ id, m.program.symbols.get? id = some v) ∧
        v.name ∉ (Renaming.build m n).shared := by
    intro v hv
    obtain ⟨hv, hshared⟩ := List.mem_filter.mp hv
    refine ⟨hmem v hv, ?_⟩
    simpa [Renaming.isShared, hall.adding.shared] using hshared
  obtain ⟨f, hf, hadding, hkeeps⟩ :=
    adding_foldl_linkPrevious hp hbeginning hproper hfresh _ hlinks hall.adding
  rw [hf, foldl_addMethod]
  have hcoded := hadding.onMethods (((m.program.methods.toList.filter fun method =>
    !(s.onSymbols f).names.isShared method.name).filterMap (methodChunk m
      (s.onSymbols f).program.symbols.namedMethods (s.onSymbols f).names)).foldl MethodTable.merge
    (s.onSymbols f).program.methods)
  obtain ⟨symbols, hs, himported, hkeeps', hslots⟩ :=
    adding_foldl_addInstance hc hp hbeginning rfl instances.zipIdx hcoded
  rw [hs]
  refine ⟨⟨hadding.methods, hadding.labels, hadding.shared, hadding.namePrefix, hadding.symbols,
    hadding.known, himported⟩, fun {id v} hv hshared => ?_, ?_, ?_,
    f s.program.symbols, hkeeps', ?_⟩
  · exact (hall.has (SymbolTable.mem_variables.mpr ⟨id, hv⟩) hshared).mono rfl rfl
      hall.adding.imported.consistent (hkeeps.trans hkeeps')
  · intro guid k hk
    exact hslots (guid, k) hk
  · show s.names.instances ++ _ = _
    rw [hall.instances, Renaming.instances_build]
    rfl
  · rw [chunks, List.foldl_append, show program.methods = s.program.methods from hall.methods.symm]
    rfl

/-! ### Merging in general -/

namespace Merging

/-- The heap binds the same identifiers and has kept its variables, and code has only been appended. -/
structure Keeps (s s' : Merging) : Prop where
  heap : s.program.symbols.Consistent → s.program.symbols.Spares s'.program.symbols
  methods : ∃ added : List Method, s'.program.methods = added.foldl MethodTable.merge
    s.program.methods

theorem Keeps.refl (s : Merging) : s.Keeps s := ⟨.refl, [], rfl⟩

theorem Keeps.trans {s'' : Merging} (h : s.Keeps s') (h' : s'.Keeps s'') : s.Keeps s'' := by
  obtain ⟨added, hadded⟩ := h.methods
  obtain ⟨added', hadded'⟩ := h'.methods
  exact ⟨fun hc => (h.heap hc).trans (h'.heap (h.heap hc).consistent), added ++ added',
    by rw [List.foldl_append, ← hadded, hadded']⟩

theorem Keeps.of_spares (names : Renaming)
    (h : s.program.symbols.Consistent → s.program.symbols.Spares t) :
    s.Keeps { program := { s.program with symbols := t }, names } := ⟨h, [], rfl⟩

theorem spares_declareImported (hc : t.Consistent) (name : String)
    (source : Variable) : t.Spares (t.declareImported name source).2 :=
  SymbolTable.spares_getOrInsert hc rfl rfl (by simp)

theorem keeps_addVariable (copies : List String) (s : Merging) (v : Variable) :
    s.Keeps (s.addVariable copies v) := by
  unfold addVariable
  split
  · split
    · exact .of_spares _ fun hc =>
        SymbolTable.spares_getOrInsert hc rfl rfl (by simp [SystemVariable.toVariable])
    · exact .refl s
  · exact .of_spares _ fun hc => SymbolTable.spares_constant hc _ _
  · dsimp only
    split
    · exact .of_spares _ fun hc => SymbolTable.spares_getOrInsert hc rfl rfl (by simp)
    · split
      · exact .refl s
      · split
        · exact .refl s
        · refine .of_spares _ fun hc => ?_
          have himported := spares_declareImported hc ‹_› v
          exact himported.trans (SymbolTable.spares_modifyVar (f := fun copy => { copy with
            onChange := v.onChange.bind s.names.methods.get?
            sync := if v.name ∈ copies then .notSynced else copy.sync }) himported.consistent
            (fun _ => ⟨rfl, rfl, rfl, rfl⟩) (fun _ _ => Or.inl) _)

theorem keeps_linkPrevious (source : SymbolTable) (s : Merging) (v : Variable) :
    s.Keeps (s.linkPrevious source v) := by
  unfold linkPrevious
  dsimp only
  split
  · exact .refl s
  · split
    · rename_i previous _ owner shadow _ hshadow
      refine .of_spares _ fun hc => SymbolTable.spares_modifyVar
        (f := fun copy => { copy with previous := some shadow }) hc (fun _ => ⟨rfl, rfl, rfl, rfl⟩)
        (fun w p hp => ?_) owner
      obtain ⟨z, -, hz⟩ := Option.bind_eq_some_iff.mp hshadow
      obtain ⟨u, hu, -⟩ := hc.names hz
      cases hp
      exact Or.inr ⟨u, hu⟩
    · exact .refl s

theorem keeps_addMethod (m : Linkable) (named : List String) (s : Merging) (method : Method) :
    s.Keeps (s.addMethod m named method) := by
  unfold addMethod
  split
  · exact .refl s
  · exact ⟨.refl, [_], rfl⟩

theorem keeps_addInstance (m : Linkable) (copies : List String) (s : Merging) (k : Nat)
    (guid : Guid) : s.Keeps (s.addInstance m copies k guid) := by
  have hslots (slots : List (String × String × Variable)) (t : SymbolTable) (hc : t.Consistent) :
      t.Spares (slots.foldl (fun t slot => (t.declareImported slot.1 slot.2.2).2) t) := by
    induction slots generalizing t with
    | nil => exact .refl hc
    | cons slot slots ih =>
      have hfirst := spares_declareImported hc slot.1 slot.2.2
      exact hfirst.trans (ih _ hfirst.consistent)
  exact ⟨hslots _ _, instanceChunks m copies s.names k guid, rfl⟩

/-- One step of the merge of a module, of which instances have their own copies of some variables. -/
inductive Step (m : Linkable) (copies : List String) (s : Merging) : Merging → Prop
  | added (v : Variable) : Step m copies s (s.addVariable copies v)
  | linked (v : Variable) : Step m copies s (s.linkPrevious m.program.symbols v)
  | coded (named : List String) (method : Method) : Step m copies s (s.addMethod m named method)
  | copied (k : Nat) (guid : Guid) : Step m copies s (s.addInstance m copies k guid)

/-- A sequence of steps of a merge. -/
def Steps (m : Linkable) (copies : List String) : Merging → Merging → Prop :=
  ReflTransGen (Step m copies)

theorem Step.keeps (h : Step m copies s s') : s.Keeps s' := by
  cases h with
  | added v => exact keeps_addVariable copies s v
  | linked v => exact keeps_linkPrevious _ s v
  | coded named method => exact keeps_addMethod m named s method
  | copied k guid => exact keeps_addInstance m copies s k guid

theorem Steps.keeps (h : Steps m copies s s') : s.Keeps s' := by
  induction h with
  | refl => exact .refl s
  | tail _ hlast ih => exact ih.trans hlast.keeps

theorem Steps.foldl {α : Type} {f : Merging → α → Merging}
    (h : ∀ (s : Merging) a, Step m copies s (f s a)) (l : List α) (s : Merging) :
    Steps m copies s (l.foldl f s) := by
  induction l generalizing s with
  | nil => exact .refl
  | cons a l ih => exact .head (h s a) (ih (f s a))

end Merging

/-- A merge is a sequence of steps. -/
theorem steps_addModule (m : Linkable) (instances : List Guid) (program : Program) (t : Renaming) :
    Merging.Steps m (duplicated m t) ⟨program, t⟩ (addModule m instances program t) := by
  refine ReflTransGen.trans ?_ (Merging.Steps.foldl (f := fun s (e : Guid × Nat) =>
    s.addInstance m (duplicated m t) e.2 e.1) (fun _ e => .copied e.2 e.1) _ _)
  refine ReflTransGen.trans ?_ (Merging.Steps.foldl (fun _ => .coded _) _ _)
  refine ReflTransGen.trans ?_ (Merging.Steps.foldl (fun _ => .linked) _ _)
  exact Merging.Steps.foldl (fun _ => .added) _ _

/-- The merge of any module keeps the variables of the heap in place and binds no identifier, and it only
appends code. -/
theorem keeps_addModule (m : Linkable) (instances : List Guid) (program : Program) (t : Renaming) :
    Merging.Keeps ⟨program, t⟩ (addModule m instances program t) :=
  (steps_addModule m instances program t).keeps

/-- The outcome of a merge: the caller stays as it is, or the module is added and recorded. -/
theorem run_mergeOwn (m : Linkable) (includeHooks : Bool) (aliases : List Renaming.Alias)
    (s : Linkage) :
    let n : Renaming.Naming := ⟨mergedPrefix s.linker.nextOrdinal, includeHooks, aliases⟩
    let merged := addModule m ((s.linker.instances.get? m.key).getD []) s.program
      (Renaming.build m n)
    (∃ failure, (Renaming.build m n).validate m = .error failure ∧
      (mergeOwn m includeHooks aliases).run s = (.error failure, s)) ∨
    (Renaming.build m n).validate m = .ok () ∧
      (mergeOwn m includeHooks aliases).run s = (.ok merged.names,
        { program := merged.program
          linker := { s.linker with
            merged := s.linker.merged.insert m.key merged.names
            nextOrdinal := s.linker.nextOrdinal + 1 } }) := by
  dsimp only
  unfold mergeOwn
  rw [Attempt.run_get_bind]
  dsimp only
  rw [show s!"__m{s.linker.nextOrdinal}_" = mergedPrefix s.linker.nextOrdinal from rfl]
  cases (Renaming.build m ⟨mergedPrefix s.linker.nextOrdinal, includeHooks, aliases⟩).validate m with
  | error failure => exact Or.inl ⟨failure, rfl, rfl⟩
  | ok u => exact Or.inr ⟨rfl, rfl⟩

theorem spares_mergeOwn (m : Linkable) (includeHooks : Bool) (aliases : List Renaming.Alias)
    (s : Linkage) (hc : s.program.symbols.Consistent) :
    s.program.symbols.Spares ((mergeOwn m includeHooks aliases).run s).2.program.symbols := by
  rcases run_mergeOwn m includeHooks aliases s with ⟨failure, -, hrun⟩ | ⟨-, hrun⟩
  · rw [hrun]
    exact .refl hc
  · rw [hrun]
    exact (keeps_addModule m _ _ _).heap hc

end Linker

end TriggerCompiler
