import TriggerCompiler.Proofs.AddressResolution

/-! What filling in addresses does to a program. If it succeeds, every label that a jump or a variable
names has become its address and nothing else has changed, so the finished program is a function of the
program and of one map from labels to addresses. -/

namespace TriggerCompiler

/-- An instruction with the label that it jumps to replaced by an address. -/
def Instruction.fillIn (address : String → UInt32) (i : Instruction) : Instruction :=
  match i.targetLabel? with
  | some l => i.withAddress (address l)
  | none => i

/-- A value with the label that it holds replaced by an address. -/
def Value.fillIn (address : String → UInt32) : Value → Value
  | .label l => .uint (address l)
  | v => v

/-- A variable whose default has its label replaced by an address. -/
def Variable.fillIn (address : String → UInt32) (v : Variable) : Variable :=
  { v with default := v.default.fillIn address }

/-- A method whose jumps have their labels replaced by addresses. -/
def MethodBody.fillIn (address : String → UInt32) (b : MethodBody) : MethodBody :=
  { b with code := b.code.map (Instruction.fillIn address) }

@[inherit_doc MethodBody.fillIn]
def Method.fillIn (address : String → UInt32) (m : Method) : Method :=
  { m with code := m.code.map (Instruction.fillIn address) }

/-- A program in which the labels of jumps and of variables are replaced by addresses. -/
def Program.fillIn (address : String → UInt32) (p : Program) : Program where
  symbols := { p.symbols with vars := p.symbols.vars.mapValues fun _ v => v.fillIn address }
  methods := { p.methods with bodies := p.methods.bodies.mapValues fun _ b => b.fillIn address }

/-- The label that a variable holds. -/
def Variable.heldLabel? (v : Variable) : Option String :=
  match v.default with
  | .label l => some l
  | _ => none

namespace Program

/-- The names that get addresses: those of the methods and those of the labels in their code. -/
def labelNames (p : Program) : List String := p.methods.names ++ placedIn p.code

/-- The labels that jumps go to or that variables hold. -/
def labelUses (p : Program) : List String :=
  p.code.filterMap Instruction.targetLabel? ++
    p.symbols.toList.filterMap fun e => e.2.heldLabel?

end Program

variable {address : String → UInt32} {known : AddressMap}

namespace Instruction

theorem size_fillIn (address : String → UInt32) (i : Instruction) :
    (i.fillIn address).size = i.size := by
  cases i with
  | jump t => cases t <;> rfl
  | jumpIfFalse t => cases t <;> rfl
  | _ => rfl

theorem targetLabel?_fillIn (address : String → UInt32) (i : Instruction) :
    (i.fillIn address).targetLabel? = none := by
  cases i with
  | jump t => cases t <;> rfl
  | jumpIfFalse t => cases t <;> rfl
  | _ => rfl

theorem fillIn_eq_self {i : Instruction} (h : i.targetLabel? = none) : i.fillIn address = i := by
  rw [fillIn, h]

end Instruction

theorem codeSize_cons (i : Instruction) (code : List Instruction) :
    codeSize (i :: code) = i.size + codeSize code := by simp [codeSize]

theorem codeSize_append (code code' : List Instruction) :
    codeSize (code ++ code') = codeSize code + codeSize code' := by simp [codeSize]

theorem codeSize_map_fillIn (address : String → UInt32) (code : List Instruction) :
    codeSize (code.map (Instruction.fillIn address)) = codeSize code := by
  rw [codeSize, codeSize, List.map_map]
  exact congrArg List.sum (List.map_congr_left fun i _ => i.size_fillIn address)

theorem sum_map_size (methods : List Method) :
    (methods.map Method.size).sum = codeSize (methods.flatMap Method.code) := by
  induction methods with
  | nil => rfl
  | cons m methods ih =>
    rw [List.map_cons, List.sum_cons, List.flatMap_cons, codeSize_append, ih]
    rfl

namespace Value

theorem fillIn_eq_self {v : Value} (h : ∀ l, v ≠ .label l) : v.fillIn address = v := by
  cases v with
  | label l => exact absurd rfl (h l)
  | _ => rfl

end Value

variable {v : Variable} {l : String}

namespace Variable

theorem fillIn_eq_self (h : ∀ l, v.default ≠ .label l) : v.fillIn address = v := by
  rw [fillIn, Value.fillIn_eq_self h]

theorem fillIn_of_label (h : v.default = .label l) :
    v.fillIn address = { v with default := .uint (address l) } := by
  rw [fillIn, h]
  rfl

theorem fillIn_fillIn (v : Variable) : (v.fillIn address).fillIn address = v.fillIn address := by
  refine fillIn_eq_self fun l hl => ?_
  have hl : v.default.fillIn address = .label l := hl
  cases hv : v.default <;> rw [hv] at hl <;> cases hl

theorem heldLabel?_eq_some :
    v.heldLabel? = some l ↔ v.default = .label l := by
  rw [heldLabel?]
  cases v.default <;> simp

end Variable

/-! ### Jumps -/

/-- The address of a label in a map. -/
def AddressMap.addressOf (known : AddressMap) (l : String) : UInt32 := (known.lookup l).getD 0

/-- Every label that code jumps to has an address. -/
def AddressMap.Covers (known : AddressMap) (code : List Instruction) : Prop :=
  ∀ i ∈ code, ∀ l, i.targetLabel? = some l → (known.lookup l).isSome = true

variable {code : List Instruction}

namespace Layout

theorem covers_cons {i : Instruction} : known.Covers (i :: code) ↔
      (∀ l, i.targetLabel? = some l → (known.lookup l).isSome = true) ∧ known.Covers code :=
  List.forall_mem_cons

/-- Jumps whose labels all have addresses are filled in to the last one. -/
theorem resolveCode_of_covers (h : known.Covers code) :
    resolveCode known code = (code.map (Instruction.fillIn known.addressOf), none) := by
  induction code with
  | nil => rfl
  | cons i code ih =>
    obtain ⟨hi, hcode⟩ := covers_cons.mp h
    rw [resolveCode, ih hcode, List.map_cons]
    cases htarget : i.targetLabel? with
    | none =>
      rw [Instruction.fillIn_eq_self htarget]
    | some l =>
      obtain ⟨a, ha⟩ := Option.isSome_iff_exists.mp (hi l htarget)
      simp only [ha, Instruction.fillIn, htarget, AddressMap.addressOf, Option.getD_some]

/-- A jump whose label has no address stops the filling in. -/
theorem resolveCode_of_not_covers (h : ¬known.Covers code) :
    ∃ l, (resolveCode known code).2 = some l := by
  induction code with
  | nil => exact absurd (fun i hi => absurd hi List.not_mem_nil) h
  | cons i code ih =>
    rw [covers_cons, not_and_or] at h
    rw [resolveCode]
    cases htarget : i.targetLabel? with
    | none =>
      refine ih (h.resolve_left fun hi => hi fun l hl => ?_)
      rw [htarget] at hl
      cases hl
    | some l =>
      dsimp only
      cases hl : known.lookup l with
      | none => exact ⟨l, rfl⟩
      | some a =>
        refine ih (h.resolve_left fun hi => hi fun l' hl' => ?_)
        rw [htarget] at hl'
        cases hl'
        rw [hl]
        rfl

end Layout

variable {t : MethodTable}

variable {names : List String} {x : String}

namespace MethodTable

/-- A table in which the jumps of some methods have been filled in. -/
def fillNames (address : String → UInt32) (names : List String) (t : MethodTable) : MethodTable :=
  { t with bodies := t.bodies.mapValues fun x b => if x ∈ names then b.fillIn address else b }

theorem fillNames_nil (t : MethodTable) : t.fillNames address [] = t := by
  rw [fillNames]
  congr 1
  refine OrderedMap.eq_of_get? (OrderedMap.keys_mapValues _ _) fun x => ?_
  rw [OrderedMap.get?_mapValues]
  simp

theorem fillIn_fillIn (b : MethodBody) : (b.fillIn address).fillIn address = b.fillIn address := by
  rw [MethodBody.fillIn, MethodBody.fillIn, List.map_map]
  congr 1
  refine List.map_congr_left fun i _ => ?_
  exact Instruction.fillIn_eq_self (i.targetLabel?_fillIn address)

theorem fillNames_cons {b : MethodBody}
    (hb : t.bodies.get? x = some b) (names : List String) :
    (t.update x fun c => { c with code := (b.fillIn address).code }).fillNames address names =
      t.fillNames address (x :: names) := by
  rw [fillNames, fillNames]
  congr 1
  refine OrderedMap.eq_of_get? ?_ fun y => ?_
  · rw [OrderedMap.keys_mapValues, OrderedMap.keys_mapValues, update, OrderedMap.keys_insert, if_pos]
    exact List.mem_map_of_mem (f := Prod.fst) (OrderedMap.get?_eq_some_iff.mp hb)
  · rw [OrderedMap.get?_mapValues, OrderedMap.get?_mapValues, get?_update]
    by_cases hxy : x = y
    · subst hxy
      have hfilled : { b with code := (b.fillIn address).code } = b.fillIn address := rfl
      rw [if_pos rfl, hb, Option.getD_some, hfilled, Option.map_some, Option.map_some, fillIn_fillIn,
        if_pos List.mem_cons_self, ite_self]
    · have hmem : y ∈ x :: names ↔ y ∈ names := by
        rw [List.mem_cons, or_iff_right (Ne.symm hxy)]
      rw [if_neg hxy]
      simp only [hmem]

theorem run_resolveJumps_cons {b : MethodBody}
    (hb : t.bodies.get? x = some b) (names : List String) : (resolveJumps known (x :: names)).run t =
      let resolved := Layout.resolveCode known b.code
      let t' := t.update x fun c => { c with code := resolved.1 }
      match resolved.2 with
      | some l => (.error (.unresolvedLabel l), t')
      | none => (resolveJumps known names).run t' := by
  rw [resolveJumps, Attempt.run_get_bind, hb, Option.getD_some]
  dsimp only
  rcases Layout.resolveCode known b.code with ⟨code, unknown⟩
  cases unknown <;> rfl

/-- The jumps of methods are filled in if all their labels have addresses. -/
theorem run_resolveJumps_of_covers
    (hnames : ∀ x ∈ names, t.contains x = true) (h : ∀ x ∈ names, known.Covers (t.codeOf x)) :
    (resolveJumps known names).run t = (.ok (), t.fillNames known.addressOf names) := by
  induction names generalizing t with
  | nil =>
    rw [fillNames_nil]
    rfl
  | cons x names ih =>
    obtain ⟨b, hb⟩ := contains_iff.mp (hnames x List.mem_cons_self)
    have hx := h x List.mem_cons_self
    rw [codeOf_of_get? hb] at hx
    rw [run_resolveJumps_cons hb, Layout.resolveCode_of_covers hx, ← fillNames_cons hb]
    refine ih (fun y hy => ?_) fun y hy => ?_
    · exact contains_update.mpr (Or.inr (hnames y (List.mem_cons_of_mem _ hy)))
    · by_cases hxy : x = y
      · subst hxy
        rw [codeOf, get?_update, if_pos rfl, hb]
        intro i hi l hl
        obtain ⟨j, -, rfl⟩ := List.mem_map.mp hi
        rw [j.targetLabel?_fillIn] at hl
        cases hl
      · rw [codeOf, get?_update, if_neg hxy]
        exact h y (List.mem_cons_of_mem _ hy)

/-- A label without an address stops the filling in of jumps. -/
theorem run_resolveJumps_of_not_covers
    (hnames : ∀ x ∈ names, t.contains x = true) (hx : x ∈ names)
    (h : ¬known.Covers (t.codeOf x)) : ((resolveJumps known names).run t).1 ≠ .ok () := by
  induction names generalizing t with
  | nil => cases hx
  | cons y names ih =>
    obtain ⟨b, hb⟩ := contains_iff.mp (hnames y List.mem_cons_self)
    rw [run_resolveJumps_cons hb]
    by_cases hcovers : known.Covers b.code
    · have hxy : y ≠ x := by
        rintro rfl
        rw [codeOf_of_get? hb] at h
        exact h hcovers
      rw [Layout.resolveCode_of_covers hcovers]
      refine ih (fun z hz => ?_) ((List.mem_cons.mp hx).resolve_left (Ne.symm hxy)) ?_
      · exact contains_update.mpr (Or.inr (hnames z (List.mem_cons_of_mem _ hz)))
      · rwa [codeOf, get?_update, if_neg hxy]
    · obtain ⟨l, hl⟩ := Layout.resolveCode_of_not_covers hcovers
      simp only [hl]
      exact fun hok => by cases hok

/-- The addresses of a table are filled in exactly if no name stands twice and every label that a jump
goes to has an address. -/
theorem run_resolveAddresses_of_covers (haddresses : Layout.addresses t.toList = .ok known)
    (h : known.Covers (t.toList.flatMap Method.code)) :
    resolveAddresses.run t = (.ok known, t.fillNames known.addressOf t.names) := by
  rw [run_resolveAddresses, haddresses]
  dsimp only
  rw [run_resolveJumps_of_covers (fun x hx => mem_names.mp hx) fun x hx i hi => ?_]
  obtain ⟨m, hm, -, hcode⟩ := exists_mem_toList (mem_names.mp hx)
  exact h i (List.mem_flatMap.mpr ⟨m, hm, hcode ▸ hi⟩)

theorem run_resolveAddresses_of_not_covers (haddresses : Layout.addresses t.toList = .ok known)
    (h : ¬known.Covers (t.toList.flatMap Method.code)) (known' : AddressMap) :
    (resolveAddresses.run t).1 ≠ .ok known' := by
  have hm : ∃ m ∈ t.toList, ¬known.Covers m.code := by
    by_contra hall
    push Not at hall
    refine h fun i hi => ?_
    obtain ⟨m, hm, hi⟩ := List.mem_flatMap.mp hi
    exact hall m hm i hi
  obtain ⟨m, hm, hcode⟩ := hm
  have hname : m.name ∈ t.names :=
    List.mem_map_of_mem (f := Prod.fst) (OrderedMap.get?_eq_some_iff.mp (mem_toList.mp hm))
  have hcode : ¬known.Covers (t.codeOf m.name) := by rwa [codeOf_of_mem hm]
  have hjumps := run_resolveJumps_of_not_covers (fun x hx => mem_names.mp hx) hname hcode
  rw [run_resolveAddresses, haddresses]
  dsimp only
  rcases hrun : (resolveJumps known t.names).run t with ⟨result, t'⟩
  rw [hrun] at hjumps
  cases result with
  | ok _ => exact absurd rfl hjumps
  | error failure => exact nofun

end MethodTable

/-! ### Defaults -/

variable {p : Program}

namespace Program

/-- A program in which the defaults of some variables have been filled in. -/
def fillDefaults (address : String → UInt32) (ids : List VarId) (p : Program) : Program :=
  { p with symbols := { p.symbols with
      vars := p.symbols.vars.mapValues fun id v => if id ∈ ids then v.fillIn address else v } }

theorem fillDefaults_eq {p' : Program} {ids ids' : List VarId} (hmethods : p.methods = p'.methods)
    (hsymbols : p.symbols = { p'.symbols with vars := p.symbols.vars })
    (hkeys : p.symbols.vars.keys = p'.symbols.vars.keys)
    (hvars : ∀ id, (p.symbols.vars.get? id).map (fun v => if id ∈ ids then v.fillIn address else v) =
      (p'.symbols.vars.get? id).map fun v => if id ∈ ids' then v.fillIn address else v) :
    p.fillDefaults address ids = p'.fillDefaults address ids' := by
  have hmapped : (p.symbols.vars.mapValues fun id v => if id ∈ ids then v.fillIn address else v) =
      p'.symbols.vars.mapValues fun id v => if id ∈ ids' then v.fillIn address else v := by
    refine OrderedMap.eq_of_get? ?_ fun id => ?_
    · rw [OrderedMap.keys_mapValues, OrderedMap.keys_mapValues, hkeys]
    · rw [OrderedMap.get?_mapValues, OrderedMap.get?_mapValues]
      exact hvars id
  rw [fillDefaults, fillDefaults, hmapped, hmethods]
  congr 1
  rw [hsymbols]

/-- The labels that variables hold are replaced if all of them have addresses. -/
theorem run_resolveDefaults {ids : List VarId} (h : KnowsDefaults known ids p) :
    (resolveDefaults known ids).run p = (.ok (), p.fillDefaults known.addressOf ids) := by
  induction ids generalizing p with
  | nil =>
    have hsame : p.fillDefaults known.addressOf [] = p := by
      rw [fillDefaults]
      have hvars : (p.symbols.vars.mapValues fun id v =>
          if id ∈ [] then v.fillIn known.addressOf else v) = p.symbols.vars := by
        refine OrderedMap.eq_of_get? (OrderedMap.keys_mapValues _ _) fun id => ?_
        rw [OrderedMap.get?_mapValues]
        simp
      rw [hvars]
    rw [hsame]
    rfl
  | cons id ids ih =>
    have hrest : KnowsDefaults known ids p := fun j hj => h j (List.mem_cons_of_mem _ hj)
    -- A variable that holds no label is passed over, and filling it in would not change it.
    have hskip (hother : ∀ v, p.symbols.get? id = some v → v.fillIn known.addressOf = v) :
        p.fillDefaults known.addressOf ids = p.fillDefaults known.addressOf (id :: ids) := by
      refine fillDefaults_eq rfl rfl rfl fun j => ?_
      cases hj : p.symbols.vars.get? j with
      | none => rfl
      | some v =>
        by_cases hid : j = id
        · subst hid
          simp [hother v hj]
        · simp [hid]
    rw [resolveDefaults, Attempt.run_get_bind]
    cases hv : p.symbols.get? id with
    | none =>
      rw [← hskip fun v hv' => by rw [hv] at hv'; cases hv']
      exact ih hrest
    | some v =>
      rw [Option.map_some]
      have hplain (hother : ∀ l, v.default ≠ .label l) :
          p.fillDefaults known.addressOf ids = p.fillDefaults known.addressOf (id :: ids) :=
        hskip fun w hw => by
          rw [hv] at hw
          cases hw
          exact Variable.fillIn_eq_self hother
      cases hdefault : v.default with
      | label l =>
        obtain ⟨a, ha⟩ := Option.isSome_iff_exists.mp (h id List.mem_cons_self v l hv hdefault)
        dsimp only
        rw [ha]
        have hfilled : v.fillIn known.addressOf = { v with default := .uint a } := by
          rw [Variable.fillIn_of_label hdefault, AddressMap.addressOf, ha]
          rfl
        refine (ih ?_).trans (congrArg (Prod.mk _) ?_)
        · intro j hj w l' hw hl'
          rw [SymbolTable.get?_modifyVar] at hw
          split at hw
          · obtain ⟨u, -, rfl⟩ := Option.map_eq_some_iff.mp hw
            cases hl'
          · exact hrest j hj w l' hw hl'
        · refine fillDefaults_eq rfl rfl (OrderedMap.keys_modify _ _ _) fun j => ?_
          have hget := p.symbols.get?_modifyVar id j fun v => { v with default := .uint a }
          rw [SymbolTable.get?] at hget
          rw [hget]
          by_cases hid : j = id
          · subst hid
            rw [hv, if_pos rfl, show p.symbols.vars.get? j = some v from hv, Option.map_some,
              Option.map_some, Option.map_some, ← hfilled, Variable.fillIn_fillIn, ite_self,
              if_pos List.mem_cons_self]
          · rw [if_neg hid]
            simp [SymbolTable.get?, hid]
      | _ =>
        rw [← hplain fun l hl => by rw [hdefault] at hl; cases hl]
        exact ih hrest

theorem fillDefaults_keys (p : Program) (methods : MethodTable) :
    ({ p with methods := methods }).fillDefaults address p.symbols.vars.keys =
      { symbols := (p.fillIn address).symbols, methods } := by
  have hvars : (p.symbols.vars.mapValues fun id v =>
      if id ∈ p.symbols.vars.keys then v.fillIn address else v) =
        p.symbols.vars.mapValues fun _ v => v.fillIn address := by
    refine OrderedMap.eq_of_get? ?_ fun id => ?_
    · rw [OrderedMap.keys_mapValues, OrderedMap.keys_mapValues]
    · rw [OrderedMap.get?_mapValues, OrderedMap.get?_mapValues]
      cases hv : p.symbols.vars.get? id with
      | none => rfl
      | some v =>
        have hid : id ∈ p.symbols.vars.keys :=
          List.mem_map_of_mem (f := Prod.fst) (OrderedMap.get?_eq_some_iff.mp hv)
        simp [hid]
  rw [fillDefaults, fillIn, hvars]

/-! ### Programs -/

/-- The address of every name and label of a program. -/
def layout (p : Program) : AddressMap :=
  (Layout.methodLabels 0 p.methods.toList).map fun e => (e.1, UInt32.ofNat e.2)

theorem map_name_toList (p : Program) : p.methods.toList.map Method.name = p.methods.names := by
  rw [MethodTable.toList, List.map_map]
  rfl

theorem perm_labelNames (p : Program) :
    ((Layout.methodLabels 0 p.methods.toList).map Prod.fst).Perm p.labelNames := by
  have hplaced : placedIn p.code = p.methods.toList.flatMap fun m => placedIn m.code := by
    rw [placedIn, code, List.filterMap_flatMap]
    rfl
  rw [labelNames, hplaced, ← map_name_toList]
  exact Layout.perm_methodLabels 0 p.methods.toList

theorem lookup_layout : (p.layout.lookup l).isSome = true ↔ l ∈ p.labelNames := by
  rw [Layout.lookup_isSome, layout, List.map_map]
  exact p.perm_labelNames.mem_iff

theorem addresses_of_nodup (h : p.labelNames.Nodup) : Layout.addresses p.methods.toList = .ok p.layout :=
  Layout.addresses_of_nodup (p.perm_labelNames.nodup_iff.mpr h)

theorem addresses_of_not_nodup (h : ¬p.labelNames.Nodup) :
    ∃ failure, Layout.addresses p.methods.toList = .error failure := by
  rw [← p.perm_labelNames.nodup_iff] at h
  rw [Layout.addresses]
  cases hrepeated : Layout.firstRepeated [] ((Layout.methodLabels 0 p.methods.toList).map Prod.fst) with
  | none => exact absurd (Layout.firstRepeated_eq_none.mp hrepeated).1 h
  | some l => exact ⟨_, rfl⟩

/-- All labels that a program uses have addresses exactly if its jumps and its variables find theirs. -/
theorem labelUses_subset_iff : (∀ l ∈ p.labelUses, l ∈ p.labelNames) ↔
      p.layout.Covers p.code ∧ KnowsDefaults p.layout p.symbols.vars.keys p := by
  simp only [labelUses, List.mem_append, List.mem_filterMap, ← lookup_layout]
  constructor
  · intro h
    refine ⟨fun i hi l hl => h l (Or.inl ⟨i, hi, hl⟩), fun id _ v l hv hl => h l (Or.inr ?_)⟩
    exact ⟨(id, v), OrderedMap.get?_eq_some_iff.mp hv, Variable.heldLabel?_eq_some.mpr hl⟩
  · rintro ⟨hcode, hdefaults⟩ l (⟨i, hi, hl⟩ | ⟨⟨id, v⟩, hv, hl⟩)
    · exact hcode i hi l hl
    · exact hdefaults id (List.mem_map_of_mem (f := Prod.fst) hv) v l
        (OrderedMap.get?_eq_some_iff.mpr hv) (Variable.heldLabel?_eq_some.mp hl)

theorem fillNames_names (p : Program) :
    p.methods.fillNames address p.methods.names = (p.fillIn address).methods := by
  rw [MethodTable.fillNames, fillIn]
  congr 1
  refine OrderedMap.eq_of_get? ?_ fun x => ?_
  · rw [OrderedMap.keys_mapValues, OrderedMap.keys_mapValues]
  · rw [OrderedMap.get?_mapValues, OrderedMap.get?_mapValues]
    cases hb : p.methods.bodies.get? x with
    | none => rfl
    | some b =>
      have hx : x ∈ p.methods.names :=
        List.mem_map_of_mem (f := Prod.fst) (OrderedMap.get?_eq_some_iff.mp hb)
      simp [hx]

/-- A program whose names are distinct and whose labels all have addresses is filled in. -/
theorem run_resolveAddresses_of_names (hnodup : p.labelNames.Nodup)
    (huses : ∀ l ∈ p.labelUses, l ∈ p.labelNames) :
    resolveAddresses.run p = (.ok (), p.fillIn p.layout.addressOf) := by
  obtain ⟨hcode, hdefaults⟩ := labelUses_subset_iff.mp huses
  rw [run_resolveAddresses,
    MethodTable.run_resolveAddresses_of_covers (addresses_of_nodup hnodup) hcode]
  have hdefaults' : KnowsDefaults p.layout p.symbols.vars.keys
      { p with methods := p.methods.fillNames p.layout.addressOf p.methods.names } := hdefaults
  dsimp only
  rw [run_resolveDefaults hdefaults', fillDefaults_keys, fillNames_names]

/-- Addresses can be filled in exactly if the names of the methods and the labels are distinct and
include every label that a jump goes to or a variable holds. -/
theorem resolveAddresses_isOk (p : Program) :
    (resolveAddresses.run p).1 = .ok () ↔
      p.labelNames.Nodup ∧ ∀ l ∈ p.labelUses, l ∈ p.labelNames := by
  constructor
  · intro hok
    rw [run_resolveAddresses] at hok
    have hnodup : p.labelNames.Nodup := by
      by_contra hnodup
      obtain ⟨failure, hfailure⟩ := addresses_of_not_nodup hnodup
      rw [MethodTable.run_resolveAddresses, hfailure] at hok
      cases hok
    have haddresses := addresses_of_nodup hnodup
    have hcode : p.layout.Covers p.code := by
      by_contra hcode
      have hfails := MethodTable.run_resolveAddresses_of_not_covers haddresses hcode
      rcases hrun : MethodTable.resolveAddresses.run p.methods with ⟨result, t⟩
      rw [hrun] at hok hfails
      cases result with
      | ok known => exact hfails known rfl
      | error failure => cases hok
    rw [MethodTable.run_resolveAddresses_of_covers haddresses hcode] at hok
    have hdefaults : KnowsDefaults p.layout p.symbols.vars.keys
        { p with methods := p.methods.fillNames p.layout.addressOf p.methods.names } :=
      (resolveDefaults_isOk _ _).mp hok
    exact ⟨hnodup, labelUses_subset_iff.mpr ⟨hcode, hdefaults⟩⟩
  · rintro ⟨hnodup, huses⟩
    rw [run_resolveAddresses_of_names hnodup huses]

end Program

end TriggerCompiler
