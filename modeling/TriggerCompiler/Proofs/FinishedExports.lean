import TriggerCompiler.Proofs.EncodedAddresses

/-! Which methods of a finished program the machine can call. Each finishing step exports the methods that
variables name, or the start, or no method; and the start is exported by a step of its own exactly if the
local player is one of the variables that are left. -/

namespace TriggerCompiler

namespace MethodTable

variable {t : MethodTable} {x y : String}

theorem exports_iff_mem : t.Exports x ↔ x ∈ (t.toList.filter Method.exported).map Method.name := by
  rw [List.mem_map]
  constructor
  · rintro ⟨b, hb, hexported⟩
    exact ⟨⟨x, b.exported, b.code⟩, List.mem_filter.mpr ⟨mem_toList.mpr hb, hexported⟩, rfl⟩
  · rintro ⟨method, hmethod, rfl⟩
    obtain ⟨hmem, hexported⟩ := List.mem_filter.mp hmethod
    exact ⟨_, mem_toList.mp hmem, hexported⟩

theorem exports_exportExisting :
    (t.exportExisting x).Exports y ↔ t.Exports y ∨ x = y ∧ t.contains y = true := by
  rw [Exports, get?_exportExisting, Exports, contains_iff]
  by_cases hxy : y = x
  · subst hxy
    cases t.bodies.get? y with
    | none => simp
    | some b => simp
  · simp [hxy, Ne.symm hxy]

theorem exports_foldl_exportExisting (names : List String) :
    (names.foldl exportExisting t).Exports y ↔ t.Exports y ∨ y ∈ names ∧ t.contains y = true := by
  induction names generalizing t with
  | nil => simp
  | cons name names ih =>
    rw [List.foldl_cons, ih, exports_exportExisting, contains_exportExisting, List.mem_cons,
      or_assoc, ← or_and_right, eq_comm]

theorem exports_foldl_emit (names : List String) (code : List Instruction) :
    (names.foldl (fun t x => t.emit x code) t).Exports y ↔ t.Exports y := by
  have hflag (b : MethodBody) :
      MethodBody.exported { b with code := b.code ++ code } = (b.exported || false) :=
    (Bool.or_false _).symm
  induction names generalizing t with
  | nil => rfl
  | cons name names ih =>
    refine ih.trans ((exports_update hflag).trans ?_)
    simp

theorem exports_mapValues {f : String → MethodBody → MethodBody}
    (hf : ∀ x b, (f x b).exported = b.exported) :
    MethodTable.Exports { t with bodies := t.bodies.mapValues f } x ↔ t.Exports x := by
  rw [Exports, OrderedMap.get?_mapValues, Exports]
  cases t.bodies.get? x with
  | none => simp
  | some b => simp [hf]

end MethodTable

namespace Program

variable {p : Program} {x s : String}

/-! ### The steps -/

theorem exports_exportNamedMethods : p.exportNamedMethods.methods.Exports x ↔
    p.methods.Exports x ∨ x ∈ p.symbols.namedMethods ∧ p.methods.contains x = true :=
  MethodTable.exports_foldl_exportExisting _

theorem exports_requestSerialization :
    p.requestSerialization.2.methods.Exports x ↔ p.methods.Exports x := by
  rw [requestSerialization]
  split
  · rfl
  · exact MethodTable.exports_foldl_emit _ _

theorem exports_initLocalPlayer : p.initLocalPlayer.methods.Exports x ↔
    p.methods.Exports x ∨ x = startMethod ∧ p.UsesLocalPlayer := by
  by_cases h : p.UsesLocalPlayer
  · rw [initLocalPlayer_of_uses h, MethodTable.exports_update fun b => (Bool.or_true _).symm]
    simp [h, eq_comm]
  · rw [initLocalPlayer_of_not_uses h]
    simp [h]

theorem exports_addReturnSequences (h : p.symbols.Grounded) :
    p.addReturnSequences.methods.Exports x ↔ p.methods.Exports x := by
  rw [MethodTable.Exports, get?_addReturnSequences h, MethodTable.Exports]
  cases p.methods.bodies.get? x <;> simp [wrapBody]

/-! ### The local player among the variables -/

theorem usesLocalPlayer_initLocalPlayer : p.initLocalPlayer.UsesLocalPlayer ↔ p.UsesLocalPlayer := by
  by_cases h : p.UsesLocalPlayer
  · refine iff_of_true ?_ h
    rw [initLocalPlayer_of_uses h]
    refine ⟨h.1, referenceCount_ne_zero_iff.mpr ⟨.push SystemVariable.localPlayer.name,
      mem_code.mpr ⟨startMethod, ?_⟩, rfl⟩⟩
    rw [MethodTable.codeOf, MethodTable.get?_update, if_pos rfl]
    exact List.mem_cons_self
  · rw [initLocalPlayer_of_not_uses h]

/-- A prologue and a return sequence name only their own variables. -/
theorem mem_wrapBody_of_symbol {halt back : String} {b : MethodBody} {i : Instruction}
    (hs : i.symbol? = some s) (hhalt : s ≠ halt) (hback : s ≠ back) :
    i ∈ (wrapBody halt back x b).code ↔ i ∈ b.code := by
  have hpush {other : String} (hother : s ≠ other) : i ≠ .push other := by
    rintro rfl
    exact hother (Option.some.inj hs).symm
  have hjump : i ≠ .jumpIndirect back := by
    rintro rfl
    exact hback (Option.some.inj hs).symm
  have hlabel (l : String) : i ≠ .label l := by
    rintro rfl
    cases hs
  have hcopy : i ≠ .copy := by
    rintro rfl
    cases hs
  rw [wrapBody]
  cases b.exported with
  | true => simp [hpush hhalt, hpush hback, hjump, hlabel, hcopy]
  | false => simp [hpush hback, hjump, hlabel, hcopy]

theorem usesLocalPlayer_addReturnSequences (h : p.symbols.Grounded) :
    p.addReturnSequences.UsesLocalPlayer ↔ p.UsesLocalPlayer := by
  refine usesLocalPlayer_congr ?_ fun x i hs => ?_
  · rw [addReturnSequences]
    split
    · rfl
    · rw [Bool.eq_iff_iff, SymbolTable.contains_system_iff, or_iff_right (by decide),
        SymbolTable.contains_system_iff, or_iff_right (by decide)]
  · rw [MethodTable.codeOf, get?_addReturnSequences h, Option.map_map, MethodTable.codeOf]
    cases p.methods.bodies.get? x with
    | none => rfl
    | some b => exact mem_wrapBody_of_symbol hs (by decide) (by decide)

/-- The local player is left after pruning exactly if some instruction names it. -/
theorem localPlayer_left_iff (h : p.Sane) (sync : SyncMethod) (settings : Settings) :
    (p.prepare sync settings).2.symbols.names.contains SystemVariable.localPlayer.name = true ↔
      p.UsesLocalPlayer := by
  have hheap := furnishes_initLocalPlayer
    (furnishes_requested h.consistent.toGrounded sync settings).grounded
  rw [← usesLocalPlayer_requested p sync settings, ← usesLocalPlayer_initLocalPlayer,
    ← usesLocalPlayer_addReturnSequences hheap.grounded, UsesLocalPlayer,
    OrderedMap.contains_eq_true, OrderedMap.contains_eq_true]
  simp only [(h.restricts sync settings).names, exists_and_right]
  refine and_congr_right fun _ => ⟨fun hleft hzero => ?_, fun hcount hzero => absurd hzero hcount⟩
  exact hleft hzero .localPlayer (by decide) rfl

/-! ### All steps -/

theorem exports_prepare (h : p.Sane) (sync : SyncMethod) (settings : Settings) :
    (p.prepare sync settings).2.methods.Exports x ↔ p.methods.Exports x ∨
      (x ∈ p.symbols.namedMethods ∧ p.methods.contains x = true) ∨ x = startMethod ∧
        (p.prepare sync settings).2.symbols.names.contains
          SystemVariable.localPlayer.name = true := by
  have hheap := furnishes_initLocalPlayer
    (furnishes_requested h.consistent.toGrounded sync settings).grounded
  have hrequested : (p.requested sync settings).methods.Exports x ↔
      p.exportNamedMethods.methods.Exports x := by
    rw [requested]
    split
    · exact exports_requestSerialization
    · rfl
  rw [methods_prepare, wrapped, exports_addReturnSequences hheap.grounded, exports_initLocalPlayer,
    hrequested, exports_exportNamedMethods, usesLocalPlayer_requested, localPlayer_left_iff h, or_assoc]

variable {q : Program} {sync : SyncMethod} {settings : Settings} {report : FinishReport}

/-- The address that is filled in for a label when a program is finished. -/
def finalAddress (p : Program) (sync : SyncMethod) (settings : Settings) : String → UInt32 :=
  (p.prepare sync settings).2.layout.addressOf

theorem eq_fillIn_of_finish (h : (finish sync settings).run p = (.ok report, q)) :
    q = (p.prepare sync settings).2.fillIn (p.finalAddress sync settings) := by
  rw [run_finish] at h
  have hok : (resolveAddresses.run (p.prepare sync settings).2).1 = .ok () := by
    rcases hrun : resolveAddresses.run (p.prepare sync settings).2 with ⟨result, r⟩
    rw [hrun] at h
    cases result with
    | ok _ => rfl
    | error failure => cases h
  obtain ⟨hnodup, huses⟩ := (resolveAddresses_isOk _).mp hok
  rw [run_resolveAddresses_of_names hnodup huses] at h
  exact (congrArg Prod.snd h).symm

theorem get?_fillIn (address : String → UInt32) (p : Program) (id : VarId) :
    (p.fillIn address).symbols.get? id = (p.symbols.get? id).map (Variable.fillIn address) :=
  OrderedMap.get?_mapValues _ _ _

theorem exports_fillIn (address : String → UInt32) (p : Program) :
    (p.fillIn address).methods.Exports x ↔ p.methods.Exports x :=
  MethodTable.exports_mapValues fun _ _ => rfl

/-- The methods that the machine can call in a finished program: the ones exported before, the ones that
variables name, and the start if the local player is a variable. -/
theorem exports_finish (hsane : p.Sane) (h : (finish sync settings).run p = (.ok report, q)) :
    q.methods.Exports x ↔ p.methods.Exports x ∨
      (x ∈ p.symbols.namedMethods ∧ p.methods.contains x = true) ∨ x = startMethod ∧
        ∃ id v, q.symbols.get? id = some v ∧ v.name = SystemVariable.localPlayer.name := by
  obtain rfl := eq_fillIn_of_finish h
  have hprunable := (hsane.prunable_wrapped sync settings).restrict (hsane.restricts sync settings)
  rw [exports_fillIn, exports_prepare hsane]
  refine or_congr_right (or_congr_right (and_congr_right fun _ => ?_))
  constructor
  · intro hname
    obtain ⟨id, hid⟩ := OrderedMap.contains_eq_true.mp hname
    obtain ⟨v, hv, hname⟩ := hprunable.names hid
    exact ⟨id, v.fillIn _, by rw [get?_fillIn, hv]; rfl, hname⟩
  · rintro ⟨id, v, hv, hname⟩
    rw [get?_fillIn] at hv
    obtain ⟨w, hw, rfl⟩ := Option.map_eq_some_iff.mp hv
    have hfound := hprunable.unique hw
    rw [show w.name = SystemVariable.localPlayer.name from hname] at hfound
    exact OrderedMap.contains_eq_true.mpr ⟨id, hfound⟩

/-- The methods that variables name are those of before. -/
theorem method_of_finish (hsane : p.Sane) (h : (finish sync settings).run p = (.ok report, q))
    {id : VarId} {v : Variable} (hv : q.symbols.get? id = some v) (hx : v.default = .method x) :
    p.symbols.get? id = some v := by
  obtain rfl := eq_fillIn_of_finish h
  rw [get?_fillIn] at hv
  obtain ⟨w, hw, rfl⟩ := Option.map_eq_some_iff.mp hv
  have hdefault : w.default = .method x := by
    have hfilled : w.default.fillIn _ = .method x := hx
    cases hw : w.default with
    | label l =>
      rw [hw] at hfilled
      cases hfilled
    | _ => rwa [hw] at hfilled
  rw [Variable.fillIn_eq_self fun l hl => by rw [hdefault] at hl; cases hl]
  refine (hsane.new_of_prepare hw).resolve_right ?_
  rintro ⟨which, rfl⟩
  cases which <;> cases hdefault

end Program

end TriggerCompiler
