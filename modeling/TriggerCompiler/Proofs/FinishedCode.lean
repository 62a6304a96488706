import TriggerCompiler.Proofs.ProgramSteps
import TriggerCompiler.Proofs.FinishedExports

/-! The code of finished programs. Every finishing step leaves the code of a method in one piece and puts
code without comments around it; then the addresses are filled in, and the variables keep their numbers. -/

namespace TriggerCompiler

namespace MethodTable

theorem codeOf_mapValues (t : MethodTable) (f : String → MethodBody → MethodBody) (x : String) :
    ({ t with bodies := t.bodies.mapValues f } : MethodTable).codeOf x =
      ((t.bodies.get? x).map fun b => (f x b).code).getD [] := by
  rw [codeOf, OrderedMap.get?_mapValues, Option.map_map]
  rfl

end MethodTable

namespace Program

variable {p q : Program} {x : String} {sync : SyncMethod} {settings : Settings} {report : FinishReport}

theorem codeOf_fillIn (address : String → UInt32) (p : Program) (x : String) :
    (p.fillIn address).methods.codeOf x = (p.methods.codeOf x).map (Instruction.fillIn address) := by
  refine (MethodTable.codeOf_mapValues p.methods (fun _ b => b.fillIn address) x).trans ?_
  rw [MethodTable.codeOf]
  cases p.methods.bodies.get? x <;> rfl

theorem isComment_fillIn (address : String → UInt32) (i : Instruction) :
    (i.fillIn address).isComment = i.isComment := by
  cases i with
  | jump target => cases target <;> rfl
  | jumpIfFalse target => cases target <;> rfl
  | _ => rfl

theorem opening_closing_fillIn (address : String → UInt32) (p : Program) (sync : SyncMethod)
    (settings : Settings) (exported : Bool) (x : String) (code : List Instruction) :
    (p.opening exported x ++ code ++ p.closing sync settings x).map (Instruction.fillIn address) =
      p.opening exported x ++ code.map (Instruction.fillIn address) ++ p.closing sync settings x := by
  have hopening : (p.opening exported x).map (Instruction.fillIn address) = p.opening exported x := by
    rw [opening, List.map_append, List.map_append]
    split <;> split <;> rfl
  have hclosing :
      (p.closing sync settings x).map (Instruction.fillIn address) = p.closing sync settings x := by
    rw [closing, List.map_append]
    split <;> rfl
  rw [List.map_append, List.map_append, hopening, hclosing]

theorem code_of_finish (hc : p.symbols.Grounded)
    (h : (finish sync settings).run p = (.ok report, q)) {b : MethodBody}
    (hb : q.methods.bodies.get? x = some b) :
    b.code = p.opening b.exported x ++
      (p.methods.codeOf x).map (Instruction.fillIn (p.finalAddress sync settings)) ++
        p.closing sync settings x := by
  rw [eq_fillIn_of_finish h, fillIn, OrderedMap.get?_mapValues] at hb
  obtain ⟨c, hget, rfl⟩ := Option.map_eq_some_iff.mp hb
  rw [← opening_closing_fillIn]
  show c.code.map _ = (p.opening c.exported x ++ _ ++ _).map _
  rw [code_of_prepare hc hget]

theorem names_of_finish (h : (finish sync settings).run p = (.ok report, q)) :
    q.methods.names = p.methods.names ++
      if p.UsesLocalPlayer ∧ startMethod ∉ p.methods.names then [startMethod] else [] := by
  rw [eq_fillIn_of_finish h]
  exact (OrderedMap.keys_mapValues _ _).trans (names_prepare p sync settings)

/-- The emitted code stands in the finished program in one piece, with the addresses filled in and without
comments around it. -/
theorem exists_code_of_finish (hc : p.symbols.Grounded)
    (h : (finish sync settings).run p = (.ok report, q)) (x : String) :
    ∃ before behind, q.methods.codeOf x =
        before ++ (p.methods.codeOf x).map (Instruction.fillIn (p.finalAddress sync settings)) ++ behind ∧
      ∀ i ∈ before ++ behind, i.isComment = false := by
  cases hb : q.methods.bodies.get? x with
  | none =>
    have hnone : p.methods.codeOf x = [] := by
      by_contra hne
      obtain ⟨i, hi⟩ := List.exists_mem_of_ne_nil _ hne
      have hx : x ∈ q.methods.names := by
        rw [names_of_finish h]
        exact List.mem_append_left _ (MethodTable.mem_names.mpr (MethodTable.mem_codeOf hi))
      obtain ⟨b, hfound⟩ := MethodTable.contains_iff.mp (MethodTable.mem_names.mp hx)
      rw [hb] at hfound
      cases hfound
    refine ⟨[], [], ?_, nofun⟩
    rw [hnone, MethodTable.codeOf, hb]
    rfl
  | some b =>
    refine ⟨p.opening b.exported x, p.closing sync settings x, ?_, fun i hi => ?_⟩
    · rw [MethodTable.codeOf_of_get? hb, code_of_finish hc h hb]
    · rw [opening, closing] at hi
      split at hi <;> split at hi <;> split at hi <;>
        simp only [localPlayerFetch, serializationRequest, List.mem_append, List.mem_cons,
          List.not_mem_nil, or_false, false_or] at hi <;> grind [Instruction.isComment]

/-- The variables that are no system variables have the values that they had, with the addresses filled
in. -/
theorem get?_of_finish (hsane : p.Sane) (h : (finish sync settings).run p = (.ok report, q)) {id : VarId}
    {v : Variable} (hv : p.symbols.get? id = some v) (hkind : v.kind ≠ .system) :
    q.symbols.get? id = some (v.fillIn (p.finalAddress sync settings)) := by
  obtain rfl := eq_fillIn_of_finish h
  rw [get?_fillIn, hsane.get?_prepare hv hkind]
  rfl

end Program

end TriggerCompiler
