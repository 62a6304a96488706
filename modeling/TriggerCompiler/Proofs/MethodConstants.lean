import TriggerCompiler.Proofs.ConstantPool
import TriggerCompiler.Proofs.EmittedNames

/-! The methods that variables name. If the author of a program writes no names of methods, only pooled
constants hold them: in a program itself, and in every module that it merges. Such a constant names a
method that an event of the program or of a merged module is sent on to, and every such method has its
constant. -/

namespace TriggerCompiler

open Text

/-! ### What authors write -/

/-- The values that the author of a program writes: those of variables and those in slots of actions. -/
def ProgramSource.authorValues (s : ProgramSource) : List Value :=
  s.data.vars.filterMap VariableDecl.default ++
    s.data.allActions.flatMap fun action => (action.inputs ++ action.multiInputs).filterMap fun slot =>
      match slot with
      | .constant value => some value
      | _ => none

/-- The method that a value names. -/
def Value.method? : Value → Option String
  | .method x => some x
  | _ => none

/-- The author of the program writes no names of methods. -/
def ProgramSource.NamesNoMethod (s : ProgramSource) : Prop := ∀ v ∈ s.authorValues, v.method? = none

instance (s : ProgramSource) : Decidable s.NamesNoMethod :=
  inferInstanceAs (Decidable (∀ v ∈ s.authorValues, v.method? = none))

theorem VarType.defaultValue_ne_method (type : VarType) (x : String) :
    type.defaultValue ≠ .method x := by
  cases type <;> exact nofun

namespace ProgramSource.NamesNoMethod

variable {s : ProgramSource} {x : String}

theorem initialValue_ne (h : s.NamesNoMethod) {d : VariableDecl} (hd : d ∈ s.data.vars) :
    d.initialValue ≠ .method x := by
  rw [VariableDecl.initialValue]
  cases hdefault : d.default with
  | none => exact d.type.defaultValue_ne_method x
  | some value =>
    have hmem : value ∈ s.authorValues :=
      List.mem_append_left _ (List.mem_filterMap.mpr ⟨d, hd, hdefault⟩)
    rintro rfl
    cases h _ hmem

theorem slot_ne (h : s.NamesNoMethod) {action : ActionInstance} {value : Value}
    (haction : action ∈ s.data.allActions)
    (hvalue : InputSlot.constant value ∈ action.inputs ++ action.multiInputs) : value ≠ .method x := by
  have hmem : value ∈ s.authorValues := List.mem_append_right _ (List.mem_flatMap.mpr
    ⟨action, haction, List.mem_filterMap.mpr ⟨_, hvalue, rfl⟩⟩)
  rintro rfl
  cases h _ hmem

end ProgramSource.NamesNoMethod

/-! ### Heaps in which only constants name methods -/

namespace SymbolTable

variable {t t' : SymbolTable} {x : String}

theorem mem_namedMethods :
    x ∈ t.namedMethods ↔ ∃ id v, t.get? id = some v ∧ v.default = .method x := by
  rw [namedMethods, List.mem_filterMap]
  constructor
  · rintro ⟨⟨id, v⟩, hmem, hx⟩
    refine ⟨id, v, OrderedMap.get?_eq_some_iff.mpr hmem, ?_⟩
    dsimp only at hx
    split at hx
    · rename_i y hdefault
      cases hx
      exact hdefault
    · cases hx
  · rintro ⟨id, v, hv, hdefault⟩
    refine ⟨(id, v), OrderedMap.get?_eq_some_iff.mp hv, ?_⟩
    dsimp only
    rw [hdefault]

theorem Extends.namedMethods (h : t.Extends t') (hx : x ∈ t.namedMethods) : x ∈ t'.namedMethods := by
  obtain ⟨id, v, hv, hdefault⟩ := mem_namedMethods.mp hx
  obtain ⟨w, hw, hsame⟩ := h.vars hv
  exact mem_namedMethods.mpr ⟨id, w, hw, hsame.default.trans hdefault⟩

/-- A heap on which only pooled constants name methods. -/
def NamesByConstants (t : SymbolTable) : Prop :=
  ∀ ⦃id v x⦄, t.get? id = some v → v.default = .method x → v.kind = .constant

end SymbolTable

/-- No variable that a program makes for itself names a method. -/
theorem Variable.IsMade.default_ne {ctx : Context} {tracked : Bool} {l : Linker} {t : SymbolTable}
    {v : Variable} (h : v.IsMade (ctx.tracking tracked l) t) (hsource : ctx.source.NamesNoMethod)
    (ht : t.NamesByConstants) (hproper : t.Proper) (x : String) : v.default ≠ .method x := by
  intro hx
  cases h with
  | declared hmem _ _ _ hdefault _ => exact hsource.initialValue_ne hmem (hdefault.symm.trans hx)
  | literal h _ _ =>
    obtain ⟨action, haction, spec, -, -, s, hs, hslot⟩ := h
    refine hsource.slot_ne (TriggerData.mem_allActions haction) ?_ hx
    rcases ResolvedAction.slot_mem hs _ with hdefault | hmem
    · rw [hslot] at hdefault
      cases hdefault
    · rwa [hslot] at hmem
  | system which _ _ hdefault =>
    rw [hdefault] at hx
    cases which <;> cases hx
  | blockLocal _ _ _ hdefault => exact v.type.defaultValue_ne_method x (hdefault.symm.trans hx)
  | temp _ _ hdefault => exact v.type.defaultValue_ne_method x (hdefault.symm.trans hx)
  | parameter _ _ _ _ _ hdefault => exact v.type.defaultValue_ne_method x (hdefault.symm.trans hx)
  | eventParam _ _ _ hdefault => exact v.type.defaultValue_ne_method x (hdefault.symm.trans hx)
  | counter _ _ _ hdefault =>
    rw [hdefault] at hx
    cases hx
  | @shadow id w hw hwatched _ _ hdefault =>
    -- A variable that is watched is no constant.
    have hconstant := ht hw (hdefault.symm.trans hx)
    rcases hproper.watched hw (Or.inl hwatched) with hkind | hkind
    · rw [hconstant] at hkind
      cases hkind
    · rw [hconstant] at hkind
      cases hkind

theorem Variable.IsImport.kind_of_method {m : Linkable} {names : Renaming} {v : Variable}
    (h : IsImport m names v) (hm : m.program.symbols.NamesByConstants) {x : String}
    (hx : v.default = .method x) : v.kind = .constant := by
  cases h with
  | copied hw hconstant _ _ _ _ _ hdefault =>
    exact absurd (hm hw (hdefault.symm.trans hx)) hconstant
  | constant _ _ hv => exact hv.kind
  | system which => cases which <;> cases hx
  | @eventParam id w _ _ => exact absurd hx (w.type.defaultValue_ne_method x)

namespace Emission

variable {ctx : Context} {e e' : Emission} {x : String}

theorem Advance.namesByConstants (h : Move ctx e e') (hsane : ctx.Sane) (hn : e.Named)
    (hsource : ctx.source.NamesNoMethod)
    (hmodules : ∀ key m, ctx.modules.get? key = some m → m.program.symbols.NamesByConstants)
    (he : e.program.symbols.NamesByConstants) : e'.program.symbols.NamesByConstants := by
  intro id v x hv hx
  rcases h.brings hsane hn hv with ⟨w, hw, hsame⟩ | hbrings
  · rw [hsame.kind]
    exact he hw (hsame.default.symm.trans hx)
  · cases hbrings with
    | made hmade => exact absurd hx (hmade.default_ne hsource he hn.proper x)
    | pooled hconstant _ => exact hconstant.kind
    | imported hm _ himport => exact himport.kind_of_method (hmodules _ _ hm) hx

theorem Advances.namesByConstants (h : Moves ctx (.start ctx.source) e) (hsane : ctx.Sane)
    (hsource : ctx.source.NamesNoMethod)
    (hmodules : ∀ key m, ctx.modules.get? key = some m → m.program.symbols.NamesByConstants) :
    e.program.symbols.NamesByConstants := by
  have hboth : e.Orderly ∧ e.program.symbols.NamesByConstants :=
    h.keeps (P := fun e => e.Orderly ∧ e.program.symbols.NamesByConstants)
      (fun _ _ hmove he => ⟨hmove.orderly hsane he.1,
        hmove.namesByConstants hsane he.1.toNamed hsource hmodules he.2⟩)
      ⟨orderly_start _, fun _ _ _ hv => by cases hv⟩
  exact hboth.2

/-! ### The constants that name methods -/

theorem Named.constant_of_poolsMethod (hn : e.Named) (h : e.PoolsMethod x) :
    ∃ id v, e.program.symbols.get? id = some v ∧ v.kind = .constant ∧
      v.default = .method x := by
  obtain ⟨id, hid⟩ := h
  obtain ⟨v, hv, hkind, hkey⟩ := hn.consistent.constants hid
  exact ⟨id, v, hv, hkind, Value.eq_of_poolKey hkey rfl⟩

/-- What a constant that names a method names: a method that an event is sent on to. -/
theorem Tidy.method_of_constant (ht : e.Tidy ctx) {id : VarId} {v : Variable}
    (hv : e.program.symbols.get? id = some v) (hkind : v.kind = .constant)
    (hx : v.default = .method x) :
    (e.hasErrors = false → e.program.methods.contains x = true) ∧
      ctx.source.Dispatches x ∨ e.Merges ctx Linkable.Dispatches x := by
  have hpooled := ht.constants hv hkind
  rw [hx] at hpooled
  generalize v.type = type at hpooled
  cases hpooled with
  | plain hplain => cases hplain
  | method hdispatches hcontains => exact Or.inl ⟨hcontains, hdispatches⟩
  | mergedMethod hmerges => exact Or.inr hmerges

/-- A method that an event of a merged module is sent on to is there, and has its constant. -/
theorem Tidy.poolsMethod_of_merges (ht : e.Tidy ctx) (hctx : ctx.Sound)
    (hx : e.Merges ctx Linkable.Dispatches x) :
    e.program.methods.contains x = true ∧ e.PoolsMethod x := by
  obtain ⟨m, t, b, hcarries, rfl, hdispatches⟩ := hx
  obtain ⟨_, _, hrecord⟩ := ht.linked.record_of hcarries
  have hsound := hctx.modules hcarries.cached
  have hhook : (ctx.settings.includeEventHooks && Renaming.isEventHook b) = false := by
    rw [Bool.and_eq_false_iff, ← Bool.not_eq_true, ← Bool.not_eq_true]
    exact Or.inr fun hhook => not_isChainMethod_of_isEventHook hhook hdispatches.chain
  have hunmerged := hdispatches.chain.isOwnMethodName.unmerged
  refine ⟨(hrecord.code hdispatches.has (hrecord.notMem_shared hctx hunmerged) hhook).1, ?_⟩
  obtain ⟨id, w, hw, hkind, hdefault⟩ := hdispatches.named
  have hown : m.OwnMethod ctx.settings.includeEventHooks b :=
    ⟨hdispatches.has, fun hlends => hunmerged (hsound.lends_begins hlends), hhook⟩
  have hfits := hsound.proper.fits hw
  rw [hkind] at hfits
  have hbegins : ¬Begins "__m" w.name := (Numbered.begins hfits).not_begins (by decide) (by decide)
  obtain ⟨j, hj, -⟩ := (hrecord.has hw (hrecord.notMem_shared hctx hbegins)).pooled hkind
  have htype : w.type = .string := by
    have hpools := hsound.constants hw hkind
    rw [hdefault] at hpools
    generalize w.type = type at hpools ⊢
    cases hpools with
    | plain hplain => cases hplain
    | method _ _ => rfl
  rw [hdefault, htype, Renaming.value, hcarries.methods_own hctx ht.linked hown] at hj
  exact ⟨j, hj⟩

end Emission

end TriggerCompiler
