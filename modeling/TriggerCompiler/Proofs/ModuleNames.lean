import TriggerCompiler.Proofs.HeapSteps
import TriggerCompiler.Proofs.ModuleAccess

/-! The names that a compiled module has, and those that it gets in a caller. A name of a module is one
of its own, or the own name of a nested module behind the beginning that the nested module has there. In
a caller it gets the beginning of the module that it stems from, so that no two names become one. -/

namespace TriggerCompiler

open Text

/-! ### Sorts of names -/

variable {l : String}

theorem IsLabelName.begins (h : IsLabelName l) : Begins "__lbl_" l := by
  obtain ⟨hint, n, rfl⟩ := h
  refine begins_iff.mpr ⟨hint ++ "_" ++ toString n, ?_⟩
  show "__lbl_" ++ hint ++ "_" ++ toString n = _
  simp only [String.append_assoc]

theorem IsLabelName.not_begins (h : IsLabelName l) : ¬Begins "__m" l :=
  h.begins.not_begins (by decide) (by decide)

/-- A label that is handed out ends with a number, unlike the labels of a method. -/
theorem IsLabelName.append_ne (h : IsLabelName l) (start x : String) :
    start ++ l ≠ entryLabel x ∧ start ++ l ≠ endLabel x := by
  obtain ⟨hint, n, rfl⟩ := h
  have hlabel : start ++ labelName hint n = start ++ "__lbl_" ++ hint ++ "_" ++ toString n := by
    show start ++ ("__lbl_" ++ hint ++ "_" ++ toString n) = _
    simp only [String.append_assoc]
  have hword (word : String) (hword : '_' ∉ word.toList) (hchar : ∃ c ∈ word.toList, c.isDigit = false) :
      start ++ labelName hint n ≠ x ++ "_" ++ "_" ++ word := by
    intro heq
    rw [hlabel] at heq
    obtain ⟨c, hc, hdigit⟩ := hchar
    rw [← underscore_append_inj (underscore_not_mem_digits n) hword heq, toList_toString_nat] at hc
    rw [Nat.isDigit_of_mem_toDigits (by decide) (by decide) hc] at hdigit
    cases hdigit
  refine ⟨fun heq => hword "entry" (by decide) ⟨'e', by decide, by decide⟩ ?_,
    fun heq => hword "end" (by decide) ⟨'e', by decide, by decide⟩ ?_⟩
  · rw [heq, entryLabel, String.append_assoc, String.append_assoc]
    rfl
  · rw [heq, endLabel, String.append_assoc, String.append_assoc]
    rfl

/-- The name of a method that copies the variables of an instance, the beginning apart. -/
def IsCopyName (x : String) : Prop :=
  ∃ k : Nat, ∃ part ∈ ["copy_in", "copy_out"], x = "i" ++ toString k ++ ("__" ++ part)

variable {x : String}

theorem IsCopyName.begins (h : IsCopyName x) : Begins "i" x := by
  obtain ⟨k, part, -, rfl⟩ := h
  rw [String.append_assoc]
  exact begins_append _ _

/-- An identifier that belongs neither to a merged module nor to an instance and is no label. -/
structure IsOwnMethodName (x : String) : Prop where
  unmerged : ¬Begins "__m" x
  copy : ¬IsCopyName x
  label : ¬Begins "__lbl_" x
  legal : isLegalIdentifier x = true

theorem IsOwnMethodName.of_begins {start : String} (h : Begins start x)
    (hstart : ∀ other ∈ ["__m", "i", "__lbl_"], ¬Begins other start ∧ ¬Begins start other)
    (hlegal : isLegalIdentifier x = true) : IsOwnMethodName x := by
  have hother {other : String} (hmem : other ∈ ["__m", "i", "__lbl_"]) : ¬Begins other x :=
    h.not_begins (hstart other hmem).1 (hstart other hmem).2
  exact ⟨hother (by decide), fun hx => hother (by decide) hx.begins, hother (by decide), hlegal⟩

theorem unmerged_of_isEventHook (h : Renaming.isEventHook x = true) : ¬Begins "__m" x :=
  fun hx => (begins_of_isEventHook h).2 ((by decide : Begins "__" "__m").trans hx)

theorem isOwnMethodName_of_isEventHook (h : Renaming.isEventHook x = true)
    (hlegal : isLegalIdentifier x = true) : IsOwnMethodName x := by
  have hunder {start : String} (hstart : Begins "__" start) : ¬Begins start x := fun hx =>
    (begins_of_isEventHook h).2 (hstart.trans hx)
  refine ⟨unmerged_of_isEventHook h, fun hx => ?_, hunder (by decide), hlegal⟩
  rcases hx.begins.or (begins_of_isEventHook h).1 with hor | hor
  · exact absurd hor (by decide)
  · exact absurd hor (by decide)

theorem isOwnMethodName_of_isVariableName (h : Emit.isVariableName x = true) :
    IsOwnMethodName x := by
  refine ⟨not_begins_of_isVariableName h (by decide), ?_, not_begins_of_isVariableName h (by decide),
    isLegalIdentifier_of_isVariableName h⟩
  rintro ⟨k, part, -, rfl⟩
  rw [Emit.isVariableName, hasDoubleUnderscore_append] at h
  simp at h

theorem IsChainMethod.isOwnMethodName (h : IsChainMethod x) : IsOwnMethodName x :=
  .of_begins h.begins (by decide) h.legal

theorem Context.IsTarget.isOwnMethodName {ctx : Context} (hcatalogue : ctx.catalogue = .builtin)
    (h : ctx.IsTarget true x) : IsOwnMethodName x := by
  have hlegal := h.legal rfl
  cases h.own with
  | raised hd =>
    rw [hcatalogue] at hd
    exact isOwnMethodName_of_isEventHook (isEventHook_method hd) hlegal
  | custom hname _ => exact isOwnMethodName_of_isVariableName hname
  | changed _ => exact .of_begins (begins_append "__onchange_" _) (by decide) hlegal
  | chained event hpart => exact IsChainMethod.isOwnMethodName ⟨event, _, hpart, rfl⟩
  | caughtUp => exact isOwnMethodName_of_isEventHook (by decide) hlegal

/-! ### The names of a module -/

namespace Linkable

def HasMethod (m : Linkable) (x : String) : Prop := m.program.methods.contains x = true

def HasLabel (m : Linkable) (l : String) : Prop := l ∈ m.program.methods.placed

def HasVariable (m : Linkable) (x : String) : Prop :=
  ∃ id v, m.program.symbols.get? id = some v ∧ v.name = x

/-- A name of a sort that a nested module has, behind the beginning of the nested module. -/
def Lends (m : Linkable) (P : Linkable → String → Prop) (x : String) : Prop :=
  ∃ start n b, (start, n) ∈ m.nested ∧ x = start ++ b ∧ P n b

/-- A method that belongs to no nested module and is not shared with the caller. -/
structure OwnMethod (includeHooks : Bool) (m : Linkable) (x : String) : Prop where
  has : m.HasMethod x
  own : ¬m.Lends HasMethod x
  hook : (includeHooks && Renaming.isEventHook x) = false

/-- A label that belongs to no nested module. -/
structure OwnLabel (m : Linkable) (l : String) : Prop where
  has : m.HasLabel l
  own : IsLabelName l

/-- A variable that belongs to no nested module and is not shared with the caller. -/
structure OwnVariable (includeHooks : Bool) (m : Linkable) (x : String) : Prop where
  has : ∃ id v, m.program.symbols.get? id = some v ∧ v.name = x ∧ v.kind ≠ .constant ∧
    v.kind ≠ .system ∧ (v.kind = .eventParam && includeHooks) = false
  own : ¬m.Lends HasVariable x

/-- The methods that the merge of a module adds, the beginning of names apart. -/
inductive AddsMethod (includeHooks : Bool) (m : Linkable) (x : String) : Prop
  | own (h : m.OwnMethod includeHooks x)
  | copy (h : IsCopyName x)

/-- The variables that the merge of a module adds, the beginning of names apart. -/
inductive AddsVariable (includeHooks : Bool) (m : Linkable) (x : String) : Prop
  | own (h : m.OwnVariable includeHooks x)
  | slot {base : String} (h : m.IsSlotName base x)

/-- A method around an event of a module that a constant of the module names. -/
structure Dispatches (m : Linkable) (x : String) : Prop where
  has : m.HasMethod x
  chain : IsChainMethod x
  named : ∃ id v, m.program.symbols.get? id = some v ∧ v.kind = .constant ∧ v.default = .method x

/-- What a pooled constant of a module may hold: a plain value, the address of a label of the module, or
the name of one of its methods around events, its own ones or those of nested modules. -/
inductive Pools (m : Linkable) : VarType → Value → Prop
  | plain {type : VarType} {value : Value} (h : value.isPlain = true) : Pools m type value
  | label {l : String} (h : m.HasLabel l) : Pools m .uint (.label l)
  | method {x : String} (h : m.HasMethod x)
      (hchain : IsChainMethod x ∨ m.Lends Dispatches x) :
      Pools m .string (.method x)

/-- A module in which every name is its own or stems from a nested module. -/
structure Sound (includeHooks : Bool) (m : Linkable) : Prop where
  consistent : m.program.symbols.Consistent
  proper : m.program.symbols.Proper
  starts : ∀ n ∈ m.nested, ∃ ordinal, n.1 = mergedPrefix ordinal
  nodup : (m.nested.map Prod.fst).Nodup
  keys {start start' : String} {n n' : Linkable} : (start, n) ∈ m.nested →
    (start', n') ∈ m.nested → n.key = n'.key → start = start'
  methods {x : String} : m.HasMethod x → IsOwnMethodName x ∨ m.Lends (AddsMethod includeHooks) x
  labels {l : String} : m.HasLabel l → IsLabelName l ∨ m.Lends OwnLabel l
  imported {id : VarId} {v : Variable} : m.program.symbols.get? id = some v → v.kind = .imported →
    m.Lends (AddsVariable includeHooks) v.name
  storage {id : VarId} {v : Variable} : m.program.symbols.get? id = some v →
    v.kind = .eventParam → Begins "on" v.name
  pooled {id : VarId} {v : Variable} : m.program.symbols.get? id = some v → v.kind = .constant →
    m.program.symbols.constants.get? (v.default.poolKey v.type) = some id
  constants {id : VarId} {v : Variable} : m.program.symbols.get? id = some v →
    v.kind = .constant → m.Pools v.type v.default

namespace Sound

variable {includeHooks : Bool} {m n n' : Linkable} {start start' x b b' : String}
  {P Q : Linkable → String → Prop}

theorem lends_begins (h : m.Sound includeHooks) (hx : m.Lends P x) : Begins "__m" x := by
  obtain ⟨start, n, b, hn, rfl, -⟩ := hx
  obtain ⟨ordinal, hordinal⟩ := h.starts _ hn
  rw [show start = mergedPrefix ordinal from hordinal]
  exact begins_mergedPrefix ordinal b

/-- The nested module that a name begins like is determined by the name. -/
theorem split_unique (h : m.Sound includeHooks) (hn : (start, n) ∈ m.nested)
    (hn' : (start', n') ∈ m.nested) (heq : start ++ b = start' ++ b') :
    start = start' ∧ n = n' ∧ b = b' := by
  obtain ⟨k, hk⟩ := h.starts _ hn
  obtain ⟨j, hj⟩ := h.starts _ hn'
  rw [show start = mergedPrefix k from hk, show start' = mergedPrefix j from hj] at heq
  obtain ⟨rfl, rfl⟩ := mergedPrefix_append_inj heq
  have hstart : start = start' := hk.trans hj.symm
  subst hstart
  exact ⟨rfl, congrArg Prod.snd (List.inj_on_of_nodup_map h.nodup hn hn' rfl), rfl⟩

/-- A method that is lent by a nested module is one that the merge of the nested module has added. -/
theorem addsMethod_of_mem (h : m.Sound includeHooks) (hn : (start, n) ∈ m.nested)
    (hx : m.HasMethod (start ++ b)) : n.AddsMethod includeHooks b := by
  rcases h.methods hx with hown | ⟨start', n', b', hn', heq, hadds⟩
  · exact absurd (h.lends_begins ⟨start, n, b, hn, rfl, trivial⟩ (P := fun _ _ => True)) hown.unmerged
  · obtain ⟨-, rfl, rfl⟩ := h.split_unique hn hn' heq
    exact hadds

/-- A method of a module that the machine calls is one of its own. -/
theorem isOwnMethodName_hook (h : m.Sound includeHooks) (hx : m.HasMethod x)
    (hhook : Renaming.isEventHook x = true) : IsOwnMethodName x :=
  (h.methods hx).resolve_right fun hlends => unmerged_of_isEventHook hhook (h.lends_begins hlends)

/-- No method of a module is named like one that copies the variables of an instance. -/
theorem not_isCopyName (h : m.Sound includeHooks) (hx : m.HasMethod x) : ¬IsCopyName x := by
  intro hcopy
  rcases h.methods hx with hown | hlends
  · exact hown.copy hcopy
  · rcases hcopy.begins.or (h.lends_begins hlends) with hor | hor
    · exact absurd hor (by decide)
    · exact absurd hor (by decide)

theorem ownMethod_of_mem (h : m.Sound includeHooks) (hn : (start, n) ∈ m.nested)
    (hsound : n.Sound includeHooks) (hx : m.HasMethod (start ++ b)) (hb : n.HasMethod b) :
    n.OwnMethod includeHooks b := by
  cases h.addsMethod_of_mem hn hx with
  | own hown => exact hown
  | copy hcopy => exact absurd hcopy (hsound.not_isCopyName hb)

/-- A variable whose name begins like those of a nested module. -/
theorem addsVariable_of_mem (h : m.Sound includeHooks) (hn : (start, n) ∈ m.nested) {id : VarId}
    {v : Variable} (hv : m.program.symbols.get? id = some v) (hname : v.name = start ++ b) :
    v.kind = .imported ∧ n.AddsVariable includeHooks b := by
  have hbegins : Begins "__m" (start ++ b) :=
    h.lends_begins ⟨start, n, b, hn, rfl, trivial⟩ (P := fun _ _ => True)
  have hkind : v.kind = .imported :=
    (h.proper.fits hv).eq_of_begins (List.mem_singleton_self _) (hname ▸ hbegins)
  obtain ⟨start', n', b', hn', heq, hadds⟩ := h.imported hv hkind
  obtain ⟨-, rfl, rfl⟩ := h.split_unique hn hn' (hname.symm.trans heq)
  exact ⟨hkind, hadds⟩

end Sound

end Linkable

end TriggerCompiler
