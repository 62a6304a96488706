import TriggerCompiler.Proofs.CalledModules
import TriggerCompiler.Proofs.CaptureFree
import TriggerCompiler.Proofs.DistinctNames

/-! The index of the constants of a program. An action takes a constant where one of its slots holds one
and a parameter stands for the slot. The first call that uses it notes its place, under a name that no
other place has, and gives it a variable on the heap; later calls find the note. So a program that
compiles has one reference for each constant that its actions take, and each leads to the constant in the
source and to its variable. -/

namespace TriggerCompiler

open Text

/-! ### Places -/

namespace LiteralPosition

/-- What the name of a constant has behind the numbers of its event and of its action. -/
def rest (p : LiteralPosition) : String :=
  match p.multi with
  | some m => "m" ++ (toString m ++ "_" ++ ("v" ++ toString p.slot))
  | none => "v" ++ toString p.slot

theorem symbol_eq (p : LiteralPosition) : p.symbol =
    "__refconst_e" ++ (toString p.event ++ "_" ++ ("a" ++ (toString p.action ++ "_" ++ p.rest))) := by
  obtain ⟨event, action, multi, slot⟩ := p
  cases multi with
  | none =>
    show "__refconst_e" ++ toString event ++ "_a" ++ toString action ++ "_v" ++ toString slot = _
    rw [show "_a" = "_" ++ "a" from rfl, show "_v" = "_" ++ "v" from rfl]
    simp only [rest, String.append_assoc]
  | some m =>
    show "__refconst_e" ++ toString event ++ "_a" ++ toString action ++ "_m" ++ toString m ++ "_v" ++
      toString slot = _
    rw [show "_a" = "_" ++ "a" from rfl, show "_m" = "_" ++ "m" from rfl,
      show "_v" = "_" ++ "v" from rfl]
    simp only [rest, String.append_assoc]

theorem rest_inj {p q : LiteralPosition} (h : p.rest = q.rest) : p.multi = q.multi ∧ p.slot = q.slot := by
  have hne (a b : String) : "m" ++ a ≠ "v" ++ b := by
    intro hab
    have hhead := congrArg (fun s => s.toList.head?) hab
    simp [String.toList_append] at hhead
  unfold rest at h
  cases hp : p.multi with
  | none =>
    cases hq : q.multi with
    | none =>
      rw [hp, hq] at h
      exact ⟨rfl, toString_nat_inj.mp (append_right_cancel_iff.mp h)⟩
    | some m =>
      rw [hp, hq] at h
      exact absurd h.symm (hne _ _)
  | some m =>
    cases hq : q.multi with
    | none =>
      rw [hp, hq] at h
      exact absurd h (hne _ _)
    | some m' =>
      rw [hp, hq] at h
      obtain ⟨rfl, hslot⟩ := number_underscore_inj (append_right_cancel_iff.mp h)
      exact ⟨rfl, toString_nat_inj.mp (append_right_cancel_iff.mp hslot)⟩

/-- Constants at different places have different names. -/
theorem symbol_injective : Function.Injective symbol := by
  intro p q h
  rw [symbol_eq, symbol_eq] at h
  obtain ⟨hevent, h⟩ := number_underscore_inj (append_right_cancel_iff.mp h)
  obtain ⟨haction, h⟩ := number_underscore_inj (append_right_cancel_iff.mp h)
  obtain ⟨hmulti, hslot⟩ := rest_inj h
  obtain ⟨event, action, multi, slot⟩ := p
  cases q
  simp_all

end LiteralPosition

/-! ### The constants that actions take -/

/-- Where an action has a constant: among its inputs, unless repetitions stand in the place of the
first one, or as a repetition of the first one. -/
inductive ActionInstance.Holds (action : ActionInstance) (repeatable : Bool) (value : Value) :
    Option Nat → Nat → Prop
  | input {k : Nat} (h : action.inputs[k]? = some (.constant value))
      (hfirst : k = 0 → repeatable = true → action.multiInputs = []) : Holds action repeatable value none k
  | repetition {m : Nat} (hrepeatable : repeatable = true)
      (h : action.multiInputs[m]? = some (.constant value)) : Holds action repeatable value (some m) 0

variable {action : ActionInstance} {value : Value} {multi : Option Nat} {k : Nat}

theorem ActionInstance.Holds.mem {repeatable : Bool} (h : action.Holds repeatable value multi k) :
    .constant value ∈ action.inputs ++ action.multiInputs := by
  cases h with
  | input h _ => exact List.mem_append_left _ (List.mem_of_getElem? h)
  | repetition _ h => exact List.mem_append_right _ (List.mem_of_getElem? h)

theorem ActionInstance.Holds.unique {repeatable : Bool} {value' : Value}
    (h : action.Holds repeatable value multi k)
    (h' : action.Holds repeatable value' multi k) : value = value' := by
  cases h with
  | input h _ =>
    cases h' with
    | input h' _ => simpa [h] using h'
  | repetition _ h =>
    cases h' with
    | repetition _ h' => simpa [h] using h'

namespace ResolvedAction

/-- The parameters of an action. -/
def params : ResolvedAction → List ParamSpec
  | .primitive d => d.params
  | .moduleEntry _ entry => Emit.entryParams entry
  | .invalid _ => []

/-- Whether the first input of an action may be repeated. -/
def repeatable : ResolvedAction → Bool
  | .primitive d => d.repeatableFirst
  | .moduleEntry _ entry => entry.repeatableFirst
  | .invalid _ => false

end ResolvedAction

/-- The constant at a place of the source is what an action takes for a parameter. -/
def Context.TakesConstant (ctx : Context) (p : LiteralPosition) (spec : ParamSpec) (value : Value) : Prop :=
  ∃ action, ctx.source.data.action? p.event p.action = some action ∧
    let resolved := ctx.catalogue.resolve ctx.modules action.action
    resolved.params[p.slot]? = some spec ∧ action.Holds resolved.repeatable value p.multi p.slot

theorem Emit.holds_iff {repeatable : Bool}
    : (∃ s ∈ repetitions action repeatable, s.slot k = (multi, .constant value)) ↔
      action.Holds repeatable value multi k := by
  have hinput {first? : Option (Nat × InputSlot)} (hk : k = 0 → first? = none) :
      SlotSource.slot ⟨action.inputs, first?⟩ k = (none, action.inputs.getD k .default) := by
    cases k with
    | zero => rw [hk rfl]; rfl
    | succ k => rfl
  have hgetD : action.inputs.getD k .default = .constant value ↔
      action.inputs[k]? = some (.constant value) := by
    rw [List.getD_eq_getElem?_getD]
    cases action.inputs[k]? with
    | none => simp
    | some slot => simp
  have hzip {input : InputSlot} {m : Nat} : (input, m) ∈ action.multiInputs.zipIdx ↔
      action.multiInputs[m]? = some input := List.mem_zipIdx_iff_getElem?
  unfold repetitions
  by_cases hrepeats : (repeatable && !action.multiInputs.isEmpty) = true
  · rw [if_pos hrepeats]
    simp only [Bool.and_eq_true, Bool.not_eq_true', List.isEmpty_eq_false_iff] at hrepeats
    constructor
    · rintro ⟨s, hs, hslot⟩
      obtain ⟨⟨input, m⟩, hmem, rfl⟩ := List.mem_map.mp hs
      cases k with
      | zero =>
        cases hslot
        exact .repetition hrepeats.1 (hzip.mp hmem)
      | succ k =>
        rw [hinput nofun] at hslot
        obtain ⟨rfl, hvalue⟩ := Prod.mk.inj hslot
        exact .input (hgetD.mp hvalue) nofun
    · rintro (⟨h, hfirst⟩ | ⟨-, h⟩)
      · have hk : k ≠ 0 := fun hk => hrepeats.2 (hfirst hk hrepeats.1)
        obtain ⟨input, hinput'⟩ := List.exists_mem_of_ne_nil _ hrepeats.2
        obtain ⟨m, hm⟩ := List.getElem?_of_mem hinput'
        refine ⟨_, List.mem_map_of_mem (hzip.mpr hm), ?_⟩
        rw [hinput fun hk' => absurd hk' hk, hgetD.mpr h]
      · exact ⟨_, List.mem_map_of_mem (hzip.mpr h), rfl⟩
  · rw [if_neg hrepeats]
    constructor
    · rintro ⟨s, hs, hslot⟩
      obtain rfl := List.mem_singleton.mp hs
      rw [hinput fun _ => rfl] at hslot
      obtain ⟨rfl, hvalue⟩ := Prod.mk.inj hslot
      refine .input (hgetD.mp hvalue) fun _ hrepeatable => ?_
      simpa [hrepeatable] using hrepeats
    · rintro (⟨h, -⟩ | ⟨hrepeatable, h⟩)
      · exact ⟨_, List.mem_singleton_self _, by rw [hinput fun _ => rfl, hgetD.mpr h]⟩
      · have hnil : action.multiInputs = [] := by simpa [hrepeatable] using hrepeats
        rw [hnil] at h
        cases h

/-- Whether an action of the machine that is no call takes no repetitions, and one that neither
opens a block nor assigns takes no inputs. -/
def PrimitiveDef.repeatsCalls (d : PrimitiveDef) : Bool :=
  match d.op with
  | .openBlock _ | .assign => d.repeatableFirst = false
  | .invoke _ => true
  | .closeBlock | .exitLoop | .nextIteration => d.params = []

theorem Catalogue.slots_builtin {id : String} {d : PrimitiveDef}
    (hd : builtin.primitive? id = some d) (action : ActionInstance) :
    (ResolvedAction.primitive d).slots action = (d.params, Emit.repetitions action d.repeatableFirst) ∨
      (ResolvedAction.primitive d).slots action = ([], []) ∧ d.params = [] := by
  have hall : builtin.primitives.entries.all (·.2.repeatsCalls) = true := by decide
  have hentry := List.all_eq_true.mp hall _ (OrderedMap.get?_eq_some_iff.mp hd)
  rw [PrimitiveDef.repeatsCalls] at hentry
  rw [ResolvedAction.slots]
  cases hop : d.op with
  | openBlock kind => exact Or.inl (by simp_all [Emit.repetitions])
  | assign => exact Or.inl (by simp_all [Emit.repetitions])
  | invoke signature => exact Or.inl rfl
  | _ => exact Or.inr ⟨rfl, by simpa [hop] using hentry⟩

namespace Context

variable {ctx : Context} {p : LiteralPosition} {spec spec' : ParamSpec} {value value' : Value}

/-- The constants that the emitters of a program may note are those that its actions take. -/
theorem isLiteral_iff (hcatalogue : ctx.catalogue = .builtin) {type : VarType} :
    ctx.IsLiteral p type value ↔ ∃ spec, spec.type = type ∧ ctx.TakesConstant p spec value := by
  have hslots (action : ActionInstance) {s : ParamSpec × Emit.SlotSource} :
      let resolved := ctx.catalogue.resolve ctx.modules action.action
      (resolved.slots action).1[p.slot]? = some s.1 ∧ s.2 ∈ (resolved.slots action).2 ↔
        resolved.params[p.slot]? = some s.1 ∧ s.2 ∈ Emit.repetitions action resolved.repeatable := by
    cases hresolve : ctx.catalogue.resolve ctx.modules action.action with
    | primitive d =>
      obtain ⟨id, hid⟩ := Context.resolve_eq_primitive hresolve
      rw [hcatalogue] at hid
      rcases Catalogue.slots_builtin hid action with hslots | ⟨hslots, hparams⟩
      · simp only [hslots]
        rfl
      · simp [hslots, ResolvedAction.params, hparams]
    | moduleEntry callee entry => rfl
    | invalid reason => simp [ResolvedAction.slots, ResolvedAction.params]
  constructor
  · rintro ⟨action, haction, spec, hspec, htype, s, hs, hslot⟩
    obtain ⟨hparams, hs⟩ := (hslots action (s := (spec, s))).mp ⟨hspec, hs⟩
    exact ⟨spec, htype, action, haction, hparams, Emit.holds_iff.mp ⟨s, hs, hslot⟩⟩
  · rintro ⟨spec, htype, action, haction, hparams, hholds⟩
    obtain ⟨s, hs, hslot⟩ := Emit.holds_iff.mpr hholds
    obtain ⟨hspec, hs⟩ := (hslots action (s := (spec, s))).mpr ⟨hparams, hs⟩
    exact ⟨action, haction, spec, hspec, htype, s, hs, hslot⟩

namespace TakesConstant

/-- One parameter and one constant belong to a place. -/
theorem unique (h : ctx.TakesConstant p spec value) (h' : ctx.TakesConstant p spec' value') :
    spec = spec' ∧ value = value' := by
  obtain ⟨action, haction, hspec, hholds⟩ := h
  obtain ⟨action', haction', hspec', hholds'⟩ := h'
  obtain rfl : action = action' := Option.some.inj (haction.symm.trans haction')
  exact ⟨Option.some.inj (hspec.symm.trans hspec'), hholds.unique hholds'⟩

theorem resolve? (h : ctx.TakesConstant p spec value) : p.resolve? ctx.source.data = some value := by
  obtain ⟨action, haction, -, hholds⟩ := h
  obtain ⟨event, hevent, haction⟩ := Option.bind_eq_some_iff.mp haction
  obtain ⟨index, i, multi, slot⟩ := p
  rw [LiteralPosition.resolve?]
  cases hholds with
  | input h _ => simp [hevent, haction, h]
  | repetition _ h => simp [hevent, haction, h]

theorem hasSlot (h : ctx.TakesConstant p spec value) : ctx.HasSlot (.constant value) := by
  obtain ⟨action, haction, -, hholds⟩ := h
  exact ⟨action, TriggerData.mem_allActions haction, hholds.mem⟩

end TakesConstant

end Context

/-! ### What the references say -/

namespace Emission

variable {ctx : Context} {e e' : Emission}

/-- The references, the table of constants and the heap agree: the table has the places of the
references, each reference has its variable, and the variable of each constant is that of its place. -/
structure Refers (ctx : Context) (e : Emission) : Prop where
  positions : e.references.map Reference.position = e.literals.keys
  record {r : Reference} : r ∈ e.references → r.symbol = r.position.symbol ∧
    ∃ id v, e.program.symbols.get? id = some v ∧ v.kind = .literal ∧ v.name = r.symbol ∧ v.type = r.type
  heap {id : VarId} {v : Variable} : e.program.symbols.get? id = some v → v.kind = .literal →
    ∃ p spec, v.name = p.symbol ∧ v.type = spec.type ∧ ctx.TakesConstant p spec v.default

theorem refers_start (ctx : Context) (source : ProgramSource) : (start source).Refers ctx :=
  ⟨rfl, nofun, nofun⟩

theorem Refers.exists_variable (h : e.Refers ctx) {r : Reference} (hr : r ∈ e.references) :
    ∃ spec id v, ctx.TakesConstant r.position spec v.default ∧ r.type = spec.type ∧
      e.program.symbols.get? id = some v ∧ v.kind = .literal ∧ v.name = r.symbol ∧ v.type = r.type := by
  obtain ⟨hsymbol, id, v, hv, hkind, hname, htype⟩ := h.record hr
  obtain ⟨p, spec, hp, hspec, htakes⟩ := h.heap hv hkind
  obtain rfl : p = r.position :=
    LiteralPosition.symbol_injective (by rw [← hp, hname, hsymbol])
  exact ⟨spec, id, v, htakes, htype.symm.trans hspec, hv, hkind, hname, htype⟩

theorem Advance.refers (h : SourceStep ctx e e') (hctx : ctx.Proper) (ha : e.Apart) (hr : e.Refers ctx) :
    e'.Refers ctx := by
  have hkeeps := (h.step.apart hctx ha).2
  have hold {r : Reference} (hmem : r ∈ e.references) : r.symbol = r.position.symbol ∧
      ∃ id v, e'.program.symbols.get? id = some v ∧ v.kind = .literal ∧ v.name = r.symbol ∧
        v.type = r.type := by
    obtain ⟨hsymbol, id, v, hv, hkind, hname, htype⟩ := hr.record hmem
    obtain ⟨w, hw, hsame⟩ := hkeeps.vars hv
    exact ⟨hsymbol, id, w, hw, hsame.kind.trans hkind, hsame.name.trans hname, hsame.type.trans htype⟩
  -- A merge and a request for anything else add no constant of the source.
  have hheap {id : VarId} {v : Variable} (hv : e'.program.symbols.get? id = some v)
      (hkind : v.kind = .literal) : ∃ p spec, v.name = p.symbol ∧ v.type = spec.type ∧
        ctx.TakesConstant p spec v.default := by
    rcases h.made hctx ha hv (Or.inr hkind) with ⟨w, hw, hsame⟩ | hnew
    · rw [hsame.name, hsame.type, hsame.default]
      exact hr.heap hw (hsame.kind.symm.trans hkind)
    · cases hnew with
      | literal h _ hname =>
        obtain ⟨spec, htype, htakes⟩ := (Context.isLiteral_iff hctx.catalogue).mp h
        exact ⟨_, spec, hname, htype.symm, htakes⟩
      | _ => simp_all
  have hsame (hreferences : e'.references = e.references) (hliterals : e'.literals = e.literals) :
      e'.Refers ctx :=
    ⟨by rw [hreferences, hliterals, hr.positions], fun hmem => hold (hreferences ▸ hmem), hheap⟩
  cases h with
  | merged _ _ => exact hsame rfl rfl
  | altered h =>
    cases h with
    | @noted position type value id h hnew hid =>
      refine ⟨?_, fun hmem => ?_, hheap⟩
      · rcases e.literals.entries_insert position id with ⟨_, _, _, _, hget, _⟩ | ⟨-, hentries⟩
        · rw [hnew] at hget
          cases hget
        · simp [OrderedMap.keys, hentries, hr.positions]
      · rcases List.mem_append.mp hmem with hmem | hmem
        · exact hold hmem
        · obtain rfl := List.mem_singleton.mp hmem
          obtain ⟨v, hv, hname⟩ := ha.consistent.names hid
          have hkind : v.kind = .literal :=
            (ha.proper.fits hv).eq_of_begins (by decide) (hname ▸ SymbolTable.begins_symbol position)
          obtain ⟨p, spec, hp, hspec, htakes⟩ := hr.heap hv hkind
          obtain rfl : p = position := LiteralPosition.symbol_injective (hp.symm.trans hname)
          obtain ⟨spec', rfl, htakes'⟩ := (Context.isLiteral_iff hctx.catalogue).mp h
          obtain ⟨rfl, -⟩ := htakes.unique htakes'
          exact ⟨rfl, id, v, hv, hkind, hname, hspec⟩
    | _ => exact hsame rfl rfl

theorem Advances.refers (h : SourceSteps ctx e e') (hctx : ctx.Proper) (ha : e.Apart) (hr : e.Refers ctx) :
    e'.Refers ctx :=
  (h.keeps (P := fun e => e.Apart ∧ e.Refers ctx) (fun _ _ hstep he =>
    ⟨(hstep.step.apart hctx he.1).1, hstep.refers hctx he.1 he.2⟩) ⟨ha, hr⟩).2

end Emission

/-! ### No constant is missed -/

namespace Emission

variable {ctx : Context} {e e' : Emission} {p : LiteralPosition}

/-- A constant has been noted, or an error has been found. -/
def Notes (e : Emission) (p : LiteralPosition) : Prop :=
  e.hasErrors = true ∨ e.literals.contains p = true

theorem Alters.notes {F : Footprint} (h : Alters F e e') (he : e.Notes p) : e'.Notes p := by
  cases h with
  | reported _ => exact he.imp_left fun herrors => hasErrors_append herrors _
  | noted _ _ _ => exact he.imp_right fun hnoted => OrderedMap.contains_insert.mpr (Or.inr hnoted)
  | _ => exact he

theorem Advance.notes (h : SourceStep ctx e e') (he : e.Notes p) : e'.Notes p := by
  cases h with
  | altered h => exact h.notes he
  | merged _ _ => exact he

theorem Advances.notes (h : SourceSteps ctx e e') (he : e.Notes p) : e'.Notes p :=
  h.keeps (P := fun e => e.Notes p) (fun _ _ => Advance.notes) he

end Emission

namespace Emit

open Emission

variable {e e' : Emission} {p : LiteralPosition} {location : Location} {slots : SlotSource} {value : Value}
  {action : ActionInstance} {method : String}

theorem Within.notes {α : Type} {F : Footprint} {x : Emit α} (hx : Within F x) (hF : ¬F.Tracks)
    (he : e.Notes p) : (x e).2.Notes p :=
  (hx e fun h => absurd h hF).keeps (P := fun e => e.Notes p) (fun _ _ => Alters.notes) he

theorem notes_fillSlot {i : Nat} (hslot : (slots.slot i).2 = .constant value) (spec : ParamSpec)
    (e : Emission) : (fillSlot location slots i spec e).2.Notes (slots.position location i) := by
  rw [fillSlot_eq, hslot, resolveSlot]
  by_cases houtput : spec.output = true
  · rw [if_pos houtput]
    exact Or.inl (hasErrors_report rfl _ e)
  · rw [if_neg houtput]
    show (Emit.literal _ _ _ e).2.Notes _
    rw [Emit.literal, run_get_bind]
    cases hget : e.literals.get? (slots.position location i) with
    | some id => exact Or.inr (OrderedMap.contains_eq_true.mpr ⟨id, hget⟩)
    | none => exact Or.inr (OrderedMap.contains_insert.mpr (Or.inl rfl))

theorem notes_resolveFrom {params : List ParamSpec} {i : Nat} (hk : k < params.length)
    (hslot : (slots.slot (i + k)).2 = .constant value) (e : Emission) :
    (resolveFrom location slots i params e).2.Notes (slots.position location (i + k)) := by
  induction params generalizing i k e with
  | nil => cases hk
  | cons spec rest ih =>
    have hrest : Within .quiet (resolveFrom location slots (i + 1) rest) :=
      .resolveFrom _ fun _ _ _ => ⟨fun _ => trivial, fun _ => ⟨trivial, trivial⟩, nofun⟩
    show (resolveFrom location slots (i + 1) rest (fillSlot location slots i spec e).2).2.Notes _
    cases k with
    | zero => exact hrest.notes nofun (notes_fillSlot hslot spec e)
    | succ k =>
      rw [show i + (k + 1) = i + 1 + k by omega] at hslot ⊢
      exact ih (Nat.lt_of_succ_lt_succ hk) hslot _

theorem notes_resolveOperands {params : List ParamSpec} (hk : k < params.length)
    (hslot : (slots.slot k).2 = .constant value) (e : Emission) :
    (resolveOperands location params slots e).2.Notes (slots.position location k) := by
  rw [resolveOperands_eq, run_bind, run_bind]
  refine (Within.collectOperands (F := .quiet) _).notes nofun ?_
  rw [← Nat.zero_add k] at hslot ⊢
  exact notes_resolveFrom hk hslot _

theorem Call.Ends.notes {x : Emit Unit} (hx : Call.Ends action x) (he : e.Notes p) : (x e).2.Notes p := by
  cases hx with
  | still hx => exact hx.notes Footprint.not_tracks_unbound he
  | loop values hf =>
    have hloop : Within .quiet (loopValues action values) := .loopValues trivial action values
    exact (hf _).notes Footprint.not_tracks_unbound (hloop.notes nofun he)

/-- The calls of an action note the constants in its slots. -/
theorem Call.Made.notes {r : ResolvedAction} {c : Call} (hc : c.Made r action) (hslots : slots ∈ c.sources)
    (hk : k < c.params.length) (hslot : (slots.slot k).2 = .constant value) (e : Emission) :
    (c.run location e).2.Notes (slots.position location k) := by
  have honce {s : SlotSource} {e : Emission} {p : LiteralPosition}
      (h : (resolveOperands location c.params s e).2.Notes p) : (c.once location s e).2.Notes p := by
    rw [Call.once, run_bind]
    generalize resolveOperands location c.params s e = filled at h ⊢
    obtain ⟨operands?, e₁⟩ := filled
    cases operands? with
    | none => exact h
    | some operands => exact (hc.ends operands).notes h
  have hkeep (rest : List SlotSource) {e : Emission} {p : LiteralPosition} (he : e.Notes p) :
      ((rest.forM (c.once location) : Emit Unit) e).2.Notes p := by
    induction rest generalizing e with
    | nil => exact he
    | cons s rest ih =>
      have hfilled : Within .quiet (resolveOperands location c.params s) :=
        .resolveOperands Footprint.fillsAll_quiet (List.mem_singleton_self s)
      exact ih (honce (hfilled.notes (fun htracks => by cases htracks) he))
  rw [Call.run]
  generalize c.sources = sources at hslots
  induction sources generalizing e with
  | nil => cases hslots
  | cons s rest ih =>
    rcases List.mem_cons.mp hslots with rfl | hslots
    · exact hkeep rest (honce (notes_resolveOperands hk hslot e))
    · exact ih _ hslots

end Emit

/-! ### Entries of modules -/

theorem Renaming.contains_of_checkInterface {t : Renaming} {m : Linkable} (h : t.checkInterface m = .ok ())
    {entry : ModuleEntry} (hentry : entry ∈ m.interface.entries) :
    t.methods.contains entry.method = true := by
  have hstep := forM_eq_ok h hentry
  by_contra hmissing
  rw [Bool.not_eq_true] at hmissing
  rw [hmissing] at hstep
  cases hstep

namespace Emission

variable {ctx : Context} {e e' : Emission}

/-- The modules that have been merged have names for their entries. -/
def NamesEntries (ctx : Context) (e : Emission) : Prop :=
  ∀ ⦃key t⦄, e.linker.merged.get? key = some t → ∃ m, ctx.Uses m ∧ m.key = key ∧
    ∀ entry ∈ m.interface.entries, t.methods.contains entry.method = true

theorem Advance.namesEntries (h : SourceStep ctx e e') (hctx : ctx.Proper) (ha : e.Apart)
    (he : e.NamesEntries ctx) : e'.NamesEntries ctx := by
  cases h with
  | altered h =>
    have hlinker : e'.linker = e.linker := by
      cases h with
      | _ => rfl
    intro key t ht
    exact he (hlinker ▸ ht)
  | @merged m aliases hm =>
    rcases Linker.run_mergeOwn m ctx.settings.includeEventHooks aliases e.linkage with
      ⟨failure, -, hrun⟩ | ⟨hvalid, hrun⟩
    · rw [hrun]
      exact he
    · rw [hrun]
      intro key t ht
      replace ht : (OrderedMap.insert _ _ _).get? key = some t := ht
      rw [OrderedMap.get?_insert] at ht
      split at ht
      · rename_i hkey
        cases ht
        have hout := Linker.outcome_of_apart (s := e.linkage) (hctx.uses hm.uses) ha
          ctx.settings.includeEventHooks aliases ((e.linkage.linker.instances.get? m.key).getD [])
        refine ⟨m, hm.uses, hkey, fun entry hentry => ?_⟩
        rw [hout.adding.methods]
        exact Renaming.contains_of_checkInterface (Renaming.validate_eq_ok hvalid).1 hentry
      · exact he ht

theorem Advances.namesEntries (h : SourceSteps ctx e e') (hctx : ctx.Proper) (ha : e.Apart)
    (he : e.NamesEntries ctx) : e'.NamesEntries ctx :=
  (h.keeps (P := fun e => e.Apart ∧ e.NamesEntries ctx) (fun _ _ hstep he =>
    ⟨(hstep.step.apart hctx he.1).1, hstep.namesEntries hctx he.1 he.2⟩) ⟨ha, he⟩).2

end Emission

namespace Emit

open Emission

variable {ctx : Context} {e e' : Emission} {location : Location} {action : ActionInstance} {method : String}

/-- An action notes the constants that it takes. -/
theorem notes_emitAction (hctx : ctx.Proper) (hsane : ctx.Sane) (hmethod : ctx.IsTarget false method)
    {p : LiteralPosition} {spec : ParamSpec} (htakes : ctx.TakesConstant p spec value)
    (haction : ctx.source.data.action? p.event p.action = some action) (ha : e.Apart)
    (he : e.NamesEntries ctx)
    (hrun : (emitAction ctx method (.ofAction p.event p.action) action).run e = (.ok (), e')) :
    e'.Notes p := by
  have hafter := (EmitStep.Stepwise.emitAction ctx.untracked hmethod haction).steps hrun
  rw [emitAction_eq] at hrun
  obtain ⟨c?, e₁, hprepare, hcalls⟩ := Attempt.exists_of_bind hrun
  obtain ⟨-, rfl⟩ := Prod.mk.inj hcalls
  obtain ⟨action', haction', spec, hspec, -, s, hs, hslot⟩ :=
    (Context.isLiteral_iff hctx.catalogue).mpr ⟨spec, rfl, htakes⟩
  obtain rfl : action' = action := Option.some.inj (haction'.symm.trans haction)
  obtain ⟨-, hplanned⟩ := prepared_prepare ha.consistent hprepare
  cases hplanned with
  | made hmade =>
    rw [hmade.slots] at hspec hs
    have hposition : s.position (.ofAction p.event p.action) p.slot = p := by
      rw [SlotSource.position, hslot]
      rfl
    rw [← hposition]
    exact hmade.notes hs (List.getElem?_eq_some_iff.mp hspec).1 (congrArg Prod.snd hslot) e₁
  | failed herrors => exact Or.inl herrors
  | bare hnone =>
    rw [hnone] at hs
    cases hs
  | @unnamed callee entry t hresolve ht hmissing =>
    -- The cache has one module with the key, so the names belong to the module that is called.
    obtain ⟨m, ⟨key, -, n, hn, hpart⟩, hkey, hentries⟩ := hafter.namesEntries hctx ha he ht
    obtain ⟨key', -, hcallee⟩ := exists_key_of_resolve (TriggerData.mem_allActions haction) hresolve
    have hcached := hsane.part (hsane.key hn ▸ hn) hpart
    rw [hkey, hsane.key hcallee, hcallee] at hcached
    cases hcached
    have hentry := hentries entry (Context.resolve_eq_moduleEntry hresolve).2
    rw [OrderedMap.contains, hmissing] at hentry
    cases hentry

end Emit

/-! ### Programs -/

variable {cache : ModuleCache} {settings : Settings}

theorem ModuleCache.CompiledFrom.produced {sources : List ProgramSource}
    (h : cache.CompiledFrom settings sources) : cache.Produced := by
  induction h with
  | empty => exact produced_empty
  | publish _ _ _ _ hm _ ih ihearlier => exact ih.publish ihearlier hm

namespace Context

variable {ctx : Context}

/-- A program that compiles has noted the constants that its actions take. -/
theorem Proper.contains_of_takesConstant (hctx : ctx.Proper) (hsane : ctx.Sane)
    (hok : ctx.compile.compiled.isSuccess = true) {p : LiteralPosition} {spec : ParamSpec}
    (h : ctx.TakesConstant p spec value) : ctx.emitted.literals.contains p = true := by
  obtain ⟨hrun, herrors⟩ := emitted_of_isSuccess hok
  obtain ⟨action, haction, -⟩ := id h
  obtain ⟨method, e₁, e₂, hmethod, hbefore, hemit, hafter⟩ := steps_action hrun haction
  have ha := (hbefore.apart hctx (Emission.apart_start _)).1
  have hnames := hbefore.namesEntries hctx (Emission.apart_start _) nofun
  have hnotes := Emit.notes_emitAction hctx hsane hmethod h haction ha hnames hemit
  exact (hafter.notes hnotes).resolve_left (Bool.eq_false_iff.mp herrors)

/-- The heap of a finished program has the variable of a constant as it was, unless it holds a label. -/
theorem Proper.mem_heap (hctx : ctx.Proper) {report : FinishReport} {q : Program} {sync : SyncMethod}
    (hfinish : (Program.finish sync settings).run ctx.emitted.program = (.ok report, q)) {id : VarId}
    {v : Variable} (hv : ctx.emitted.program.symbols.get? id = some v) (hkind : v.kind = .literal)
    (hlabel : ∀ l, v.default ≠ .label l) : HeapEntry.ofVariable v ∈ (Image.ofProgram q).heap := by
  have hsane : ctx.emitted.program.Sane := ⟨hctx.apart_emitted.consistent, hctx.apart_emitted.proper⟩
  have hkept := @Program.Sane.get?_prepare _ sync settings id v hsane hv (by simp [hkind])
  obtain rfl := Program.eq_fillIn_of_finish hfinish
  have hfilled : v.fillIn (ctx.emitted.program.finalAddress sync settings) = v := by
    unfold Variable.fillIn Value.fillIn
    split
    · exact absurd ‹_› (hlabel _)
    · rfl
  have hget := (Program.get?_fillIn (ctx.emitted.program.finalAddress sync settings) _ id).trans
    (congrArg (Option.map _) hkept)
  rw [Option.map_some, hfilled] at hget
  exact List.mem_map.mpr ⟨(id, v), OrderedMap.get?_eq_some_iff.mp hget, rfl⟩

theorem Proper.nodup_heap (hctx : ctx.Proper) {report : FinishReport} {q : Program} {sync : SyncMethod}
    (hfinish : (Program.finish sync settings).run ctx.emitted.program = (.ok report, q)) :
    ((Image.ofProgram q).heap.map HeapEntry.name).Nodup := by
  have hsteps := Program.FinishSteps.finish ctx.emitted.program sync settings
  rw [hfinish] at hsteps
  have hend := (PassesThrough.finishing hsteps).distinctNames hctx
  show ((q.symbols.toList.map _).map _).Nodup
  rw [List.map_map]
  exact hend

end Context

/-- The index of the constants of a program is exact. A program that compiles has one reference for each
constant that one of its actions takes for a parameter, and no other. The references have different
names. Each of them leads to its constant in the source, and to the one entry of the heap that has its
name, which has the type of the parameter and starts with the constant. -/
theorem references_exact {cache : ModuleCache} {given : Settings} (hcache : cache.Compiled given)
    (source : ProgramSource) (settings : Settings)
    (hlabels : ∀ action ∈ source.data.allActions, ∀ l,
      .constant (.label l) ∉ action.inputs ++ action.multiInputs) :
    let ctx : Context := { source, catalogue := .builtin, modules := cache, settings }
    let compiled := (compileProgram source .builtin cache settings).compiled
    compiled.isSuccess = true →
      (compiled.references.map Reference.position).Nodup ∧
      (compiled.references.map Reference.symbol).Nodup ∧
      (∀ p, p ∈ compiled.references.map Reference.position ↔
        ∃ spec value, ctx.TakesConstant p spec value) ∧
      ∀ r ∈ compiled.references, ∃ spec value, ctx.TakesConstant r.position spec value ∧
        r.type = spec.type ∧ r.resolve? source.data = some value ∧
        ∃ entry ∈ compiled.heapDefaults,
          entry.name = r.symbol ∧ entry.type = r.type ∧ entry.default = value ∧
          ∀ other ∈ compiled.heapDefaults, other.name = r.symbol → other = entry := by
  intro ctx compiled hok
  obtain ⟨sources, hcache⟩ := hcache
  have hctx : ctx.Proper := hcache.produced.context source settings
  have hsound := hcache.sound source
  have hsane : ctx.Sane := ⟨hsound.catalogue, hsound.key, hsound.nested, hsound.heap⟩
  obtain ⟨e, report, q, -, hrun, hfinish, -, hcompiled⟩ := @Context.exists_artifact ctx hok
  obtain rfl : ctx.emitted = e := congrArg Prod.snd hrun
  have hrefers := ctx.sourceSteps_emitted.refers hctx (Emission.apart_start _) (Emission.refers_start _ _)
  replace hcompiled : compiled = ctx.artifact ctx.emitted report q := hcompiled
  have hreferences : compiled.references = ctx.emitted.references := by rw [hcompiled]; rfl
  have hpositions := ctx.emitted.literals.nodup
  rw [← OrderedMap.keys, ← hrefers.positions] at hpositions
  rw [hreferences]
  refine ⟨hpositions, ?_, fun p => ⟨fun hp => ?_, fun htakes => ?_⟩, fun r hr => ?_⟩
  · have hsymbols : ctx.emitted.references.map Reference.symbol =
        (ctx.emitted.references.map Reference.position).map LiteralPosition.symbol := by
      rw [List.map_map]
      exact List.map_congr_left fun r hr => (hrefers.record hr).1
    rw [hsymbols]
    exact hpositions.map LiteralPosition.symbol_injective
  · obtain ⟨r, hr, rfl⟩ := List.mem_map.mp hp
    obtain ⟨spec, _, v, h, -⟩ := hrefers.exists_variable hr
    exact ⟨spec, v.default, h⟩
  · obtain ⟨spec, value, h⟩ := htakes
    rw [hrefers.positions]
    obtain ⟨id, hid⟩ := OrderedMap.contains_eq_true.mp (hctx.contains_of_takesConstant hsane hok h)
    exact List.mem_map.mpr ⟨_, OrderedMap.get?_eq_some_iff.mp hid, rfl⟩
  · obtain ⟨spec, id, v, h, htype, hv, hkind, hname, hvtype⟩ := hrefers.exists_variable hr
    have hentry : HeapEntry.ofVariable v ∈ compiled.heapDefaults := by
      rw [hcompiled]
      refine hctx.mem_heap hfinish hv hkind fun l hl => ?_
      obtain ⟨action, haction, hslot⟩ := h.hasSlot
      exact hlabels action haction l (hl ▸ hslot)
    refine ⟨spec, v.default, h, htype, h.resolve?, HeapEntry.ofVariable v, hentry, hname, hvtype, rfl,
      fun other hother hsame => ?_⟩
    have hnodup : (compiled.heapDefaults.map HeapEntry.name).Nodup :=
      hcompiled ▸ hctx.nodup_heap hfinish
    exact List.inj_on_of_nodup_map hnodup hother hentry (hsame.trans hname.symm)

/-- A module with entries that take a number or a list of them. -/
def storingModule : ProgramSource where
  key := "m"
  data := { events := ["put", "zed"].map fun name =>
    { trigger := .custom name [⟨sampleGuid 1, "v", .int, false⟩], actions := [] } }
  interface? := some { entries := ["put", "zed"].map fun name =>
    { ModuleEntry.ofCustomEvent name name [⟨sampleGuid 1, "v", .int, false⟩] with
      repeatableFirst := true } }

/-- A module that calls an entry of the other one. -/
def forwardingModule : ProgramSource where
  key := "b"
  data := { events := [
    { trigger := .custom "go" []
      actions := [.ofModule "m" "put" [.constant (.int 1)]] }] }
  interface? := some { entries := [.ofCustomEvent "go" "go" []] }

/-- A program that calls both, the second one with repetitions in the place of its input. -/
def storingCaller : ProgramSource where
  key := "c"
  data := { events := [
    { trigger := .builtin "Start" []
      actions := [
        .ofModule "b" "go" [],
        { ActionInstance.ofModule "m" "zed" [.constant (.int 5)] with
          multiInputs := [.constant (.int 6), .default, .constant (.int 7)] },
        .primitive "add_int" [.constant (.int 8), .constant (.int 8), .default]] }] }

/-- The repetitions that are constants have references, and so have the equal inputs of an addition; the
input that is replaced has none. -/
theorem references_exact_storingCaller :
    let cache := (compileInOrder .builtin {} .empty [storingModule, forwardingModule]).2
    let compiled := (compileProgram storingCaller .builtin cache {}).compiled
    compiled.isSuccess = true ∧ compiled.references.map Reference.position =
      [⟨0, 1, some 0, 0⟩, ⟨0, 1, some 2, 0⟩, ⟨0, 2, none, 0⟩, ⟨0, 2, none, 1⟩] ∧
    ∃ r ∈ compiled.references, r.symbol = "__refconst_e0_a1_m2_v0" ∧
      r.resolve? storingCaller.data = some (.int 7) ∧
      ∃ entry ∈ compiled.heapDefaults, entry.name = r.symbol ∧ entry.type = .int ∧
        entry.default = .int 7 := by
  intro cache compiled
  have hcache : cache.Compiled {} :=
    ModuleCache.compiled_empty.compileInOrder (by decide) fun _ _ => rfl
  have hfacts : compiled.isSuccess = true ∧ compiled.references.map Reference.position =
      [⟨0, 1, some 0, 0⟩, ⟨0, 1, some 2, 0⟩, ⟨0, 2, none, 0⟩, ⟨0, 2, none, 1⟩] ∧
      compiled.references[1]? = some ⟨⟨0, 1, some 2, 0⟩, "__refconst_e0_a1_m2_v0", .int⟩ := by
    decide +kernel
  have hr := List.mem_of_getElem? hfacts.2.2
  obtain ⟨-, -, -, hrecords⟩ := references_exact hcache storingCaller {}
    (by simp [storingCaller, TriggerData.allActions, ActionInstance.ofModule, ActionInstance.primitive])
    hfacts.1
  obtain ⟨spec, value, -, -, hvalue, entry, hentry, hname, htype, hdefault, -⟩ := hrecords _ hr
  have hseven : LiteralPosition.resolve? ⟨0, 1, some 2, 0⟩ storingCaller.data = some (.int 7) := by decide
  obtain rfl : value = .int 7 := Option.some.inj (hvalue.symm.trans hseven)
  exact ⟨hfacts.1, hfacts.2.1, _, hr, rfl, hseven, entry, hentry, hname, htype, hdefault⟩

end TriggerCompiler
