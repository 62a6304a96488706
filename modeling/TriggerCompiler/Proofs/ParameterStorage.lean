import TriggerCompiler.Proofs.EventRuns

/-! Where the parameters of events are stored. An event that is opened without an error has found or
declared a variable for each of its parameters, under a name that its trigger determines, and has bound
the identifiers of the parameters to these variables. -/

namespace TriggerCompiler

open Text Emission

namespace EventTrigger

/-- The identifiers of the parameters of an event. -/
def guids (t : EventTrigger) : List Guid := t.params.map ParamDecl.guid

/-- The names under which the parameters of an event are stored. -/
def storage (c : Catalogue) : EventTrigger → List String
  | .builtin name params =>
      (c.event? name).elim [] fun d => (params.zip d.params).map fun p => p.2.storage
  | .custom name params => params.map fun p => customParamVariable name p.name
  | .changed _ => []

end EventTrigger

/-- The variable that the machine writes a parameter to. -/
def EventParamSpec.variable (spec : EventParamSpec) : Variable where
  name := spec.storage
  type := spec.type
  default := spec.type.defaultValue
  kind := .eventParam

/-- The variable of a parameter of an event that is called by name. -/
def ParamDecl.variable (event : String) (p : ParamDecl) : Variable where
  name := customParamVariable event p.name
  type := p.type
  default := p.type.defaultValue
  kind := .internal

/-! ### Binding -/

namespace SymbolTable

variable {t t' : SymbolTable} {guids : List Guid} {slots : List String} {ids : List VarId}

/-- A later state of a heap in which variables are found under given names and identifiers have been bound
to them. -/
structure Stores (guids : List Guid) (slots : List String) (ids : List VarId) (t t' : SymbolTable) :
    Prop extends Evolves t t' where
  found {name : String} {id : VarId} : t.names.get? name = some id → t'.names.get? name = some id
  stored : List.Forall₂ (fun name id => t'.names.get? name = some id) slots ids
  bound {guid : Guid} {id : VarId} : t'.idOfGuid? guid = some id → t.idOfGuid? guid = some id ∨ id ∈ ids
  kept {guid : Guid} : guid ∉ guids → t'.idOfGuid? guid = t.idOfGuid? guid
  old {id : VarId} {v : Variable} : t'.get? id = some v → v.kind = .user ∨ v.kind = .blockLocal →
    t.Live id

theorem Stores.refl (hc : t.Consistent) (guids : List Guid) : t.Stores guids [] [] t :=
  ⟨.refl hc, fun h => h, .nil, Or.inl, fun _ => rfl, fun hv _ => ⟨_, hv⟩⟩

theorem names_getOrInsert {name : String} {id : VarId} (v : Variable)
    (h : t.names.get? name = some id) : (t.getOrInsert v).2.names.get? name = some id := by
  unfold getOrInsert
  split
  · exact h
  · rename_i hfree
    rw [insert, OrderedMap.get?_insert, if_neg, h]
    rintro rfl
    rw [show t.names.get? v.name = none from hfree] at h
    cases h

/-- The storage of a parameter, before that of the others. -/
theorem Stores.cons (hc : t.Consistent) {guid : Guid} {v : Variable} (hprevious : v.previous = none)
    (hguid : v.guid = none) (hkind : v.kind ≠ .user ∧ v.kind ≠ .blockLocal)
    (h : Stores guids slots ids ((t.getOrInsert v).2.bindGuid guid (t.getOrInsert v).1) t') :
    Stores (guid :: guids) (v.name :: slots) ((t.getOrInsert v).1 :: ids) t t' := by
  have hspares := spares_getOrInsert hc hprevious hguid hkind
  have hguids : (t.getOrInsert v).2.guids = t.guids := hspares.guids
  have hlookup (g : Guid) : ((t.getOrInsert v).2.bindGuid guid (t.getOrInsert v).1).idOfGuid? g =
      if guid = g then some (t.getOrInsert v).1 else t.idOfGuid? g := by
    show ((t.getOrInsert v).2.guids.insert guid (t.getOrInsert v).1).get? g = _
    rw [OrderedMap.get?_insert, hguids]
    rfl
  refine ⟨(evolves_bindGuid hspares.toEvolves (yields_getOrInsert hc hprevious).live guid).trans
    h.toEvolves, fun hname => h.found (names_getOrInsert v hname),
    .cons (h.found (names_getOrInsert_self t v)) h.stored, fun hbound => ?_, fun hnot => ?_,
    fun hw hwkind => ?_⟩
  · rcases h.bound hbound with hbefore | hmem
    · rw [hlookup] at hbefore
      split at hbefore
      · cases hbefore
        exact Or.inr List.mem_cons_self
      · exact Or.inl hbefore
    · exact Or.inr (List.mem_cons_of_mem _ hmem)
  · rw [h.kept fun hmem => hnot (List.mem_cons_of_mem _ hmem), hlookup, if_neg]
    rintro rfl
    exact hnot List.mem_cons_self
  · obtain ⟨u, hu⟩ := h.old hw hwkind
    obtain ⟨w', hw', hsame⟩ := h.keeps.vars hu
    rw [hw] at hw'
    cases hw'
    exact hspares.old hu (by rwa [← hsame.kind])

end SymbolTable

namespace Emit

variable {ctx : Context} {e e' : Emission}

/-- Parameters are stored one by one. -/
theorem stores_bindParams (vs : List (Guid × Variable))
    (hvs : ∀ p ∈ vs, p.2.previous = none ∧ p.2.guid = none ∧ p.2.kind ≠ .user ∧
      p.2.kind ≠ .blockLocal) (hc : e.program.symbols.Consistent) :
    e.program.symbols.Stores (vs.map Prod.fst) (vs.map fun p => p.2.name)
      (bindParams (vs.map fun p => (p.1, (·.getOrInsert p.2))) e).1
      (bindParams (vs.map fun p => (p.1, (·.getOrInsert p.2))) e).2.program.symbols := by
  induction vs generalizing e with
  | nil => exact .refl hc _
  | cons p rest ih =>
    obtain ⟨hprevious, hguid, hkind⟩ := hvs p List.mem_cons_self
    have hyields := (SymbolTable.yields_getOrInsert hc hprevious).bindGuid p.1
    exact .cons hc hprevious hguid hkind
      (ih (fun q hq => hvs q (List.mem_cons_of_mem _ hq)) hyields.consistent)

/-- The base of an event that can be built. -/
inductive BaseOf (ctx : Context) (e : Emission) : EventTrigger → EventBase → Prop
  | builtin {name : String} {params : List ParamDecl} {d : EventDef} {ids : List VarId}
      (hevent : ctx.catalogue.event? name = some d) : BaseOf ctx e (.builtin name params) ⟨d.method, true, ids⟩
  | custom {name : String} {params : List ParamDecl} {ids : List VarId}
      (hname : isVariableName name = true) (hfirst : startsWithUnderscore name = false)
      (hnew : params ≠ [] → name ∉ e.seenParameterized) :
      BaseOf ctx e (.custom name params) ⟨name, true, ids⟩
  | changed {guid : Guid} {id : VarId} {v : Variable} (hid : e.program.symbols.idOfGuid? guid = some id)
      (hv : e.program.symbols.get? id = some v) (hwatched : v.onChange.isSome = true) :
      BaseOf ctx e (.changed guid) ⟨changeMethod v.name, false, []⟩

/-- What opening an event does if it can be built. -/
structure Opened (ctx : Context) (trigger : EventTrigger) (base : EventBase) (e e' : Emission) :
    Prop where
  isBase : BaseOf ctx e trigger base
  stores : e.program.symbols.Stores trigger.guids (trigger.storage ctx.catalogue) base.params
    e'.program.symbols
  seen {name : String} {params : List ParamDecl} : trigger = .custom name params → params ≠ [] →
    name ∈ e'.seenParameterized

theorem opened_builtinBase (location : Location) (name : String) (params : List ParamDecl)
    (hc : e.program.symbols.Consistent)
    (herrors : (builtinBase ctx location name params e).2.hasErrors = false) :
    ∃ base, (builtinBase ctx location name params e).1 = some base ∧
      Opened ctx (.builtin name params) base e (builtinBase ctx location name params e).2 := by
  revert herrors
  rw [builtinBase]
  cases hevent : ctx.catalogue.event? name with
  | none => exact fun herrors => absurd (hasErrors_report rfl _ e) (Bool.eq_false_iff.mp herrors)
  | some d =>
    dsimp only
    split
    · exact fun herrors => absurd (hasErrors_report rfl _ e) (Bool.eq_false_iff.mp herrors)
    · rename_i hlength
      intro _
      refine ⟨_, rfl, .builtin hevent, ?_, fun hcustom => by cases hcustom⟩
      have hstores := stores_bindParams (e := e)
        ((params.zip d.params).map fun p => (p.1.guid, p.2.variable)) ?_ hc
      · simp only [List.map_map] at hstores
        have hguids : (EventTrigger.builtin name params).guids =
            (params.zip d.params).map (ParamDecl.guid ∘ Prod.fst) := by
          rw [EventTrigger.guids, EventTrigger.params, ← List.map_map, List.map_fst_zip (by omega)]
        have hstorage : (EventTrigger.builtin name params).storage ctx.catalogue =
            (params.zip d.params).map fun p => p.2.storage := by
          rw [EventTrigger.storage, hevent]
          rfl
        rw [hguids, hstorage]
        exact hstores
      · intro p hp
        obtain ⟨q, -, rfl⟩ := List.mem_map.mp hp
        simp [EventParamSpec.variable]

theorem seenParameterized_bindParams
    (storage : List (Guid × (SymbolTable → VarId × SymbolTable))) (e : Emission) :
    (bindParams storage e).2.seenParameterized = e.seenParameterized := by
  induction storage generalizing e with
  | nil => rfl
  | cons p rest ih => exact ih _

theorem opened_customBase (location : Location) (name : String) (params : List ParamDecl)
    (hc : e.program.symbols.Consistent)
    (herrors : (customBase ctx location name params e).2.hasErrors = false) :
    ∃ base, (customBase ctx location name params e).1 = some base ∧
      Opened ctx (.custom name params) base e (customBase ctx location name params e).2 := by
  revert herrors
  rw [customBase]
  split
  · exact fun herrors => absurd (hasErrors_report rfl _ e) (Bool.eq_false_iff.mp herrors)
  · rename_i hname
    simp only [Bool.or_eq_true, Bool.not_eq_true', not_or, Bool.not_eq_false,
      Bool.not_eq_true] at hname
    rw [run_get_bind]
    split
    · exact fun herrors => absurd (hasErrors_report rfl _ e) (Bool.eq_false_iff.mp herrors)
    · rename_i hnew
      have hnew : params ≠ [] → name ∉ e.seenParameterized := by simpa using hnew
      have hbind {e₁ : Emission} (hsymbols : e₁.program.symbols = e.program.symbols)
          (hseen : params ≠ [] → name ∈ e₁.seenParameterized) :
          let bound := bindParams (params.map fun p => (p.guid, (·.declareInternal
            (customParamVariable name p.name) p.type p.type.defaultValue))) e₁
          Opened ctx (.custom name params) ⟨name, true, bound.1⟩ e bound.2 := by
        intro bound
        have hstores := stores_bindParams (e := e₁)
          (params.map fun p => (p.guid, p.variable name)) ?_ (hsymbols ▸ hc)
        · simp only [List.map_map] at hstores
          rw [hsymbols] at hstores
          refine ⟨.custom hname.1 hname.2 hnew, hstores, fun heq hparams => ?_⟩
          cases heq
          rw [seenParameterized_bindParams]
          exact hseen hparams
        · intro p hp
          obtain ⟨q, -, rfl⟩ := List.mem_map.mp hp
          simp [ParamDecl.variable]
      dsimp only
      intro _
      split
      · rename_i hempty
        have hempty : params = [] := by simpa using hempty
        split
        · exact ⟨_, rfl, hbind rfl fun h => absurd hempty h⟩
        · exact ⟨_, rfl, hbind rfl fun h => absurd hempty h⟩
      · exact ⟨_, rfl, hbind rfl fun _ => List.mem_cons_self⟩

theorem opened_changedBase (location : Location) (guid : Guid) (hc : e.program.symbols.Consistent)
    (herrors : (changedBase location guid e).2.hasErrors = false) :
    ∃ base, (changedBase location guid e).1 = some base ∧
      Opened ctx (.changed guid) base e (changedBase location guid e).2 := by
  revert herrors
  rw [changedBase, run_get_bind]
  cases hv : (e.program.symbols.idOfGuid? guid).bind e.program.symbols.get? with
  | none => exact fun herrors => absurd (hasErrors_report rfl _ e) (Bool.eq_false_iff.mp herrors)
  | some v =>
    obtain ⟨id, hid, hv⟩ := Option.bind_eq_some_iff.mp hv
    dsimp only
    split
    · rename_i hwatched
      exact fun _ => ⟨_, rfl, .changed hid hv hwatched, .refl hc _, nofun⟩
    · exact fun herrors => absurd (hasErrors_report rfl _ e) (Bool.eq_false_iff.mp herrors)

theorem opened_resolveBase (ctx : Context) (location : Location) (trigger : EventTrigger)
    (hc : e.program.symbols.Consistent)
    (herrors : (resolveBase ctx location trigger e).2.hasErrors = false) :
    ∃ base, (resolveBase ctx location trigger e).1 = some base ∧
      Opened ctx trigger base e (resolveBase ctx location trigger e).2 := by
  cases trigger with
  | builtin name params => exact opened_builtinBase location name params hc herrors
  | custom name params => exact opened_customBase location name params hc herrors
  | changed guid => exact opened_changedBase location guid hc herrors

theorem snd_effectiveReplay (location : Location) (o : EventOptions) (e : Emission) :
    (effectiveReplay location o e).2.program = e.program ∧
      (effectiveReplay location o e).2.seenParameterized = e.seenParameterized := by
  rw [effectiveReplay]
  split
  · exact ⟨rfl, rfl⟩
  · exact ⟨rfl, rfl⟩

/-- An event without an error has a base, and its parameters are stored where its trigger says. -/
theorem opened_openEvent (index : Nat) (event : EventDecl) (hc : e.program.symbols.Consistent)
    (herrors : (openEvent ctx index event e).2.hasErrors = false) :
    ∃ base, (openEvent ctx index event e).1 =
        some (base, if event.options.broadcast = .here then .none else event.options.replay) ∧
      Opened ctx event.trigger base e (openEvent ctx index event e).2 := by
  revert herrors
  have hwithin : Within .full (resolveBase ctx (.ofEvent index) event.trigger) :=
    .resolveBase trivial (fun _ _ _ _ _ => trivial) (fun _ _ _ _ _ => trivial) _
  have hresolves := hwithin.evolves hc
  have hbase := opened_resolveBase ctx (.ofEvent index) event.trigger hc
  rw [openEvent, run_bind]
  generalize resolveBase ctx (.ofEvent index) event.trigger e = resolved at hbase hresolves ⊢
  obtain ⟨base?, e₁⟩ := resolved
  rw [run_bind]
  rcases checkDelay_cases (.ofEvent index) event.options.delay e₁ with hfits | ⟨hfits, hlate⟩
  · rw [hfits]
    cases base? with
    | none =>
      intro herrors
      obtain ⟨base, hnone, -⟩ := hbase herrors
      cases hnone
    | some base =>
      intro herrors
      have hexport : Within .full (modifyMethods (·.update base.method fun b =>
          { b with exported := b.exported || base.exported })) := 
        .exportBase (F := .full) (fun _ hl => by cases hl) fun _ _ hl => by cases hl
      have hrest : e₁.Evolves _ := (Within.bind (Within.effectiveReplay (.ofEvent index) event.options)
        fun _ => hexport).evolves hresolves.heap.consistent
      obtain ⟨base', hsome, hopened⟩ := hbase (hrest.noErrors herrors)
      cases hsome
      obtain ⟨hprogram, hseen⟩ := snd_effectiveReplay (.ofEvent index) event.options e₁
      refine ⟨base, congrArg (fun r => some (base, r)) (fst_effectiveReplay _ _ e₁),
        hopened.isBase, ?_, fun hcustom hparams => ?_⟩
      · show SymbolTable.Stores _ _ _ _ (effectiveReplay _ _ e₁).2.program.symbols
        rw [hprogram]
        exact hopened.stores
      · show _ ∈ (effectiveReplay _ _ e₁).2.seenParameterized
        rw [hseen]
        exact hopened.seen hcustom hparams
  · generalize checkDelay (.ofEvent index) event.options.delay e₁ = checked at hfits hlate
    obtain ⟨fits, e₂⟩ := checked
    cases hfits
    cases base? with
    | none => exact fun herrors => absurd hlate (Bool.eq_false_iff.mp herrors)
    | some base => exact fun herrors => absurd hlate (Bool.eq_false_iff.mp herrors)

/-- An event of a program without errors has been opened. -/
theorem opened_of_emitEvent {index : Nat} {event : EventDecl} {e₁ : Emission}
    (hc : e.program.symbols.Consistent) (hrun : (emitEvent ctx index event).run e = (.ok (), e₁))
    (hlater : e₁.Evolves e') (herrors : e'.hasErrors = false) :
    ∃ base, (openEvent ctx index event e).1 =
        some (base, if event.options.broadcast = .here then .none else event.options.replay) ∧
      Opened ctx event.trigger base e (openEvent ctx index event e).2 :=
  opened_openEvent index event hc
    (((evolves_of_openEvent hc hrun).trans hlater).noErrors herrors)

end Emit

/-! ### Parameters of events that are called by name -/

/-- The name of a parameter's variable is ambiguous only between an event and one whose name has a further
underscore at its end. -/
theorem customParamVariable_eq_iff {a b p q : String} (ha : hasDoubleUnderscore a = false)
    (hb : hasDoubleUnderscore b = false) (hne : a ≠ b) :
    customParamVariable a p = customParamVariable b q ↔
      (b = a ++ "_" ∧ p = "_" ++ q) ∨ (a = b ++ "_" ∧ q = "_" ++ p) := by
  -- If one name is longer, it goes on with at least one underscore, and it has no two in a row.
  have hlonger {a b p q : String} (hb : hasDoubleUnderscore b = false) (hne : a ≠ b)
      (h : a.toList ++ ('_' :: '_' :: p.toList) = b.toList ++ ('_' :: '_' :: q.toList))
      (hlength : a.toList.length ≤ b.toList.length) : b = a ++ "_" ∧ p = "_" ++ q := by
    obtain ⟨c, hc⟩ := List.prefix_of_prefix_length_le
      (List.prefix_append a.toList ('_' :: '_' :: p.toList)) (h ▸ List.prefix_append _ _) hlength
    rw [← hc, List.append_assoc, List.append_cancel_left_eq] at h
    match c, h with
    | [], _ =>
      rw [List.append_nil] at hc
      exact absurd (String.toList_inj.mp hc) hne
    | [x], h =>
      obtain ⟨rfl, hp⟩ := List.cons.inj h
      refine ⟨String.toList_inj.mp ?_, String.toList_inj.mp ?_⟩
      · rw [← hc, String.toList_append]
        rfl
      · rw [String.toList_append]
        exact (List.cons.inj hp).2
    | x :: y :: c, h =>
      obtain ⟨rfl, hp⟩ := List.cons.inj h
      obtain ⟨rfl, -⟩ := List.cons.inj hp
      have hsplit : b = a ++ ("__" ++ String.ofList c) := by
        refine String.toList_inj.mp ?_
        rw [← hc, String.toList_append, String.toList_append]
        simp
      rw [hsplit, hasDoubleUnderscore_append] at hb
      cases hb
  have hchars (event param : String) : (customParamVariable event param).toList =
      event.toList ++ ('_' :: '_' :: param.toList) := by
    rw [customParamVariable, String.toList_append, String.toList_append, List.append_assoc]
    rfl
  rw [← String.toList_inj, hchars, hchars]
  constructor
  · intro h
    rcases Nat.le_total a.toList.length b.toList.length with hlength | hlength
    · exact Or.inl (hlonger hb hne h hlength)
    · exact Or.inr (hlonger ha hne.symm h.symm hlength)
  · rintro (⟨rfl, rfl⟩ | ⟨rfl, rfl⟩) <;> simp [String.toList_append]

namespace Emit

variable {ctx : Context} {e e₁ e' : Emission} {index : Nat} {event : EventDecl} {a : String}
  {params : List ParamDecl}

/-- The variable of a parameter is found under its name as long as the program is compiled. -/
theorem exists_parameter (hc : e.program.symbols.Consistent)
    (hrun : (emitEvent ctx index event).run e = (.ok (), e₁)) (hlater : e₁.Evolves e')
    (herrors : e'.hasErrors = false) {k : Nat} {name : String}
    (hslot : (event.trigger.storage ctx.catalogue)[k]? = some name) (hname : ¬Begins "__" name) :
    ∃ x, (eventRun ctx index event e).params[k]? = some x ∧
      e'.program.symbols.names.get? name = some x := by
  obtain ⟨base, hopen, hopened⟩ := opened_of_emitEvent hc hrun hlater herrors
  have hparams : (eventRun ctx index event e).params = base.params := by
    show bodyParams (openEvent ctx index event e).1 = _
    rw [hopen]
    rfl
  obtain ⟨hlength, hstored⟩ := List.forall₂_iff_get.mp hopened.stores.stored
  obtain ⟨hk, hget⟩ := List.getElem?_eq_some_iff.mp hslot
  have hfound := hstored k hk (hlength ▸ hk)
  simp only [List.get_eq_getElem, hget] at hfound
  refine ⟨base.params[k], ?_, ?_⟩
  · rw [hparams, List.getElem?_eq_getElem]
  · exact ((evolves_of_openEvent hc hrun).trans hlater).heap.names hname hfound

/-- An event that is called by name has a name of its own among those with parameters. -/
theorem isCustom_of_emitEvent (hc : e.program.symbols.Consistent)
    (hrun : (emitEvent ctx index event).run e = (.ok (), e₁)) (hlater : e₁.Evolves e')
    (herrors : e'.hasErrors = false) (htrigger : event.trigger = .custom a params) :
    isVariableName a = true ∧ startsWithUnderscore a = false ∧
      (params ≠ [] → a ∉ e.seenParameterized ∧ a ∈ e₁.seenParameterized) := by
  obtain ⟨base, -, hopened⟩ := opened_of_emitEvent hc hrun hlater herrors
  have hbase := hopened.isBase
  rw [htrigger] at hbase
  cases hbase with
  | custom hname hfirst hnew =>
    exact ⟨hname, hfirst, fun hparams => ⟨hnew hparams,
      (evolves_of_openEvent hc hrun).seen (hopened.seen htrigger hparams)⟩⟩

end Emit

namespace Context

variable {ctx : Context} {e : Emission} {i j k l : Nat} {event event' : EventDecl} {a b : String}
  {ps qs : List ParamDecl} {p q : ParamDecl}

/-- Two events with parameters have different names. -/
theorem custom_names_ne (hrun : (Emit.emitProgram ctx).run (.start ctx.source) = (.ok (), e))
    (herrors : e.hasErrors = false) (hij : i < j) (hevent : ctx.source.data.events[i]? = some event)
    (ha : event.trigger = .custom a ps) (hps : ps ≠ [])
    (hevent' : ctx.source.data.events[j]? = some event') (hb : event'.trigger = .custom b qs)
    (hqs : qs ≠ []) : a ≠ b := by
  obtain ⟨e₁, e₂, hc, hemit, hafter, -⟩ := exists_event hrun hevent
  have hc₂ := (Emit.evolves_emitEvent hc hemit).heap.consistent
  obtain ⟨-, -, hseen⟩ :=
    Emit.isCustom_of_emitEvent hc hemit (Emit.evolves_emitEvents hc₂ hafter) herrors ha
  have hdrop : (ctx.source.data.events.drop (i + 1))[j - (i + 1)]? = some event' := by
    rw [List.getElem?_drop, Nat.add_sub_cancel' hij]
    exact hevent'
  obtain ⟨e₃, e₄, hbetween, hemit', hafter', -⟩ := Emit.exists_event hc₂ hafter hdrop
  have hc₃ := hbetween.heap.consistent
  have hc₄ := (Emit.evolves_emitEvent hc₃ hemit').heap.consistent
  obtain ⟨-, -, hseen'⟩ :=
    Emit.isCustom_of_emitEvent hc₃ hemit' (Emit.evolves_emitEvents hc₄ hafter') herrors hb
  rintro rfl
  exact (hseen' hqs).1 (hbetween.seen (hseen hps).2)

/-- The variable of a parameter of an event that is called by name. -/
theorem exists_custom_parameter (hrun : (Emit.emitProgram ctx).run (.start ctx.source) = (.ok (), e))
    (herrors : e.hasErrors = false) (hevent : ctx.source.data.events[i]? = some event)
    (ha : event.trigger = .custom a ps) (hp : ps[k]? = some p) :
    ∃ x, ctx.parameter? i k = some x ∧
      e.program.symbols.names.get? (customParamVariable a p.name) = some x ∧
      hasDoubleUnderscore a = false := by
  obtain ⟨e₁, e₂, hc, hemit, hafter, hruns⟩ := exists_event hrun hevent
  have hlater := Emit.evolves_emitEvents (Emit.evolves_emitEvent hc hemit).heap.consistent hafter
  obtain ⟨hname, hfirst, -⟩ := Emit.isCustom_of_emitEvent hc hemit hlater herrors ha
  have hslot : (event.trigger.storage ctx.catalogue)[k]? =
      some (customParamVariable a p.name) := by
    rw [ha, EventTrigger.storage, List.getElem?_map, hp]
    rfl
  obtain ⟨x, hx, hfound⟩ := Emit.exists_parameter hc hemit hlater herrors hslot
    (not_begins_customParamVariable hname hfirst (by decide))
  refine ⟨x, ?_, hfound, ?_⟩
  · rw [parameter?, hruns]
    exact hx
  · rw [Emit.isVariableName, Bool.and_eq_true, Bool.not_eq_true'] at hname
    exact hname.2

/-- Parameters of two events that are called by name have variables of their own, with one exception: the
name of one event is that of the other followed by an underscore, and the parameter of the shorter one
begins with this underscore. -/
theorem custom_parameters_shared_iff
    (hrun : (Emit.emitProgram ctx).run (.start ctx.source) = (.ok (), e))
    (herrors : e.hasErrors = false) (hij : i ≠ j) (hevent : ctx.source.data.events[i]? = some event)
    (ha : event.trigger = .custom a ps) (hp : ps[k]? = some p)
    (hevent' : ctx.source.data.events[j]? = some event') (hb : event'.trigger = .custom b qs)
    (hq : qs[l]? = some q) :
    ∃ x y, ctx.parameter? i k = some x ∧ ctx.parameter? j l = some y ∧
      e.program.symbols.nameOf x = customParamVariable a p.name ∧
      e.program.symbols.nameOf y = customParamVariable b q.name ∧
      (x = y ↔ (b = a ++ "_" ∧ p.name = "_" ++ q.name) ∨ (a = b ++ "_" ∧ q.name = "_" ++ p.name)) := by
  have hc : e.program.symbols.Consistent :=
    (Emit.evolves_emitEvents (e := ctx.declared) ctx.consistent_declared hrun).heap.consistent
  obtain ⟨x, hx, hfound, hplain⟩ := exists_custom_parameter hrun herrors hevent ha hp
  obtain ⟨y, hy, hfound', hplain'⟩ := exists_custom_parameter hrun herrors hevent' hb hq
  have hps : ps ≠ [] := by
    rintro rfl
    cases hp
  have hqs : qs ≠ [] := by
    rintro rfl
    cases hq
  have hne : a ≠ b := by
    rcases Nat.lt_or_gt_of_ne hij with hlt | hgt
    · exact custom_names_ne hrun herrors hlt hevent ha hps hevent' hb hqs
    · exact (custom_names_ne hrun herrors hgt hevent' hb hqs hevent ha hps).symm
  obtain ⟨v, hv, hvname⟩ := hc.names hfound
  obtain ⟨w, hw, hwname⟩ := hc.names hfound'
  have hnamex : e.program.symbols.nameOf x = customParamVariable a p.name := by
    rw [SymbolTable.nameOf, hv]
    exact hvname
  have hnamey : e.program.symbols.nameOf y = customParamVariable b q.name := by
    rw [SymbolTable.nameOf, hw]
    exact hwname
  refine ⟨x, y, hx, hy, hnamex, hnamey, ?_⟩
  rw [← customParamVariable_eq_iff hplain hplain' hne]
  constructor
  · rintro rfl
    rw [← hnamex, hnamey]
  · intro heq
    rw [heq, hfound'] at hfound
    exact (Option.some.inj hfound).symm

/-- Two events, one of which writes its parameter and the other of which prints its own. -/
def overlapping : Context where
  source :=
    { key := "p"
      data :=
        { events := [
            { trigger := .custom "a_" [⟨sampleGuid 1, "b", .int, false⟩]
              actions := [
                { action := .primitive "assign"
                  inputs := [.constant (.int 1), .reference (.guid (sampleGuid 1))] }] },
            { trigger := .custom "a" [⟨sampleGuid 2, "_b", .int, false⟩]
              actions := [
                { action := .primitive "debug_log"
                  inputs := [.reference (.guid (sampleGuid 2))] }] }] } }
  catalogue := .builtin
  modules := .empty
  settings := {}

/-- Both parameters are stored in one variable, and the program is accepted. -/
theorem custom_parameters_overlap :
    overlapping.compile.compiled.isSuccess = true ∧
      ∃ e x, (Emit.emitProgram overlapping).run (.start overlapping.source) = (.ok (), e) ∧
        e.hasErrors = false ∧ overlapping.parameter? 0 0 = some x ∧
        overlapping.parameter? 1 0 = some x ∧ e.program.symbols.nameOf x = "a___b" := by
  have hok : ((Emit.emitProgram overlapping).run (.start overlapping.source)).1 = .ok () := by
    decide +kernel
  exact ⟨by decide +kernel, _, 0, Attempt.run_eq_of_fst hok, by decide +kernel, by decide +kernel,
    by decide +kernel, by decide +kernel⟩

/-- The names of the two parameters are of the one ambiguous form. -/
theorem custom_parameters_shared_iff_overlapping :
    ∃ x y, overlapping.parameter? 0 0 = some x ∧ overlapping.parameter? 1 0 = some y ∧ x = y := by
  have hok : ((Emit.emitProgram overlapping).run (.start overlapping.source)).1 = .ok () := by
    decide +kernel
  obtain ⟨x, y, hx, hy, -, -, hiff⟩ := custom_parameters_shared_iff (i := 0) (j := 1) (k := 0) (l := 0)
    (Attempt.run_eq_of_fst hok) (by decide +kernel) (by decide) rfl rfl rfl rfl rfl rfl
  exact ⟨x, y, hx, hy, hiff.mpr (Or.inr ⟨by decide, by decide⟩)⟩

end Context

end TriggerCompiler
