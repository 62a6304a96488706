import TriggerCompiler.Proofs.ScopeInvariant

/-! The variables of the author. A variable that is declared without an error is found under its name and
its identifier. Its name is its own for the whole program; its identifier is its own until an event that
the machine raises stores a parameter under the same name. -/

namespace TriggerCompiler

open Text Emission

namespace SymbolTable

variable {t t' : SymbolTable} {d : VariableDecl} {id : VarId}

/-- A heap in which there are variables of the author only. -/
structure Authored (t : SymbolTable) : Prop where
  consistent : t.Consistent
  users {id : VarId} {v : Variable} : t.get? id = some v → v.kind = .user

/-- A later state of a heap in which a variable of the author has been added. -/
structure Adopts (d : VariableDecl) (id : VarId) (t t' : SymbolTable) : Prop extends Evolves t t' where
  isNew : t.guids.contains d.guid = false
  guids : t'.guids = t.guids.insert d.guid id
  found : t'.names.get? d.name = some id
  isUser : t'.IsUser id
  old {j : VarId} : t'.Live j → t.Live j ∨ j = id

theorem adopts_declareUser (hc : t.Consistent) (h : t.declareUser d = .ok (id, t')) :
    Adopts d id t t' := by
  have hevolves := evolves_declareUser hc h
  have hget := get?_declareUser h
  obtain ⟨-, hguid, heq⟩ := declareUser_eq_ok h
  have hid : id = t.nextId := congrArg Prod.fst heq
  have ht : t' = (t.insert _).2 := congrArg Prod.snd heq
  subst hid ht
  refine ⟨hevolves, hguid, rfl, ?_, ⟨_, hget, rfl⟩, fun {j} hj => ?_⟩
  · exact (OrderedMap.get?_insert _ _ _ _).trans (if_pos rfl)
  · obtain ⟨v, hv⟩ := hj
    rw [get?_insert] at hv
    split at hv
    · rename_i heq
      exact Or.inr heq.symm
    · exact Or.inl ⟨v, hv⟩

theorem Adopts.watch (h : Adopts d id t t') (method : String) :
    Adopts d id t (t'.modifyVar id fun v => { v with onChange := some method }) := by
  have hspares := spares_modifyVar (f := fun v => { v with onChange := some method }) h.consistent
    (fun _ => ⟨rfl, rfl, rfl, rfl⟩) (fun _ _ => Or.inl) id
  refine ⟨h.toEvolves.trans hspares.toEvolves, h.isNew, h.guids, h.found, hspares.keeps.isUser h.isUser,
    fun {j} hj => h.old ?_⟩
  obtain ⟨v, hv⟩ := hj
  rw [get?_modifyVar] at hv
  split at hv
  · obtain ⟨w, hw, -⟩ := Option.map_eq_some_iff.mp hv
    exact ⟨w, hw⟩
  · exact ⟨v, hv⟩

theorem Adopts.authored (h : Adopts d id t t') (ht : t.Authored) : t'.Authored := by
  refine ⟨h.consistent, fun {j v} hv => ?_⟩
  rcases h.old ⟨v, hv⟩ with ⟨w, hw⟩ | rfl
  · obtain ⟨v', hv', hsame⟩ := h.keeps.vars hw
    rw [hv] at hv'
    cases hv'
    exact hsame.kind.trans (ht.users hw)
  · obtain ⟨w, hw, hkind⟩ := h.isUser
    rw [hv] at hw
    cases hw
    exact hkind

theorem Adopts.idOfGuid? (h : Adopts d id t t') {guid : Guid} {x : VarId}
    (hx : t.idOfGuid? guid = some x) : t'.idOfGuid? guid = some x := by
  rw [SymbolTable.idOfGuid?, h.guids, OrderedMap.get?_insert, if_neg]
  · exact hx
  · rintro rfl
    have hnew := h.isNew
    rw [OrderedMap.contains, show t.guids.get? d.guid = some x from hx] at hnew
    cases hnew

end SymbolTable

namespace Emit

variable {e : Emission}

/-- The last step of the declaration of a variable whose name and type are in order. -/
def enterVariable (d : VariableDecl) : Emit Unit := do
  match (← get).program.symbols.declareUser d with
  | .error cause => report (.undeclarable cause) none
  | .ok (id, symbols) =>
    modifySymbols fun _ => symbols
    if d.onChange then
      modifySymbols (·.modifyVar id fun v => { v with onChange := some (changeMethod d.name) })

theorem enterVariable_cases (d : VariableDecl) (hc : e.program.symbols.Consistent) :
    ((enterVariable d e).2.hasErrors = true ∧
      (enterVariable d e).2.program.symbols = e.program.symbols) ∨
    ∃ id, e.program.symbols.Adopts d id (enterVariable d e).2.program.symbols := by
  rw [enterVariable, run_get_bind]
  cases hdeclared : e.program.symbols.declareUser d with
  | error cause => exact Or.inl ⟨hasErrors_report rfl _ e, rfl⟩
  | ok r =>
    obtain ⟨id, t⟩ := r
    have hadopts := SymbolTable.adopts_declareUser hc hdeclared
    by_cases hchange : d.onChange = true
    · simp only [hchange, if_true]
      exact Or.inr ⟨id, hadopts.watch (changeMethod d.name)⟩
    · simp only [hchange]
      exact Or.inr ⟨id, hadopts⟩

/-- A variable of the author is declared, or its declaration is an error. -/
theorem declareVariable_cases (sync : SyncMethod) (d : VariableDecl)
    (hc : e.program.symbols.Consistent) :
    ((declareVariable sync d e).2.hasErrors = true ∧
      (declareVariable sync d e).2.program.symbols = e.program.symbols) ∨
    isVariableName d.name = true ∧
      ∃ id, e.program.symbols.Adopts d id (declareVariable sync d e).2.program.symbols := by
  rw [declareVariable]
  split
  · exact Or.inl ⟨hasErrors_report rfl _ e, rfl⟩
  · rename_i hname
    replace hname : isVariableName d.name = true := by simpa using hname
    split
    · exact Or.inl ⟨hasErrors_report rfl _ e, rfl⟩
    · dsimp only
      split
      · have hreport : (report (.syncedWithoutSync d.name) none e).2.program.symbols =
            e.program.symbols := rfl
        rw [← hreport] at hc ⊢
        exact (enterVariable_cases d hc).imp_right (And.intro hname)
      · exact (enterVariable_cases d hc).imp_right (And.intro hname)

/-- The variables of the author, one after the other. -/
theorem authored_declareVariables (sync : SyncMethod) (vars : List VariableDecl)
    (h : e.program.symbols.Authored) :
    let after := ((vars.forM (declareVariable sync) : Emit Unit) e).2
    after.program.symbols.Authored ∧ e.Evolves after ∧
      (∀ guid x, e.program.symbols.idOfGuid? guid = some x →
        after.program.symbols.idOfGuid? guid = some x) ∧
      (after.hasErrors = false → ∀ d ∈ vars, isVariableName d.name = true ∧
        ∃ x, after.program.symbols.idOfGuid? d.guid = some x ∧
          after.program.symbols.names.get? d.name = some x) := by
  induction vars generalizing e with
  | nil => exact ⟨h, .refl h.consistent, fun _ _ hx => hx, fun _ _ hd => nomatch hd⟩
  | cons d rest ih =>
    intro after
    have hfirst := (Within.declareVariable (F := .full) (d := d) trivial sync).evolves h.consistent
    rcases declareVariable_cases sync d h.consistent with ⟨herror, hsame⟩ | ⟨hname, id, hadopts⟩
    · obtain ⟨hauthored, hevolves, hkept, -⟩ := ih (hsame ▸ h)
      refine ⟨hauthored, hfirst.trans hevolves, fun guid x hx => hkept guid x (hsame ▸ hx),
        fun hclean => ?_⟩
      exact absurd herror (Bool.eq_false_iff.mp (hevolves.noErrors hclean))
    · obtain ⟨hauthored, hevolves, hkept, hrest⟩ := ih (hadopts.authored h)
      refine ⟨hauthored, hfirst.trans hevolves, fun guid x hx => hkept guid x (hadopts.idOfGuid? hx),
        fun hclean d' hd' => ?_⟩
      rcases List.mem_cons.mp hd' with rfl | hd'
      · refine ⟨hname, id, hkept _ _ ?_, hevolves.heap.names ?_ hadopts.found⟩
        · rw [SymbolTable.idOfGuid?, hadopts.guids, OrderedMap.get?_insert, if_pos rfl]
        · exact not_begins_of_isVariableName hname (by decide)
      · exact hrest hclean d' hd'

end Emit

theorem SymbolTable.authored_empty : ({} : SymbolTable).Authored :=
  ⟨consistent_empty, fun hv => nomatch hv⟩

/-- Only variables of the author have identifiers before the first event. -/
theorem SymbolTable.Authored.idle {e : Emission} (h : e.program.symbols.Authored)
    {authors : Guid → VarId → Prop}
    (hauthors : ∀ guid id, authors guid id → e.program.symbols.idOfGuid? guid = some id) :
    Idle authors [] [] e := by
  have huser {guid : Guid} {id : VarId} (hid : e.program.symbols.idOfGuid? guid = some id) :
      e.program.symbols.IsUser id := by
    obtain ⟨v, hv⟩ := h.consistent.guids hid
    exact ⟨v, hv, h.users hv⟩
  refine ⟨⟨h.consistent, fun id v hv hkind => ?_, fun hauthor => ?_, nofun, nofun⟩,
    fun hid => ⟨huser hid, List.not_mem_nil⟩⟩
  · rw [h.users hv] at hkind
    cases hkind
  · exact ⟨huser (hauthors _ _ hauthor), hauthors _ _ hauthor⟩

/-- The identifier that a slot declares. -/
def InputSlot.declaredGuid? : InputSlot → Option Guid
  | .declare guid _ => some guid
  | _ => none

/-- The identifiers that an event binds. -/
def EventDecl.boundGuids (event : EventDecl) : List Guid :=
  event.trigger.guids ++ event.actions.flatMap fun action =>
    (action.inputs ++ action.multiInputs).filterMap InputSlot.declaredGuid?

theorem EventDecl.apart_of_notMem {event : EventDecl} {authors : Guid → VarId → Prop}
    (h : ∀ guid id, authors guid id → guid ∉ event.boundGuids) : event.Apart authors := by
  constructor
  · intro guid hguid id hauthor
    exact h guid id hauthor (List.mem_append_left _ hguid)
  · intro action haction guid name hslot id hauthor
    refine h guid id hauthor (List.mem_append_right _ (List.mem_flatMap.mpr ⟨action, haction, ?_⟩))
    exact List.mem_filterMap.mpr ⟨_, hslot, rfl⟩

namespace Context

variable {ctx : Context} {e : Emission} {authors : Guid → VarId → Prop} {n k : Nat} {event : EventDecl}
  {run : EventRun} {d : VariableDecl}

/-- The names under which the first events of a program store their parameters. -/
def storedBefore (ctx : Context) (n : Nat) : List String :=
  (ctx.source.data.events.take n).flatMap fun event => event.trigger.storage ctx.catalogue

/-- What is bound at every look at a slot of a program, behind each event and at the end. -/
theorem scoped_emitProgram (authors : Guid → VarId → Prop) (hauthors : ∀ guid id, authors guid id →
      ctx.declared.program.symbols.idOfGuid? guid = some id)
    (hapart : ∀ event ∈ ctx.source.data.events, event.Apart authors)
    (hrun : (Emit.emitProgram ctx).run (.start ctx.source) = (.ok (), e))
    (herrors : e.hasErrors = false) :
    Lookup.Along (ctx.ScopedAt authors) [] ctx.lookups ∧
      (∀ n run, ctx.runs[n]? = some run →
        Idle authors (ctx.spent (n + 1)) (ctx.lookupsBefore (n + 1)) run.final) ∧
      Idle authors (ctx.spent ctx.source.data.events.length) ctx.lookups e := by
  have hauthored : ctx.declared.program.symbols.Authored :=
    (Emit.authored_declareVariables ctx.source.data.sync ctx.source.data.vars
      SymbolTable.authored_empty).1
  obtain ⟨halong, hfinals, hend⟩ := scoped_emitEvents (n := 0) List.drop_zero List.drop_zero
    (hauthored.idle hauthors) hapart hrun herrors
  have hall : ctx.lookupsBefore ctx.source.data.events.length = ctx.lookups := by
    rw [lookupsBefore, List.take_of_length_le, lookups]
    exact Nat.le_of_eq (Emit.length_eventRuns ctx 0 _ _)
  rw [Nat.zero_add, hall] at hend
  exact ⟨halong, fun n run => hfinals n run (Nat.zero_le n), hend⟩

/-- An event of a program without errors has a variable for each of its parameters. -/
theorem length_params (hrun : (Emit.emitProgram ctx).run (.start ctx.source) = (.ok (), e))
    (herrors : e.hasErrors = false) (hevent : ctx.source.data.events[n]? = some event)
    (hn : ctx.runs[n]? = some run) :
    (event.trigger.storage ctx.catalogue).length = run.params.length := by
  obtain ⟨e₁, e₂, hc, hemit, hafter, hruns⟩ := exists_event hrun hevent
  rw [hn] at hruns
  cases hruns
  have hlater := Emit.evolves_emitEvents (Emit.evolves_emitEvent hc hemit).heap.consistent hafter
  obtain ⟨base, hopen, hopened⟩ := Emit.opened_of_emitEvent hc hemit hlater herrors
  show _ = (Emit.bodyParams (Emit.openEvent ctx n event e₁).1).length
  rw [hopen]
  exact hopened.stores.stored.length_eq

theorem map_fst_spent (hrun : (Emit.emitProgram ctx).run (.start ctx.source) = (.ok (), e))
    (herrors : e.hasErrors = false) (n : Nat) : (ctx.spent n).map Prod.fst = ctx.storedBefore n := by
  have hlength : ctx.runs.length = ctx.source.data.events.length := Emit.length_eventRuns ctx 0 _ _
  induction n with
  | zero => rfl
  | succ n ih =>
    cases hevent : ctx.source.data.events[n]? with
    | none =>
      have hle : ctx.source.data.events.length ≤ n := List.getElem?_eq_none_iff.mp hevent
      have hsame : ctx.spent (n + 1) = ctx.spent n := by
        rw [spent, spent, List.take_of_length_le, List.take_of_length_le]
        · rw [List.length_zip]
          omega
        · rw [List.length_zip]
          omega
      rw [hsame, ih, storedBefore, storedBefore, List.take_of_length_le hle,
        List.take_of_length_le (Nat.le_succ_of_le hle)]
    | some event =>
      obtain ⟨hlt, -⟩ := List.getElem?_eq_some_iff.mp hevent
      obtain ⟨run, hn⟩ : ∃ run, ctx.runs[n]? = some run :=
        ⟨_, List.getElem?_eq_getElem (hlength.symm ▸ hlt)⟩
      rw [spent_succ hevent hn, List.map_append, ih, EventRun.slots,
        List.map_fst_zip (Nat.le_of_eq (length_params hrun herrors hevent hn)), storedBefore,
        storedBefore, List.take_add_one, hevent, List.flatMap_append]
      simp

theorem spent_subset (n : Nat) : ctx.spent n ⊆ ctx.spent ctx.source.data.events.length := by
  intro slot hslot
  obtain ⟨p, hp, hmem⟩ := List.mem_flatMap.mp hslot
  refine List.mem_flatMap.mpr ⟨p, ?_, hmem⟩
  rw [List.take_of_length_le]
  · exact List.mem_of_mem_take hp
  · rw [List.length_zip]
    exact Nat.min_le_left _ _

/-- A parameter with its name and its variable. -/
theorem exists_slot (hrun : (Emit.emitProgram ctx).run (.start ctx.source) = (.ok (), e))
    (herrors : e.hasErrors = false) (hevent : ctx.source.data.events[n]? = some event) {name : String}
    (hname : (event.trigger.storage ctx.catalogue)[k]? = some name) :
    ∃ y, ctx.parameter? n k = some y ∧ (name, y) ∈ ctx.spent (n + 1) := by
  obtain ⟨e₁, e₂, hc, hemit, hafter, hn⟩ := exists_event hrun hevent
  have hlength := length_params hrun herrors hevent hn
  obtain ⟨hk, -⟩ := List.getElem?_eq_some_iff.mp hname
  obtain ⟨y, hy⟩ : ∃ y, (Emit.eventRun ctx n event e₁).params[k]? = some y :=
    ⟨_, List.getElem?_eq_getElem (hlength ▸ hk)⟩
  refine ⟨y, ?_, ?_⟩
  · rw [parameter?, hn]
    exact hy
  · rw [spent_succ hevent hn]
    refine List.mem_append_right _ (List.mem_of_getElem? (i := k) ?_)
    exact List.getElem?_zip_eq_some.mpr ⟨hname, hy⟩

/-- A variable of the author whose identifier nothing else has keeps its symbol to itself, and its
identifier stands for it, until an event stores a parameter under its name. From then on the identifier
stands for nothing. -/
theorem author_variable_resolves
    (hrun : (Emit.emitProgram ctx).run (.start ctx.source) = (.ok (), e))
    (herrors : e.hasErrors = false) (hd : d ∈ ctx.source.data.vars)
    (hguid : ∀ event ∈ ctx.source.data.events, d.guid ∉ event.boundGuids) :
    ∃ x, e.program.symbols.nameOf x = d.name ∧ e.program.symbols.IsUser x ∧
      (∀ l ∈ ctx.lookups, l.slot = .reference (.guid d.guid) →
        l.resolved? = if d.name ∈ ctx.storedBefore l.event then none else some x) ∧
      (∀ n k event name, ctx.source.data.events[n]? = some event →
        (event.trigger.storage ctx.catalogue)[k]? = some name →
        ∃ y, ctx.parameter? n k = some y ∧ (y = x ↔ name = d.name)) ∧
      (∀ event ∈ ctx.source.data.events, ∀ name params, event.trigger = .custom name params →
        d.name ∉ event.trigger.storage ctx.catalogue) ∧
      ∀ l ∈ ctx.lookups, l.declared? ≠ some x := by
  have hevolves := Emit.evolves_emitEvents (e := ctx.declared) ctx.consistent_declared hrun
  obtain ⟨-, -, -, hdeclared⟩ := Emit.authored_declareVariables (e := .start ctx.source)
    ctx.source.data.sync ctx.source.data.vars SymbolTable.authored_empty
  obtain ⟨hlegal, x, hx, hfound⟩ := hdeclared (hevolves.noErrors herrors) d hd
  have hplain : ¬Begins "__" d.name := not_begins_of_isVariableName hlegal (by decide)
  have hfinds : e.program.symbols.names.get? d.name = some x := hevolves.heap.names hplain hfound
  obtain ⟨v, hv, hname⟩ := hevolves.heap.consistent.names hfinds
  obtain ⟨halong, -, hend⟩ := scoped_emitProgram (fun guid id => guid = d.guid ∧ id = x)
    (fun guid id hauthor => hauthor.1 ▸ hauthor.2 ▸ hx)
    (fun event hevent => EventDecl.apart_of_notMem fun guid id hauthor =>
      hauthor.1 ▸ hguid event hevent) hrun herrors
  -- A parameter is stored in the variable exactly if it is stored under its name.
  have hslot {name : String} {y : VarId} (hmem : (name, y) ∈ ctx.spent ctx.source.data.events.length) :
      y = x ↔ name = d.name := by
    obtain ⟨⟨w, hw, hwname⟩, hfoundy⟩ := hend.stored hmem
    constructor
    · rintro rfl
      rw [hv] at hw
      cases hw
      exact hwname.symm.trans hname
    · rintro rfl
      exact Option.some.inj ((hfoundy hplain).symm.trans hfinds)
  have hspent (n : Nat) : x ∈ (ctx.spent n).map Prod.snd ↔ d.name ∈ ctx.storedBefore n := by
    rw [← map_fst_spent hrun herrors n]
    constructor
    · intro hmem
      obtain ⟨⟨name, y⟩, hslots, rfl⟩ := List.mem_map.mp hmem
      exact List.mem_map.mpr ⟨_, hslots, (hslot (spent_subset n hslots)).mp rfl⟩
    · intro hmem
      obtain ⟨⟨name, y⟩, hslots, rfl⟩ := List.mem_map.mp hmem
      exact List.mem_map.mpr ⟨_, hslots, (hslot (spent_subset n hslots)).mpr rfl⟩
  refine ⟨x, ?_, (hend.authors ⟨rfl, rfl⟩).1, fun l hl hguid => ?_, fun n k event name hevent hstored => ?_,
    fun event _ name params htrigger hmem => ?_, fun l hl hdeclares => ?_⟩
  · rw [SymbolTable.nameOf, hv]
    exact hname
  · obtain ⟨before, after, hsplit⟩ := List.append_of_mem hl
    rw [hsplit] at halong
    obtain ⟨event, run, opened, -, -, hscoped⟩ := halong.at_split
    have hbound := (hscoped.authors ⟨rfl, rfl⟩).2
    simp only [Lookup.resolved?, hguid]
    rw [hbound, if_congr (hspent l.event) rfl rfl]
  · obtain ⟨y, hy, hmem⟩ := exists_slot hrun herrors hevent hstored
    exact ⟨y, hy, hslot (spent_subset _ hmem)⟩
  · rw [htrigger] at hmem
    obtain ⟨p, -, hp⟩ := List.mem_map.mp hmem
    rw [← hp, not_isVariableName_customParamVariable] at hlegal
    cases hlegal
  · obtain ⟨-, stem, w, hw, hwname⟩ := hend.declared hl hdeclares
    rw [hv] at hw
    cases hw
    refine hplain ?_
    rw [← hname, hwname]
    exact (((by decide : Begins "__" "__lcl_").append _).append _).append _

/-- An event with a parameter, and one behind it that prints a variable of the author. -/
def shadowing : Context where
  source :=
    { key := "p"
      data :=
        { events := [
            { trigger := .builtin "PlayerJoined" [⟨sampleGuid 1, "p", .player, false⟩] },
            { trigger := .custom "run" []
              actions := [
                { action := .primitive "debug_log"
                  inputs := [.reference (.guid (sampleGuid 2))] }] }]
          vars := [{ guid := sampleGuid 2, name := "onPlayerJoinedPlayer", type := .player }] } }
  catalogue := .builtin
  modules := .empty
  settings := {}

/-- The variable of the author holds the parameter of the first event, and its identifier is lost to the
second one; the program is accepted. -/
theorem author_variable_shadowed :
    shadowing.compile.compiled.isSuccess = true ∧
      ∃ e x, (Emit.emitProgram shadowing).run (.start shadowing.source) = (.ok (), e) ∧
        e.hasErrors = false ∧ e.program.symbols.names.get? "onPlayerJoinedPlayer" = some x ∧
        shadowing.declared.program.symbols.idOfGuid? (sampleGuid 2) = some x ∧
        shadowing.parameter? 0 0 = some x ∧
        shadowing.lookups.map (fun l => (l.slot, l.resolved?)) =
          [(.reference (.guid (sampleGuid 2)), none)] := by
  have hok : ((Emit.emitProgram shadowing).run (.start shadowing.source)).1 = .ok () := by
    decide +kernel
  exact ⟨by decide +kernel, _, 0, Attempt.run_eq_of_fst hok, by decide +kernel, by decide +kernel,
    by decide +kernel, by decide +kernel, by decide +kernel⟩

/-- The exact condition at the same program: the first event stores its parameter under the name of the
variable, so that the second event does not find it. -/
theorem author_variable_resolves_shadowing :
    ∃ x, (∃ y, shadowing.parameter? 0 0 = some y ∧ y = x) ∧
      ∀ l ∈ shadowing.lookups, l.slot = .reference (.guid (sampleGuid 2)) → l.event = 1 →
        l.resolved? = none := by
  have hok : ((Emit.emitProgram shadowing).run (.start shadowing.source)).1 = .ok () := by
    decide +kernel
  obtain ⟨x, -, -, hlooks, hparams, -⟩ := author_variable_resolves
    (d := { guid := sampleGuid 2, name := "onPlayerJoinedPlayer", type := .player })
    (Attempt.run_eq_of_fst hok) (by decide +kernel) (by decide) (by decide +kernel)
  refine ⟨x, ?_, fun l hl hslot hevent => ?_⟩
  · obtain ⟨y, hy, hiff⟩ := hparams 0 0 _ "onPlayerJoinedPlayer" rfl (by decide +kernel)
    exact ⟨y, hy, hiff.mpr rfl⟩
  · rw [hlooks l hl hslot, hevent]
    exact if_pos (by decide +kernel)

end Context

end TriggerCompiler
