import TriggerCompiler.Proofs.AuthorVariables
import TriggerCompiler.Proofs.EmittedNames

/-! Lexical scoping. An identifier stands for a variable of a block only inside the block in which it was
declared, and for a parameter only inside its event; behind an event it stands for a variable of the
author or for nothing. -/

namespace TriggerCompiler

open Text Emission

/-- The innermost of the blocks that are open before an action. -/
def Outline.Innermost (s : Outline) (i a : Nat) : Prop := s.OpenAt a i ∧ ∀ b, s.OpenAt b i → b ≤ a

theorem Outline.Nesting.head?_eq {s : Outline} {i a : Nat} {opened : List Nat} (h : s.Nesting i opened)
    (ha : s.Innermost i a) : opened.head? = some a := by
  cases opened with
  | nil => exact absurd ((h.mem_iff a).mpr ha.1) List.not_mem_nil
  | cons b rest =>
    have hb := ha.2 b ((h.mem_iff b).mp List.mem_cons_self)
    rcases List.mem_cons.mp ((h.mem_iff a).mpr ha.1) with rfl | hrest
    · rfl
    · have hlt := (List.pairwise_cons.mp h.sorted).1 a hrest
      omega

/-- No event of a catalogue has a parameter under a name of the variables of blocks. -/
def Catalogue.StoresApart (c : Catalogue) : Prop :=
  ∀ name d, c.event? name = some d → ∀ spec ∈ d.params, ¬Begins "__lcl_" spec.storage

theorem Catalogue.storesApart_builtin : Catalogue.builtin.StoresApart := by
  intro name d hd spec hspec
  exact (begins_storage hd hspec).not_begins (by decide) (by decide)

/-- A relation between the looks at slots, each with those before it. -/
theorem Lookup.Along.pairwise {P : List Lookup → Lookup → Prop} {R : Lookup → Lookup → Prop}
    {done ls : List Lookup} (h : Along P done ls)
    (hR : ∀ before l, P before l → ∀ l' ∈ before, R l' l) :
    (∀ l' ∈ done, ∀ l ∈ ls, R l' l) ∧ ls.Pairwise R := by
  induction ls generalizing done with
  | nil => exact ⟨fun _ _ _ hl => absurd hl List.not_mem_nil, List.Pairwise.nil⟩
  | cons l ls ih =>
    obtain ⟨hdone, hpairs⟩ := ih h.2
    refine ⟨fun l' hl' m hm => ?_, List.pairwise_cons.mpr ⟨fun m hm => ?_, hpairs⟩⟩
    · rcases List.mem_cons.mp hm with rfl | hm
      · exact hR done m h.1 l' hl'
      · exact hdone l' (List.mem_append_left _ hl') m hm
    · exact hdone l (List.mem_append_right _ (List.mem_singleton_self l)) m hm

/-- A variable that is declared in a block belongs to that block as long as it is open. -/
theorem Scoped.exists_declaration {S : EventScope} {k : Nat} {opened : List Nat} {done : List Lookup}
    {e : Emission} (h : Scoped S k opened done e) {scope : Option Location × List VarId}
    (hscope : scope ∈ e.blocks.scopes) {id : VarId} (hdeclares : S.Declares k done scope.1 id) :
    ∃ l ∈ done, l.event = S.event ∧ l.action < k ∧ l.declared? = some id ∧
      ∀ a, S.outline.Innermost (l.action + 1) a → S.outline.OpenAt a k := by
  obtain ⟨l, hl, hevent, haction, hdeclared, opened', hnesting, hplace⟩ := hdeclares
  refine ⟨l, hl, hevent, haction, hdeclared, fun a ha => (h.nesting.mem_iff a).mp ?_⟩
  rw [EventScope.place, hnesting.head?_eq ha] at hplace
  have hmem : some (Location.ofAction S.event a) ∈ e.blocks.scopes.map Prod.fst :=
    List.mem_map.mpr ⟨scope, hscope, hplace.symm⟩
  rw [h.places] at hmem
  rcases List.mem_append.mp hmem with hopened | hnone
  · obtain ⟨b, hb, heq⟩ := List.mem_map.mp hopened
    cases heq
    exact hb
  · cases List.mem_singleton.mp hnone

namespace Context

variable {ctx : Context} {e : Emission} {n m k : Nat} {event : EventDecl} {run : EventRun} {x : VarId}

/-- Parameters are not stored under names of the variables of blocks. -/
theorem not_begins_of_storedBefore (hslots : ctx.catalogue.StoresApart)
    (hrun : (Emit.emitProgram ctx).run (.start ctx.source) = (.ok (), e))
    (herrors : e.hasErrors = false) {name : String} (hname : name ∈ ctx.storedBefore n) :
    ¬Begins "__lcl_" name := by
  obtain ⟨event, hevent, hmem⟩ := List.mem_flatMap.mp hname
  obtain ⟨i, hi⟩ := List.mem_iff_getElem?.mp (List.mem_of_mem_take hevent)
  cases htrigger : event.trigger with
  | builtin trigger params =>
    rw [htrigger, EventTrigger.storage] at hmem
    cases hd : ctx.catalogue.event? trigger with
    | none =>
      rw [hd] at hmem
      cases hmem
    | some d =>
      rw [hd] at hmem
      obtain ⟨p, hp, rfl⟩ := List.mem_map.mp hmem
      exact hslots trigger d hd p.2 (List.of_mem_zip hp).2
  | custom trigger params =>
    rw [htrigger] at hmem
    obtain ⟨p, -, rfl⟩ := List.mem_map.mp hmem
    obtain ⟨e₁, e₂, hc, hemit, hafter, -⟩ := exists_event hrun hi
    have hlater := Emit.evolves_emitEvents (Emit.evolves_emitEvent hc hemit).heap.consistent hafter
    obtain ⟨hlegal, hfirst, -⟩ := Emit.isCustom_of_emitEvent hc hemit hlater herrors htrigger
    exact not_begins_customParamVariable hlegal hfirst (by decide)
  | changed guid =>
    rw [htrigger] at hmem
    cases hmem

theorem parameter?_iff (hrun : (Emit.emitProgram ctx).run (.start ctx.source) = (.ok (), e))
    (herrors : e.hasErrors = false) (hevent : ctx.source.data.events[n]? = some event)
    (hn : ctx.runs[n]? = some run) :
    (∃ k, ctx.parameter? n k = some x) ↔ x ∈ (run.slots ctx event).map Prod.snd := by
  have hids : (run.slots ctx event).map Prod.snd = run.params :=
    List.map_snd_zip (Nat.le_of_eq (length_params hrun herrors hevent hn).symm)
  rw [hids, List.mem_iff_getElem?]
  simp [parameter?, hn]

/-- The parameters of the first events. -/
theorem mem_spent (hrun : (Emit.emitProgram ctx).run (.start ctx.source) = (.ok (), e))
    (herrors : e.hasErrors = false) (hm : m < n) (hx : ctx.parameter? m k = some x) :
    x ∈ (ctx.spent n).map Prod.snd := by
  obtain ⟨run, hrunm, hk⟩ := Option.bind_eq_some_iff.mp hx
  obtain ⟨hlt, -⟩ := List.getElem?_eq_some_iff.mp hrunm
  have hlength : ctx.runs.length = ctx.source.data.events.length := Emit.length_eventRuns ctx 0 _ _
  obtain ⟨event, hevent⟩ : ∃ event, ctx.source.data.events[m]? = some event :=
    ⟨_, List.getElem?_eq_getElem (hlength ▸ hlt)⟩
  obtain ⟨slot, hslot, rfl⟩ := List.mem_map.mp ((parameter?_iff hrun herrors hevent hrunm).mp ⟨k, hx⟩)
  refine List.mem_map_of_mem (List.mem_flatMap.mpr ⟨(event, run), ?_, hslot⟩)
  refine List.mem_of_getElem? (i := m) ?_
  rw [List.getElem?_take_of_lt hm]
  exact List.getElem?_zip_eq_some.mpr ⟨hevent, hrunm⟩

/-- The variable of a parameter is no variable of a block. -/
theorem kind_ne_of_mem_spent (hslots : ctx.catalogue.StoresApart)
    (hrun : (Emit.emitProgram ctx).run (.start ctx.source) = (.ok (), e))
    (herrors : e.hasErrors = false) {authors : Guid → VarId → Prop} {spent : List (String × VarId)}
    {done : List Lookup} {e₁ : Emission} (h : Held authors spent (ctx.spent n) done e₁)
    (hx : x ∈ (ctx.spent n).map Prod.snd) {v : Variable} (hv : e₁.program.symbols.get? x = some v) :
    v.kind ≠ .blockLocal := by
  intro hkind
  obtain ⟨⟨name, y⟩, hmem, rfl⟩ := List.mem_map.mp hx
  obtain ⟨⟨w, hw, hname⟩, -⟩ := h.stored hmem
  rw [hv] at hw
  cases hw
  have hstored : name ∈ ctx.storedBefore n := by
    rw [← map_fst_spent hrun herrors n]
    exact List.mem_map_of_mem hmem
  exact not_begins_of_storedBefore hslots hrun herrors hstored (hname ▸ h.locals _ v hv hkind)

/-- What an identifier stands for at a look at a slot. -/
theorem ScopedAt.resolved (hslots : ctx.catalogue.StoresApart)
    (hrun : (Emit.emitProgram ctx).run (.start ctx.source) = (.ok (), e))
    (herrors : e.hasErrors = false) {authors : Guid → VarId → Prop} {before : List Lookup} {l : Lookup}
    (h : ctx.ScopedAt authors before l) (hx : l.resolved? = some x) :
    ∃ event v, ctx.source.data.events[l.event]? = some event ∧
      l.state.program.symbols.get? x = some v ∧
      (v.kind = .blockLocal → ∃ l' ∈ before, l'.event = l.event ∧ l'.action ≤ l.action ∧
        l'.declared? = some x ∧ ∀ a, (ctx.outline event).Innermost (l'.action + 1) a →
          (ctx.outline event).OpenAt a (l.action + 1)) ∧
      (v.kind = .eventParam ∨ v.kind = .internal ∨
          (∃ m k, m ≤ l.event ∧ ctx.parameter? m k = some x) →
        ∃ k, ctx.parameter? l.event k = some x) := by
  obtain ⟨event, run, opened, hevent, hn, hscoped⟩ := h
  have hheld : Held authors (ctx.spent l.event) (ctx.spent (l.event + 1)) before l.state := by
    rw [spent_succ hevent hn]
    exact hscoped.toHeld
  obtain ⟨guid, hguid⟩ : ∃ guid, l.state.program.symbols.idOfGuid? guid = some x := by
    unfold Lookup.resolved? at hx
    split at hx
    · exact ⟨_, hx⟩
    · cases hx
  obtain ⟨v, hv⟩ := hscoped.consistent.guids hguid
  have hparam : (∃ k, ctx.parameter? l.event k = some x) ↔ x ∈ (run.slots ctx event).map Prod.snd :=
    parameter?_iff hrun herrors hevent hn
  refine ⟨event, v, hevent, hv, ?_⟩
  rcases hscoped.bound hguid with ⟨⟨w, hw, huser⟩, hspent⟩ | hparams | ⟨scope, hscope, hmem, hdeclares⟩
  · -- A variable of the author holds no parameter of an earlier event.
    rw [hv] at hw
    cases hw
    refine ⟨fun hlocal => by simp [huser] at hlocal, ?_⟩
    rintro (hkind | hkind | ⟨m, k, hm, hx⟩)
    · simp [huser] at hkind
    · simp [huser] at hkind
    · rcases Nat.eq_or_lt_of_le hm with rfl | hlt
      · exact ⟨k, hx⟩
      · exact absurd (mem_spent hrun herrors hlt hx) hspent
  · refine ⟨fun hlocal => ?_, fun _ => hparam.mpr hparams⟩
    refine absurd hlocal (kind_ne_of_mem_spent hslots hrun herrors hheld ?_ hv)
    rw [spent_succ hevent hn, List.map_append]
    exact List.mem_append_right _ hparams
  · obtain ⟨l', hl', hsame, haction, hdeclared, hopen⟩ := hscoped.exists_declaration hscope hdeclares
    refine ⟨fun _ => ⟨l', hl', hsame, Nat.le_of_lt_succ haction, hdeclared, hopen⟩, fun hkind => ?_⟩
    rcases hscoped.owned hscope hmem with ⟨-, hparams⟩ | ⟨w, hw, hlocal⟩
    · exact hparam.mpr hparams
    · rw [hv] at hw
      cases hw
      rcases hkind with hkind | hkind | ⟨m, k, hm, hx⟩
      · simp [hlocal] at hkind
      · simp [hlocal] at hkind
      · exact absurd hlocal (kind_ne_of_mem_spent hslots hrun herrors hheld
          (mem_spent hrun herrors (Nat.lt_succ_of_le hm) hx) hv)

/-- Variables of blocks and parameters do not leak. -/
theorem lexical_scoping (hslots : ctx.catalogue.StoresApart)
    (hrun : (Emit.emitProgram ctx).run (.start ctx.source) = (.ok (), e))
    (herrors : e.hasErrors = false) :
    (∀ before l after x, ctx.lookups = before ++ l :: after → l.resolved? = some x →
      ∃ event v, ctx.source.data.events[l.event]? = some event ∧
        l.state.program.symbols.get? x = some v ∧
        (v.kind = .blockLocal → ∃ l' ∈ before, l'.event = l.event ∧ l'.action ≤ l.action ∧
          l'.declared? = some x ∧ ∀ a, (ctx.outline event).Innermost (l'.action + 1) a →
            (ctx.outline event).OpenAt a (l.action + 1)) ∧
        (v.kind = .eventParam ∨ v.kind = .internal ∨
            (∃ m k, m ≤ l.event ∧ ctx.parameter? m k = some x) →
          ∃ k, ctx.parameter? l.event k = some x)) ∧
    (∀ n run guid x, ctx.runs[n]? = some run → run.final.program.symbols.idOfGuid? guid = some x →
      run.final.program.symbols.IsUser x ∧ ∀ m k, m ≤ n → ctx.parameter? m k ≠ some x) ∧
    ctx.lookups.Pairwise fun l l' => ∀ x y, l.declared? = some x → l'.declared? = some y →
      e.program.symbols.nameOf x ≠ e.program.symbols.nameOf y := by
  obtain ⟨halong, hfinals, hend⟩ := scoped_emitProgram (fun _ _ => False) (fun _ _ => False.elim)
    (fun _ _ => EventDecl.apart_of_notMem fun _ _ => False.elim) hrun herrors
  refine ⟨fun before l after x hsplit hx => ?_, fun n run guid x hn hx => ?_, ?_⟩
  · rw [hsplit] at halong
    exact halong.at_split.resolved hslots hrun herrors hx
  · obtain ⟨huser, hspent⟩ := (hfinals n run hn).bound hx
    exact ⟨huser, fun m k hm hparam => hspent (mem_spent hrun herrors (Nat.lt_succ_of_le hm) hparam)⟩
  · have hrising : ctx.lookups.Pairwise fun l l' => l.declared?.isSome = true →
        l.state.program.symbols.counter < l'.state.program.symbols.counter := by
      refine (halong.pairwise fun before l hl l' hl' hsome => ?_).2
      obtain ⟨event, run, opened, -, -, hscoped⟩ := hl
      obtain ⟨id, hid⟩ := Option.isSome_iff_exists.mp hsome
      exact (hscoped.declared hl' hid).1
    refine hrising.imp_of_mem fun {l l'} hl hl' hlt x y hx hy heq => ?_
    obtain ⟨-, stem, v, hv, hname⟩ := hend.declared hl hx
    obtain ⟨-, stem', w, hw, hname'⟩ := hend.declared hl' hy
    rw [SymbolTable.nameOf, SymbolTable.nameOf, hv, hw] at heq
    have hnames : "__lcl_" ++ stem ++ "_" ++ toString l.state.program.symbols.counter =
        "__lcl_" ++ stem' ++ "_" ++ toString l'.state.program.symbols.counter :=
      hname.symm.trans (heq.trans hname')
    exact absurd (underscore_number_inj hnames) (Nat.ne_of_lt (hlt (by rw [hx]; rfl)))

/-- A manifest whose event stores its parameter under a name of the variables of blocks. -/
def borrowingManifest : Manifest where
  name := "x"
  events := [{ name := "Odd", method := "_odd", params := [⟨"p", .int, "__lcl_x_1"⟩] }]

/-- An event that declares a variable, and one behind it that prints its parameter. -/
def borrowing : Context where
  source :=
    { key := "p"
      data :=
        { events := [
            { trigger := .builtin "Start" []
              actions := [
                { action := .primitive "add_int"
                  inputs := [.default, .default, .declare (sampleGuid 1) "x"] }] },
            { trigger := .builtin "Odd" [⟨sampleGuid 2, "p", .int, false⟩]
              actions := [
                { action := .primitive "debug_log"
                  inputs := [.reference (.guid (sampleGuid 2))] }] }] } }
  catalogue := Catalogue.builtin.add borrowingManifest
  modules := .empty
  settings := {}

/-- The parameter of the second event is the variable that the first one declared; the manifest and the
program are accepted. -/
theorem parameter_stored_in_local :
    Catalogue.ofManifests [borrowingManifest] = .ok borrowing.catalogue ∧
      borrowing.compile.compiled.isSuccess = true ∧
      ∃ e x, (Emit.emitProgram borrowing).run (.start borrowing.source) = (.ok (), e) ∧
        e.hasErrors = false ∧ borrowing.parameter? 1 0 = some x ∧
        (e.program.symbols.get? x).map (fun v => (v.name, v.kind)) = some ("__lcl_x_1", .blockLocal) ∧
        borrowing.lookups.map (fun l => (l.event, l.declared?, l.resolved?)) =
          [(0, none, none), (0, none, none), (0, some x, none), (1, none, some x)] := by
  have hok : ((Emit.emitProgram borrowing).run (.start borrowing.source)).1 = .ok () := by
    decide +kernel
  exact ⟨by decide +kernel, by decide +kernel, _, 1, Attempt.run_eq_of_fst hok, by decide +kernel,
    by decide +kernel, by decide +kernel, by decide +kernel⟩

/-- A loop inside of a condition, whose body declares a variable of its own, and an event behind it whose
parameter has the identifier of the loop's variable. -/
def nestedLocals : Context where
  source :=
    { key := "p"
      data :=
        { events := [
            { trigger := .builtin "Start" []
              actions := [
                { action := .primitive "if", inputs := [.constant (.bool true)] },
                { action := .primitive "for"
                  inputs := [.default, .constant (.int 3), .default, .declare (sampleGuid 1) "i"] },
                { action := .primitive "add_int"
                  inputs := [.reference (.guid (sampleGuid 1)), .constant (.int 1),
                    .declare (sampleGuid 2) "next"] },
                { action := .primitive "debug_log"
                  inputs := [.reference (.guid (sampleGuid 2))] },
                { action := .primitive "end" },
                { action := .primitive "end" }] },
            { trigger := .builtin "PlayerJoined" [⟨sampleGuid 1, "p", .player, false⟩]
              actions := [
                { action := .primitive "debug_log"
                  inputs := [.reference (.guid (sampleGuid 1))] }] }] } }
  catalogue := .builtin
  modules := .empty
  settings := {}

/-- In the body of the loop, the variable that is printed was declared by an action before it whose block
is still open; behind the event all identifiers stand for variables of the author. -/
theorem lexical_scoping_nestedLocals :
    ∃ e x event l, (Emit.emitProgram nestedLocals).run (.start nestedLocals.source) = (.ok (), e) ∧
      e.hasErrors = false ∧ nestedLocals.source.data.events[0]? = some event ∧
      nestedLocals.lookups[8]? = some l ∧ l.event = 0 ∧ l.action = 3 ∧ l.resolved? = some x ∧
      (∃ l' ∈ nestedLocals.lookups.take 8, l'.event = 0 ∧ l'.action ≤ 3 ∧ l'.declared? = some x ∧
        ∀ a, (nestedLocals.outline event).Innermost (l'.action + 1) a →
          (nestedLocals.outline event).OpenAt a 4) ∧
      ∀ run guid y, nestedLocals.runs[0]? = some run →
        run.final.program.symbols.idOfGuid? guid = some y → run.final.program.symbols.IsUser y := by
  have hok : ((Emit.emitProgram nestedLocals).run (.start nestedLocals.source)).1 = .ok () := by
    decide +kernel
  have herrors : ((Emit.emitProgram nestedLocals).run (.start nestedLocals.source)).2.hasErrors = false := by
    decide +kernel
  have hslots : nestedLocals.catalogue.StoresApart := Catalogue.storesApart_builtin
  obtain ⟨hlooks, hafter, -⟩ := lexical_scoping hslots (Attempt.run_eq_of_fst hok) herrors
  have hview : (nestedLocals.lookups[8]?).map (fun l => (l.event, l.action, l.resolved?,
      (l.state.program.symbols.get? 7).map Variable.kind)) = some (0, 3, some 7, some .blockLocal) := by
    decide +kernel
  obtain ⟨l, hl, hview⟩ := Option.map_eq_some_iff.mp hview
  simp only [Prod.mk.injEq] at hview
  obtain ⟨hfirst, haction, hresolved, hkind⟩ := hview
  obtain ⟨hlt, hget⟩ := List.getElem?_eq_some_iff.mp hl
  have hsplit : nestedLocals.lookups =
      nestedLocals.lookups.take 8 ++ l :: nestedLocals.lookups.drop 9 := by
    rw [← hget, List.getElem_cons_drop, List.take_append_drop]
  obtain ⟨event, v, hevent, hv, hlocal, -⟩ := hlooks _ _ _ 7 hsplit hresolved
  rw [hv] at hkind
  obtain ⟨l', hl', hsame, hle, hdeclared, hopen⟩ := hlocal (Option.some.inj hkind)
  rw [hfirst] at hsame hevent
  rw [haction] at hle hopen
  exact ⟨_, 7, event, l, Attempt.run_eq_of_fst hok, herrors, hevent, hl, hfirst, haction, hresolved,
    ⟨l', hl', hsame, hle, hdeclared, hopen⟩, fun run guid y hrun hy => (hafter 0 run guid y hrun hy).1⟩

end Context

end TriggerCompiler
