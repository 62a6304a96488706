import TriggerCompiler.Proofs.ParameterStorage

/-! The scopes of an event. While the actions of an event are compiled, every identifier that is bound
stands for a variable of the author, for a parameter of the event, or for a variable that was declared in
a block that is still open. Behind the event only the variables of the author are left, and of these only
the ones that no parameter has been stored in. -/

namespace TriggerCompiler

open Text Emission

namespace SymbolTable

variable {t t' : SymbolTable} {id : VarId}

/-- Whether a handle denotes a variable of the author. -/
def IsUser (t : SymbolTable) (id : VarId) : Prop := ∃ v, t.get? id = some v ∧ v.kind = .user

/-- Whether a handle denotes a variable of a block. -/
def IsLocal (t : SymbolTable) (id : VarId) : Prop := ∃ v, t.get? id = some v ∧ v.kind = .blockLocal

/-- The variables of blocks have names of their own. -/
def LocalsNamed (t : SymbolTable) : Prop :=
  ∀ (id : VarId) (v : Variable), t.get? id = some v → v.kind = .blockLocal → Begins "__lcl_" v.name

theorem Extends.isUser (h : t.Extends t') (hid : t.IsUser id) : t'.IsUser id := by
  obtain ⟨v, hv, hkind⟩ := hid
  obtain ⟨w, hw, hsame⟩ := h.vars hv
  exact ⟨w, hw, hsame.kind.trans hkind⟩

theorem Extends.isLocal (h : t.Extends t') (hid : t.IsLocal id) : t'.IsLocal id := by
  obtain ⟨v, hv, hkind⟩ := hid
  obtain ⟨w, hw, hsame⟩ := h.vars hv
  exact ⟨w, hw, hsame.kind.trans hkind⟩

theorem IsUser.not_isLocal (h : t.IsUser id) : ¬t.IsLocal id := by
  rintro ⟨w, hw, hlocal⟩
  obtain ⟨v, hv, huser⟩ := h
  rw [hv] at hw
  cases hw
  rw [huser] at hlocal
  cases hlocal

/-- A variable of a block that was there before has its name already. -/
theorem LocalsNamed.of_old (h : t.LocalsNamed) (hkeeps : t.Extends t')
    (hold : ∀ {id : VarId} {v : Variable}, t'.get? id = some v → v.kind = .blockLocal → t.Live id) :
    t'.LocalsNamed := by
  intro id v hv hkind
  obtain ⟨w, hw⟩ := hold hv hkind
  obtain ⟨v', hv', hsame⟩ := hkeeps.vars hw
  rw [hv] at hv'
  cases hv'
  rw [hsame.name]
  exact h id w hw (hsame.kind.symm.trans hkind)

theorem LocalsNamed.declareLocal (h : t.LocalsNamed) (name : String) (type : VarType) :
    (t.declareLocal name type).2.LocalsNamed := by
  intro id v hv hkind
  rw [SymbolTable.declareLocal, get?_insert] at hv
  split at hv
  · cases hv
    exact (((by decide : Begins "__lcl_" "__lcl_").append _).append _).append _
  · exact h id v hv hkind

theorem isLocal_declareLocal (t : SymbolTable) (name : String) (type : VarType) :
    (t.declareLocal name type).2.IsLocal (t.declareLocal name type).1 :=
  ⟨_, get?_insert_self _ _, rfl⟩

theorem idOfGuid?_bindGuid (t : SymbolTable) (guid g : Guid) (id : VarId) :
    (t.bindGuid guid id).idOfGuid? g = if guid = g then some id else t.idOfGuid? g :=
  OrderedMap.get?_insert _ _ _ _

end SymbolTable

/-- What stays the same while the actions of an event are compiled. -/
structure EventScope where
  event : Nat
  /-- What the actions stand for. -/
  outline : Outline
  /-- The parameters of the events before: names and variables. -/
  spent : List (String × VarId)
  /-- The parameters of the event: names and variables. -/
  slots : List (String × VarId)
  /-- Identifiers that are given to variables of the author only, with their variables. -/
  authors : Guid → VarId → Prop

namespace EventScope

/-- The variables of the parameters. -/
def params (S : EventScope) : List VarId := S.slots.map Prod.snd

/-- The place of the innermost of the blocks that are open. -/
def place (S : EventScope) (opened : List Nat) : Option Location :=
  opened.head?.map (Location.ofAction S.event)

/-- A look at a slot of one of the first actions of the event declared a variable in the block at a
place. -/
def Declares (S : EventScope) (k : Nat) (done : List Lookup) (place : Option Location) (id : VarId) :
    Prop :=
  ∃ l ∈ done, l.event = S.event ∧ l.action < k ∧ l.declared? = some id ∧
    ∃ opened, S.outline.Nesting (l.action + 1) opened ∧ S.place opened = place

variable {S : EventScope} {k k' : Nat} {done done' : List Lookup} {place : Option Location} {id : VarId}

theorem Declares.mono (h : S.Declares k done place id) (hk : k ≤ k') (hdone : done ⊆ done') :
    S.Declares k' done' place id := by
  obtain ⟨l, hl, hevent, haction, hdeclares⟩ := h
  exact ⟨l, hdone hl, hevent, Nat.lt_of_lt_of_le haction hk, hdeclares⟩

end EventScope

/-- What holds between the events of a program and inside them: identifiers of the author stand for their
variables as long as no parameter has been stored there, parameters are found under their names, and the
variables of blocks have numbers that rise. -/
structure Held (authors : Guid → VarId → Prop) (spent stored : List (String × VarId))
    (done : List Lookup) (e : Emission) : Prop where
  consistent : e.program.symbols.Consistent
  locals : e.program.symbols.LocalsNamed
  authors {guid : Guid} {id : VarId} : authors guid id → e.program.symbols.IsUser id ∧
    e.program.symbols.idOfGuid? guid = if id ∈ spent.map Prod.snd then none else some id
  stored {name : String} {id : VarId} : (name, id) ∈ stored →
    (∃ v, e.program.symbols.get? id = some v ∧ v.name = name) ∧
      (¬Begins "__" name → e.program.symbols.names.get? name = some id)
  declared {l : Lookup} {id : VarId} : l ∈ done → l.declared? = some id →
    l.state.program.symbols.counter < e.program.symbols.counter ∧
      ∃ (stem : String) (v : Variable), e.program.symbols.get? id = some v ∧
        v.name = s!"__lcl_{stem}_{l.state.program.symbols.counter}"

/-- The identifiers that are bound between two events. -/
structure Idle (authors : Guid → VarId → Prop) (spent : List (String × VarId)) (done : List Lookup)
    (e : Emission) : Prop extends Held authors spent spent done e where
  bound {guid : Guid} {id : VarId} : e.program.symbols.idOfGuid? guid = some id →
    e.program.symbols.IsUser id ∧ id ∉ spent.map Prod.snd

/-- The identifiers that are bound, and the scopes that are open, when some actions of an event have been
begun. -/
structure Scoped (S : EventScope) (k : Nat) (opened : List Nat) (done : List Lookup) (e : Emission) :
    Prop extends Held S.authors S.spent (S.spent ++ S.slots) done e where
  nesting : S.outline.Nesting k opened
  bound {guid : Guid} {id : VarId} : e.program.symbols.idOfGuid? guid = some id →
    (e.program.symbols.IsUser id ∧ id ∉ S.spent.map Prod.snd) ∨ id ∈ S.params ∨
      ∃ scope ∈ e.blocks.scopes, id ∈ scope.2 ∧ S.Declares k done scope.1 id
  places : e.blocks.scopes.map Prod.fst =
    opened.map (fun a => some (.ofAction S.event a)) ++ [none]
  base {owned : List VarId} : (none, owned) ∈ e.blocks.scopes → S.params ⊆ owned
  owned {place : Option Location} {owned : List VarId} {id : VarId} : (place, owned) ∈ e.blocks.scopes →
    id ∈ owned → place = none ∧ id ∈ S.params ∨ e.program.symbols.IsLocal id

namespace Held

variable {authors : Guid → VarId → Prop} {spent spent' stored : List (String × VarId)}
  {done : List Lookup} {e e' : Emission}

theorem evolve (h : Held authors spent stored done e)
    (hevolves : e.program.symbols.Evolves e'.program.symbols)
    (hlocals : e'.program.symbols.LocalsNamed)
    (hauthors : ∀ guid id, authors guid id → e'.program.symbols.idOfGuid? guid =
      if id ∈ spent'.map Prod.snd then none else some id) : Held authors spent' stored done e' := by
  refine ⟨hevolves.consistent, hlocals, fun hauthor => ⟨hevolves.keeps.isUser (h.authors hauthor).1,
    hauthors _ _ hauthor⟩, fun hmem => ?_, fun hl hid => ?_⟩
  · obtain ⟨⟨v, hv, hname⟩, hfound⟩ := h.stored hmem
    obtain ⟨w, hw, hsame⟩ := hevolves.keeps.vars hv
    exact ⟨⟨w, hw, hsame.name.trans hname⟩, fun hplain => hevolves.names hplain (hfound hplain)⟩
  · obtain ⟨hcounter, stem, v, hv, hname⟩ := h.declared hl hid
    obtain ⟨w, hw, hsame⟩ := hevolves.keeps.vars hv
    exact ⟨Nat.lt_of_lt_of_le hcounter hevolves.counter, stem, w, hw, hsame.name.trans hname⟩

theorem still (h : Held authors spent stored done e) (hstill : e.Still e') :
    Held authors spent stored done e' := by
  refine h.evolve hstill.heap (h.locals.of_old hstill.heap.keeps fun hv hkind =>
    hstill.spares.old hv (Or.inr hkind)) fun guid id hauthor => ?_
  rw [hstill.idOfGuid?_eq]
  exact (h.authors hauthor).2

theorem look {l : Lookup} (h : Held authors spent stored done e) (hl : l.declared? = none) :
    Held authors spent stored (done ++ [l]) e := by
  refine { h with declared := fun hmem hid => ?_ }
  rcases List.mem_append.mp hmem with hold | hnew
  · exact h.declared hold hid
  · rw [List.mem_singleton.mp hnew, hl] at hid
    cases hid

end Held

namespace Scoped

variable {S : EventScope} {k : Nat} {opened : List Nat} {done : List Lookup} {e e' : Emission}

theorem still (h : Scoped S k opened done e) (hstill : e.Still e') : Scoped S k opened done e' := by
  refine ⟨h.toHeld.still hstill, h.nesting, fun hid => ?_, by rw [hstill.scopes]; exact h.places,
    fun hmem => ?_, fun hmem hid => ?_⟩
  · rw [hstill.idOfGuid?_eq] at hid
    rw [hstill.scopes]
    exact (h.bound hid).imp_left fun huser => ⟨hstill.heap.keeps.isUser huser.1, huser.2⟩
  · rw [hstill.scopes] at hmem
    exact h.base hmem
  · rw [hstill.scopes] at hmem
    exact (h.owned hmem hid).imp_right hstill.heap.keeps.isLocal

theorem look {l : Lookup} (h : Scoped S k opened done e) (hl : l.declared? = none) :
    Scoped S k opened (done ++ [l]) e := by
  refine { h with toHeld := h.toHeld.look hl, bound := fun hid => ?_ }
  refine (h.bound hid).imp_right (Or.imp_right ?_)
  rintro ⟨scope, hscope, hid, hdeclares⟩
  exact ⟨scope, hscope, hid, hdeclares.mono (Nat.le_refl _) (List.subset_append_left _ _)⟩

/-- The innermost scope and the others. -/
theorem exists_top (h : Scoped S k opened done e) : ∃ owned rest,
    e.blocks.scopes = (S.place opened, owned) :: rest := by
  have hplaces := h.places
  cases hscopes : e.blocks.scopes with
  | nil =>
    rw [hscopes] at hplaces
    simp at hplaces
  | cons scope rest =>
    obtain ⟨place, owned⟩ := scope
    refine ⟨owned, rest, ?_⟩
    rw [hscopes] at hplaces
    have hplace : S.place opened = place := by
      cases opened with
      | nil => exact (List.cons.inj hplaces).1.symm
      | cons a opened => exact (List.cons.inj hplaces).1.symm
    rw [hplace]

theorem scopes_own {b : BlockStack} {place : Option Location} {owned : List VarId}
    {rest : List (Option Location × List VarId)} (h : b.scopes = (place, owned) :: rest) (id : VarId) :
    (b.own id).scopes = (place, owned ++ [id]) :: rest := by
  obtain ⟨frames, previous⟩ := b
  cases frames with
  | nil => cases h
  | cons frame frames =>
    obtain ⟨hframe, hrest⟩ := List.cons.inj h
    cases hframe
    exact congrArg _ hrest

/-- A variable that is added to the innermost scope. -/
theorem localized (h : Scoped S k opened done e) (name : String) (type : VarType) :
    Scoped S k opened done (e.localized name type) := by
  have hevolves := evolves_localized h.consistent name type
  obtain ⟨owned, rest, hscopes⟩ := h.exists_top
  have hscopes' := scopes_own hscopes (e.program.symbols.declareLocal name type).1
  have hnew : (e.localized name type).blocks.scopes =
      (S.place opened, owned ++ [(e.program.symbols.declareLocal name type).1]) :: rest := hscopes'
  refine ⟨h.toHeld.evolve hevolves.heap (h.locals.declareLocal name type)
    fun _ _ hauthor => (h.authors hauthor).2, h.nesting, fun hid => ?_, ?_, fun {owned'} hmem => ?_,
    fun {place owned' id} hmem hid => ?_⟩
  · refine (h.bound hid).imp (fun huser => ⟨hevolves.heap.keeps.isUser huser.1, huser.2⟩)
      (Or.imp_right ?_)
    rintro ⟨scope, hscope, hid, hdeclares⟩
    rw [hscopes] at hscope
    rw [hnew]
    rcases List.mem_cons.mp hscope with rfl | hscope
    · exact ⟨_, List.mem_cons_self, List.mem_append_left _ hid, hdeclares⟩
    · exact ⟨scope, List.mem_cons_of_mem _ hscope, hid, hdeclares⟩
  · rw [hnew, ← h.places, hscopes]
    rfl
  · rw [hnew] at hmem
    rcases List.mem_cons.mp hmem with heq | hmem
    · obtain ⟨hplace, rfl⟩ := Prod.mk.inj heq
      refine List.Subset.trans (h.base ?_) (List.subset_append_left owned _)
      rw [hscopes, hplace]
      exact List.mem_cons_self
    · refine h.base ?_
      rw [hscopes]
      exact List.mem_cons_of_mem _ hmem
  · rw [hnew] at hmem
    rcases List.mem_cons.mp hmem with heq | hmem
    · obtain ⟨rfl, rfl⟩ := Prod.mk.inj heq
      rcases List.mem_append.mp hid with hid | hid
      · refine (h.owned ?_ hid).imp_right hevolves.heap.keeps.isLocal
        rw [hscopes]
        exact List.mem_cons_self
      · rw [List.mem_singleton.mp hid]
        exact Or.inr (SymbolTable.isLocal_declareLocal _ name type)
    · refine (h.owned ?_ hid).imp_right hevolves.heap.keeps.isLocal
      rw [hscopes]
      exact List.mem_cons_of_mem _ hmem

/-- A variable that is declared in the innermost scope for an identifier that is none of the author's. -/
theorem declaring (h : Scoped S (k + 1) opened done e) {spec : ParamSpec}
    (houtput : spec.output = true) {guid : Guid} (name : String)
    (hguid : ∀ id, ¬S.authors guid id) :
    Scoped S (k + 1) opened (done ++ [⟨S.event, k, spec, .declare guid name, e⟩])
      (e.declaring guid name spec.type) := by
  have hlocal := h.localized name spec.type
  have hevolves := evolves_declaring h.consistent guid name spec.type
  have hdeclared : (⟨S.event, k, spec, .declare guid name, e⟩ : Lookup).declared? =
      some (e.program.symbols.declareLocal name spec.type).1 := by
    simp only [Lookup.declared?, houtput, if_true]
  have hlookup (g : Guid) : (e.declaring guid name spec.type).program.symbols.idOfGuid? g =
      if guid = g then some (e.program.symbols.declareLocal name spec.type).1
      else (e.localized name spec.type).program.symbols.idOfGuid? g :=
    SymbolTable.idOfGuid?_bindGuid _ _ _ _
  have hheld : Held S.authors S.spent (S.spent ++ S.slots) done (e.declaring guid name spec.type) := by
    refine h.toHeld.evolve hevolves.heap hlocal.locals fun g id hauthor => ?_
    rw [hlookup, if_neg]
    · exact (hlocal.authors hauthor).2
    · rintro rfl
      exact hguid id hauthor
  refine ⟨{ hheld with declared := fun {l id} hmem hid => ?_ }, h.nesting, fun hid => ?_, hlocal.places,
    hlocal.base, hlocal.owned⟩
  · rcases List.mem_append.mp hmem with hold | hnew
    · exact hheld.declared hold hid
    · rw [List.mem_singleton.mp hnew] at hid ⊢
      rw [hdeclared] at hid
      cases hid
      exact ⟨Nat.lt_succ_self _, name, _, SymbolTable.get?_insert_self _ _, rfl⟩
  · rw [hlookup] at hid
    split at hid
    · cases hid
      obtain ⟨owned, rest, hscopes⟩ := h.exists_top
      refine Or.inr (Or.inr ⟨_, (scopes_own hscopes _) ▸ List.mem_cons_self,
        List.mem_append_right _ (List.mem_singleton_self _), ?_⟩)
      exact ⟨_, List.mem_append_right _ (List.mem_singleton_self _), rfl, Nat.lt_succ_self k, hdeclared,
        opened, h.nesting, rfl⟩
    · refine (hlocal.bound hid).imp_right (Or.imp_right ?_)
      rintro ⟨scope, hscope, hid, hdeclares⟩
      exact ⟨scope, hscope, hid, hdeclares.mono (Nat.le_refl _) (List.subset_append_left _ _)⟩

theorem skip (h : Scoped S k opened done e) (hop : Outline.rise (S.outline.op? k) = 0) :
    Scoped S (k + 1) opened done e := by
  refine { h with nesting := h.nesting.skip hop, bound := fun hid => ?_ }
  refine (h.bound hid).imp_right (Or.imp_right ?_)
  rintro ⟨scope, hscope, hmem, hdeclares⟩
  exact ⟨scope, hscope, hmem, hdeclares.mono (Nat.le_succ k) (List.Subset.refl _)⟩

/-- A scope is opened. -/
theorem pushed (h : Scoped S k opened done e) {kind : BlockKind}
    (hop : S.outline.op? k = some (.openBlock kind)) {frame : BlockFrame}
    (hframe : frame.scope = (some (.ofAction S.event k), [])) :
    Scoped S (k + 1) (k :: opened) done (e.pushed frame) := by
  have hscopes : (e.pushed frame).blocks.scopes =
      (some (.ofAction S.event k), []) :: e.blocks.scopes := by
    rw [← hframe]
    rfl
  refine ⟨h.toHeld.evolve (evolves_pushed h.consistent frame).heap h.locals
    fun _ _ hauthor => (h.authors hauthor).2, h.nesting.push hop, fun hid => ?_, ?_, fun hmem => ?_,
    fun hmem hid => ?_⟩
  · refine (h.bound hid).imp_right (Or.imp_right ?_)
    rintro ⟨scope, hscope, hmem, hdeclares⟩
    exact ⟨scope, hscopes ▸ List.mem_cons_of_mem _ hscope, hmem,
      hdeclares.mono (Nat.le_succ k) (List.Subset.refl _)⟩
  · rw [hscopes, List.map_cons, h.places]
    rfl
  · rw [hscopes] at hmem
    exact h.base (List.mem_of_ne_of_mem (by simp) hmem)
  · rw [hscopes] at hmem
    rcases List.mem_cons.mp hmem with heq | hmem
    · obtain ⟨-, rfl⟩ := Prod.mk.inj heq
      cases hid
    · exact h.owned hmem hid

/-- The innermost scope is closed. -/
theorem popped (h : Scoped S k opened done e) (hop : S.outline.op? k = some .closeBlock)
    {scope below : Option Location × List VarId}
    {rest : List (Option Location × List VarId)} {blocks : BlockStack}
    (hscopes : e.blocks.scopes = scope :: below :: rest) (hblocks : blocks.scopes = below :: rest) :
    ∃ opened', Scoped S (k + 1) opened' done (e.popped scope.2 blocks) := by
  obtain ⟨place, owned⟩ := scope
  have hplaces := h.places
  rw [hscopes] at hplaces
  cases opened with
  | nil => simp at hplaces
  | cons a opened' =>
    refine ⟨opened', ?_⟩
    obtain ⟨hplace, hrest⟩ := List.cons.inj hplaces
    have hevolves := evolves_popped h.consistent owned blocks
    have hlookup (guid : Guid) : (e.popped owned blocks).program.symbols.idOfGuid? guid =
        (e.program.symbols.idOfGuid? guid).filter fun id => id ∉ owned :=
      SymbolTable.idOfGuid?_unbindAll _ _ _
    have hget (id : VarId) : (e.popped owned blocks).program.symbols.get? id =
        e.program.symbols.get? id := SymbolTable.get?_unbindAll _ _ _
    have hmem {p : Option Location × List VarId} (hp : p ∈ blocks.scopes) : p ∈ e.blocks.scopes := by
      rw [hscopes, ← hblocks]
      exact List.mem_cons_of_mem _ hp
    refine ⟨h.toHeld.evolve hevolves.heap (fun id v hv => h.locals id v (hget id ▸ hv))
      fun guid id hauthor => ?_, (h.nesting.pop hop).1, fun hid => ?_, ?_,
      fun hscope => h.base (hmem hscope),
      fun hscope hid => ?_⟩
    · obtain ⟨huser, hbound⟩ := h.authors hauthor
      -- The variables of a block are none of the author's.
      have hnot : id ∉ owned := by
        intro hid
        rcases h.owned (hscopes ▸ List.mem_cons_self) hid with ⟨hnone, -⟩ | hlocal
        · rw [hnone] at hplace
          cases hplace
        · exact huser.not_isLocal hlocal
      rw [hlookup, hbound]
      split
      · rfl
      · simp [Option.filter, hnot]
    · rw [hlookup, Option.filter_eq_some_iff] at hid
      obtain ⟨hid, hnot⟩ := hid
      refine (h.bound hid).imp (fun huser => ⟨hevolves.heap.keeps.isUser huser.1, huser.2⟩)
        (Or.imp_right ?_)
      rintro ⟨scope, hscope, hmem, hdeclares⟩
      rw [hscopes] at hscope
      rcases List.mem_cons.mp hscope with rfl | hscope
      · exact absurd hmem (by simpa using hnot)
      · exact ⟨scope, hblocks ▸ hscope, hmem, hdeclares.mono (Nat.le_succ k) (List.Subset.refl _)⟩
    · show blocks.scopes.map Prod.fst = _
      rw [hblocks]
      exact hrest
    · exact (h.owned (hmem hscope) hid).imp_right hevolves.heap.keeps.isLocal

/-- Nothing that an event declared is visible behind it. -/
theorem finished (h : Scoped S k opened done e) :
    Idle S.authors (S.spent ++ S.slots) done e.finished := by
  have hevolves := evolves_popped h.consistent (e.blocks.scopes.flatMap Prod.snd) {}
  have hlookup (guid : Guid) : e.finished.program.symbols.idOfGuid? guid =
      (e.program.symbols.idOfGuid? guid).filter fun id => id ∉ e.blocks.scopes.flatMap Prod.snd :=
    SymbolTable.idOfGuid?_unbindAll _ _ _
  have hget (id : VarId) : e.finished.program.symbols.get? id = e.program.symbols.get? id :=
    SymbolTable.get?_unbindAll _ _ _
  have hparams {id : VarId} (hid : id ∈ S.params) : id ∈ e.blocks.scopes.flatMap Prod.snd := by
    have hnone : none ∈ e.blocks.scopes.map Prod.fst := by
      rw [h.places]
      exact List.mem_append_right _ (List.mem_singleton_self _)
    obtain ⟨⟨place, owned⟩, hscope, rfl⟩ := List.mem_map.mp hnone
    exact List.mem_flatMap.mpr ⟨_, hscope, h.base hscope hid⟩
  refine ⟨h.toHeld.evolve hevolves.heap (fun id v hv => h.locals id v (hget id ▸ hv))
    fun guid id hauthor => ?_, fun {guid id} hid => ?_⟩
  · obtain ⟨huser, hbound⟩ := h.authors hauthor
    have howned : id ∈ e.blocks.scopes.flatMap Prod.snd ↔ id ∈ S.params := by
      refine ⟨fun hid => ?_, hparams⟩
      obtain ⟨⟨place, owned⟩, hscope, hmem⟩ := List.mem_flatMap.mp hid
      exact (h.owned hscope hmem).elim And.right fun hlocal => absurd hlocal huser.not_isLocal
    rw [hlookup, hbound]
    rw [List.map_append, ← EventScope.params]
    by_cases hspent : id ∈ S.spent.map Prod.snd
    · rw [if_pos hspent, if_pos (List.mem_append_left _ hspent)]
      rfl
    · rw [if_neg hspent]
      by_cases hparam : id ∈ S.params
      · rw [if_pos (List.mem_append_right _ hparam)]
        simp [Option.filter, howned.mpr hparam]
      · rw [if_neg fun hmem => (List.mem_append.mp hmem).elim hspent hparam]
        simp [Option.filter, mt howned.mp hparam]
  · rw [hlookup, Option.filter_eq_some_iff] at hid
    obtain ⟨hid, hnot⟩ := hid
    replace hnot : id ∉ e.blocks.scopes.flatMap Prod.snd := by simpa using hnot
    rcases h.bound hid with ⟨huser, hunspent⟩ | hparam | ⟨scope, hscope, hmem, -⟩
    · refine ⟨hevolves.heap.keeps.isUser huser, fun hspent => ?_⟩
      rw [List.map_append] at hspent
      exact (List.mem_append.mp hspent).elim hunspent fun hparam => hnot (hparams hparam)
    · exact absurd (hparams hparam) hnot
    · exact absurd (List.mem_flatMap.mpr ⟨scope, hscope, hmem⟩) hnot

end Scoped

namespace Idle

variable {authors : Guid → VarId → Prop} {spent : List (String × VarId)} {done : List Lookup}
  {e e' : Emission}

theorem still (h : Idle authors spent done e) (hstill : e.Still e') : Idle authors spent done e' := by
  refine ⟨h.toHeld.still hstill, fun hid => ?_⟩
  rw [hstill.idOfGuid?_eq] at hid
  exact ⟨hstill.heap.keeps.isUser (h.bound hid).1, (h.bound hid).2⟩

/-- The parameters of an event are bound. -/
theorem begun (h : Idle authors spent done e) {guids : List Guid} {names : List String}
    {ids : List VarId} (hstores : e.program.symbols.Stores guids names ids e'.program.symbols)
    (hguids : ∀ guid ∈ guids, ∀ id, ¬authors guid id) (event : Nat) (outline : Outline) :
    Scoped ⟨event, outline, spent, names.zip ids, authors⟩ 0 [] done (e'.begun ids) := by
  have hscopes : (e'.begun ids).blocks.scopes = [(none, ids)] := rfl
  have hids : EventScope.params ⟨event, outline, spent, names.zip ids, authors⟩ = ids :=
    List.map_snd_zip (Nat.le_of_eq hstores.stored.length_eq.symm)
  have hlocals := h.locals.of_old hstores.keeps fun hv hkind => hstores.old hv (Or.inr hkind)
  have hheld : Held authors spent spent done (e'.begun ids) := by
    refine h.toHeld.evolve hstores.toEvolves hlocals fun guid id hauthor => ?_
    rw [← (h.authors hauthor).2]
    exact hstores.kept fun hguid => hguids _ hguid _ hauthor
  refine ⟨{ hheld with stored := fun {name id} hmem => ?_ }, Outline.nesting_zero _, fun hid => ?_, rfl,
    fun hmem => ?_, fun hmem hid => ?_⟩
  · rcases List.mem_append.mp hmem with hold | hnew
    · exact hheld.stored hold
    · have hfound := (List.forall₂_zip hstores.stored) hnew
      exact ⟨hstores.consistent.names hfound, fun _ => hfound⟩
  · rcases hstores.bound hid with hbefore | hparam
    · exact Or.inl ⟨hstores.keeps.isUser (h.bound hbefore).1, (h.bound hbefore).2⟩
    · rw [hids]
      exact Or.inr (Or.inl hparam)
  · rw [hscopes, List.mem_singleton] at hmem
    cases hmem
    rw [hids]
    exact List.Subset.refl _
  · rw [hscopes, List.mem_singleton] at hmem
    cases hmem
    rw [hids]
    exact Or.inl ⟨rfl, hid⟩

end Idle

/-! ### Events -/

namespace Emit

variable {ctx : Context} {e e' e'' : Emission}

/-- Every step of the actions of an event keeps the scopes. -/
theorem invariant_scoped (S : EventScope) {actions : List ActionInstance}
    (houtline : S.outline = actions.map ctx.catalogue.definition?)
    (hguids : ∀ action ∈ actions, ∀ guid name,
      .declare guid name ∈ action.inputs ++ action.multiInputs → ∀ id, ¬S.authors guid id) :
    Invariant ctx S.event actions fun k done e => ∃ opened, Scoped S k opened done e where
  consistent := fun ⟨_, h⟩ => h.consistent
  still := fun ⟨opened, h⟩ hstill => ⟨opened, h.still hstill⟩
  look := fun ⟨opened, h⟩ hl => ⟨opened, h.look hl⟩
  declare := by
    rintro k done e action spec guid name haction ⟨opened, h⟩ hslot houtput
    exact ⟨opened, h.declaring houtput name
      (hguids action (List.mem_of_getElem? haction) guid name hslot)⟩
  index := fun ⟨opened, h⟩ => ⟨opened, h.localized _ _⟩
  prepare := by
    rintro k done e e' action haction ⟨opened, h⟩ hprepared
    have hop : S.outline.op? k = (ctx.catalogue.definition? action).map PrimitiveDef.op := by
      rw [Outline.op?, houtline, List.getElem?_map, haction]
      rfl
    rw [← hop] at hprepared
    cases hprepared with
    | skips hrise hstill => exact ⟨opened, (h.still hstill).skip hrise⟩
    | opens hopens hbefore hframe hafter =>
      exact ⟨k :: opened, ((h.still hbefore).pushed hopens hframe).still hafter⟩
    | closes hcloses hbefore hscopes hblocks hafter =>
      obtain ⟨opened', h'⟩ := (h.still hbefore).popped hcloses hscopes hblocks
      exact ⟨opened', h'.still hafter⟩

end Emit

/-- What the actions of an event stand for. -/
def Context.outline (ctx : Context) (event : EventDecl) : Outline :=
  event.actions.map ctx.catalogue.definition?

/-- The parameters of an event: the names under which they are stored, and their variables. -/
def EventRun.slots (ctx : Context) (event : EventDecl) (run : EventRun) : List (String × VarId) :=
  (event.trigger.storage ctx.catalogue).zip run.params

/-- An event binds no identifier of the author. -/
structure EventDecl.Apart (event : EventDecl) (authors : Guid → VarId → Prop) : Prop where
  params : ∀ guid ∈ event.trigger.guids, ∀ id, ¬authors guid id
  locals : ∀ action ∈ event.actions, ∀ guid name,
    .declare guid name ∈ action.inputs ++ action.multiInputs → ∀ id, ¬authors guid id

namespace Emit

variable {ctx : Context} {e e' e'' : Emission} {authors : Guid → VarId → Prop}
  {spent : List (String × VarId)} {done : List Lookup} {index : Nat} {event : EventDecl}

/-- The identifiers that are bound around an event and at its looks at slots. -/
theorem scoped_emitEvent (h : Idle authors spent done e) (hapart : event.Apart authors)
    (hrun : (emitEvent ctx index event).run e = (.ok (), e')) (hlater : e'.Evolves e'')
    (herrors : e''.hasErrors = false) :
    let run := eventRun ctx index event e
    Lookup.Along (LooksOf index fun k before state => ∃ opened, Scoped
        ⟨index, ctx.outline event, spent, run.slots ctx event, authors⟩ k opened before state) done
      run.lookups ∧
    Idle authors (spent ++ run.slots ctx event) (done ++ run.lookups) e' := by
  intro run
  obtain ⟨base, hopen, hopened⟩ := opened_of_emitEvent h.consistent hrun hlater herrors
  have hparams : run.params = base.params := by
    show bodyParams (openEvent ctx index event e).1 = _
    rw [hopen]
    rfl
  have hbegun := h.begun hopened.stores hapart.params index (ctx.outline event)
  rw [← hparams] at hbegun
  obtain ⟨halong, e₁, ⟨opened, hscoped⟩, hstill⟩ := along_emitEvent done
    (invariant_scoped ⟨index, ctx.outline event, spent, run.slots ctx event, authors⟩ rfl hapart.locals)
    ⟨[], hbegun⟩ hrun
  exact ⟨halong, hscoped.finished.still hstill⟩

end Emit

/-! ### Programs -/

namespace Context

variable {ctx : Context} {e : Emission} {authors : Guid → VarId → Prop} {n : Nat} {event : EventDecl}
  {run : EventRun}

/-- Where the parameters of the first events of a program are stored. -/
def spent (ctx : Context) (n : Nat) : List (String × VarId) :=
  ((ctx.source.data.events.zip ctx.runs).take n).flatMap fun p => p.2.slots ctx p.1

/-- The looks at slots of the first events of a program. -/
def lookupsBefore (ctx : Context) (n : Nat) : List Lookup :=
  (ctx.runs.take n).flatMap EventRun.lookups

/-- The identifiers that are bound at a look at a slot of a program. -/
def ScopedAt (ctx : Context) (authors : Guid → VarId → Prop) (before : List Lookup) (l : Lookup) :
    Prop :=
  ∃ event run opened, ctx.source.data.events[l.event]? = some event ∧ ctx.runs[l.event]? = some run ∧
    Scoped ⟨l.event, ctx.outline event, ctx.spent l.event, run.slots ctx event, authors⟩ (l.action + 1)
      opened before l.state

theorem spent_succ (hevent : ctx.source.data.events[n]? = some event) (hrun : ctx.runs[n]? = some run) :
    ctx.spent (n + 1) = ctx.spent n ++ run.slots ctx event := by
  have hzip : (ctx.source.data.events.zip ctx.runs)[n]? = some (event, run) :=
    List.getElem?_zip_eq_some.mpr ⟨hevent, hrun⟩
  rw [spent, List.take_add_one, hzip, List.flatMap_append]
  simp [spent]

theorem lookupsBefore_succ (hrun : ctx.runs[n]? = some run) :
    ctx.lookupsBefore (n + 1) = ctx.lookupsBefore n ++ run.lookups := by
  rw [lookupsBefore, List.take_add_one, hrun, List.flatMap_append]
  simp [lookupsBefore]

/-- The identifiers that are bound from an event on. -/
theorem scoped_emitEvents {e₀ : Emission} {rest : List EventDecl}
    (hrest : ctx.source.data.events.drop n = rest)
    (hruns : ctx.runs.drop n = Emit.eventRuns ctx n rest e₀)
    (h : Idle authors (ctx.spent n) (ctx.lookupsBefore n) e₀)
    (hapart : ∀ event ∈ ctx.source.data.events, event.Apart authors)
    (hrun : (Emit.emitEvents ctx n rest).run e₀ = (.ok (), e)) (herrors : e.hasErrors = false) :
    Lookup.Along (ctx.ScopedAt authors) (ctx.lookupsBefore n)
        ((ctx.runs.drop n).flatMap EventRun.lookups) ∧
      (∀ m run, n ≤ m → ctx.runs[m]? = some run →
        Idle authors (ctx.spent (m + 1)) (ctx.lookupsBefore (m + 1)) run.final) ∧
      Idle authors (ctx.spent (n + rest.length)) (ctx.lookupsBefore (n + rest.length)) e := by
  induction rest generalizing n e₀ with
  | nil =>
    rw [hruns]
    cases hrun
    refine ⟨trivial, fun m run hm hrun => ?_, h⟩
    have hget : (ctx.runs.drop n)[m - n]? = some run := by
      rw [List.getElem?_drop, Nat.add_sub_cancel' hm]
      exact hrun
    rw [hruns] at hget
    cases hget
  | cons event rest ih =>
    obtain ⟨⟨⟩, e₁, hfirst, hlater⟩ := Attempt.exists_of_bind hrun
    have hevent : ctx.source.data.events[n]? = some event := by
      rw [← Nat.add_zero n, ← List.getElem?_drop, hrest]
      rfl
    have hn : ctx.runs[n]? = some (Emit.eventRun ctx n event e₀) := by
      rw [← Nat.add_zero n, ← List.getElem?_drop, hruns]
      rfl
    have hfinal : (Emit.eventRun ctx n event e₀).final = e₁ := congrArg Prod.snd hfirst
    have hevolves := Emit.evolves_emitEvents (Emit.evolves_emitEvent h.consistent hfirst).heap.consistent
      hlater
    obtain ⟨halong, hidle⟩ := Emit.scoped_emitEvent h (hapart event (List.mem_of_getElem? hevent)) hfirst
      hevolves herrors
    rw [← spent_succ hevent hn, ← lookupsBefore_succ hn] at hidle
    have hrest' : ctx.source.data.events.drop (n + 1) = rest := by
      rw [← List.drop_drop, hrest, List.drop_one, List.tail_cons]
    have hruns' : ctx.runs.drop (n + 1) = Emit.eventRuns ctx (n + 1) rest e₁ := by
      rw [← List.drop_drop, hruns, List.drop_one, Emit.eventRuns, List.tail_cons, hfinal]
    obtain ⟨halong', hfinals, hend⟩ := ih hrest' hruns' hidle hlater
    refine ⟨?_, fun m run hm hrun => ?_, ?_⟩
    · rw [hruns, Emit.eventRuns, List.flatMap_cons, hfinal, ← hruns']
      refine .append (halong.mono fun before l hl => ?_) (lookupsBefore_succ hn ▸ halong')
      obtain ⟨hevents, opened, hscoped⟩ := hl
      exact ⟨event, _, opened, hevents ▸ hevent, hevents ▸ hn, hevents ▸ hscoped⟩
    · rcases Nat.eq_or_lt_of_le hm with rfl | hlt
      · rw [hn] at hrun
        cases hrun
        rw [hfinal]
        exact hidle
      · exact hfinals m run hlt hrun
    · rw [List.length_cons, Nat.add_comm rest.length, ← Nat.add_assoc]
      exact hend

end Context

end TriggerCompiler
