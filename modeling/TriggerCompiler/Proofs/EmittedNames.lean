import TriggerCompiler.Proofs.MergeSteps

/-! The names at the points of a compilation. Each method, label and variable is one of the program or has
been brought by a module that has been merged, and each constant holds a plain value or the name of a
label or method. -/

open Relation

namespace TriggerCompiler

open Text

/-- The parameters of the events of every program are stored under names with one beginning. -/
theorem begins_storage {name : String} {d : EventDef} {spec : EventParamSpec}
    (hd : Catalogue.builtin.event? name = some d) (hspec : spec ∈ d.params) :
    Begins "on" spec.storage := by
  have hall : Catalogue.builtin.events.entries.all (fun e =>
      e.2.params.all fun spec => decide (Begins "on" spec.storage)) = true := by decide
  have hentry := List.all_eq_true.mp hall _ (OrderedMap.get?_eq_some_iff.mp hd)
  exact of_decide_eq_true (List.all_eq_true.mp hentry spec hspec)

variable {v : Variable}

theorem Variable.IsMade.begins_of_eventParam {ctx : Context} {tracked : Bool} {l : Linker}
    {t : SymbolTable} (h : v.IsMade (ctx.tracking tracked l) t) (hcatalogue : ctx.catalogue = .builtin)
    (hparam : v.kind = .eventParam) : Begins "on" v.name := by
  cases h with
  | eventParam h _ hname _ =>
    obtain ⟨name, d, hd, hspec⟩ := h
    rw [hcatalogue] at hd
    exact hname ▸ begins_storage hd hspec
  | _ => simp_all

variable {x : String} {id : VarId}

namespace Emission

variable {ctx : Context} {e e' : Emission}

/-- No move touches the methods that merges have added. -/
theorem Advance.codeOf_merged (h : Move ctx e e') (hsane : ctx.Sane) (hn : e.Named) {k : Nat}
    (hk : k < e.linker.nextOrdinal)
    (hcontains : e.program.methods.contains (mergedPrefix k ++ x) = true) :
    e'.program.methods.contains (mergedPrefix k ++ x) = true ∧
      e'.program.methods.codeOf (mergedPrefix k ++ x) =
        e.program.methods.codeOf (mergedPrefix k ++ x) := by
  have hown {y : String} (hy : ¬Begins "__m" y) : mergedPrefix k ++ x ≠ y := by
    rintro rfl
    exact hy (begins_mergedPrefix k x)
  cases h with
  | altered h =>
    cases h with
    | @emitted y code hmethod _ _ =>
      have hne := hown (hmethod.isOwnMethodName hsane.catalogue).unmerged
      refine ⟨MethodTable.contains_update.mpr (Or.inr hcontains), ?_⟩
      refine (MethodTable.codeOf_update (f := fun b => { b with code := b.code ++ code })
        fun _ => rfl).trans ?_
      rw [if_neg hne.symm, List.append_nil]
    | touched y exported _ _ _ =>
      refine ⟨MethodTable.contains_update.mpr (Or.inr hcontains), ?_⟩
      have hkeeps (b : MethodBody) :
          ({ b with exported := exported b.exported } : MethodBody).code = b.code ++ [] :=
        (List.append_nil _).symm
      refine (MethodTable.codeOf_update hkeeps).trans ?_
      rw [ite_self, List.append_nil]
    | discarded event _ =>
      have hne : mergedPrefix k ++ x ≠ s!"ev{event}__unreachable" :=
        hown (IsChainMethod.isOwnMethodName ⟨event, _, by decide, rfl⟩).unmerged
      exact ⟨MethodTable.contains_remove.mpr ⟨hne, hcontains⟩, MethodTable.codeOf_remove hne⟩
    | _ => exact ⟨hcontains, rfl⟩
  | @merged m aliases hm _ =>
    rcases hn.merge_cases hsane (hsane.admits hm) aliases with hsame | ⟨s, hmerge⟩
    · rw [hsame]
      exact ⟨hcontains, rfl⟩
    · obtain ⟨heap, -, hmethods⟩ := hmerge.outcome.methods
      rw [hmerge.program, hmethods]
      refine ⟨MethodTable.contains_foldl_merge.mpr (Or.inl hcontains), ?_⟩
      · rw [MethodTable.codeOf_foldl_merge, List.filter_eq_nil_iff.mpr]
        · exact List.append_nil _
        · intro c hc
          rw [decide_eq_true_eq]
          have hnumber {y : String} : mergedPrefix e.linker.nextOrdinal ++ y ≠
              mergedPrefix k ++ x := fun heq => by
            have := (mergedPrefix_append_inj heq).1
            omega
          cases hmerge.outcome.isChunk rfl hc with
          | hook hmethod hhook hname _ =>
            simp only [Bool.and_eq_true] at hhook
            rw [hname]
            exact (hown (unmerged_of_isEventHook hhook.2)).symm
          | own _ _ _ _ hname _ _ => rw [hname]; exact hnumber
          | copy _ hname _ _ => rw [hname]; exact hnumber

theorem Advance.grows (h : Move ctx e e') (hsane : ctx.Sane) (hn : e.Named) :
    e.Grows e' :=
  ⟨fun ht => h.linker ht, h.nextOrdinal_le, (h.evolves hn.consistent).heap.keeps, h.codeOf_merged hsane hn⟩

/-- How a variable comes to the heap by a step. -/
inductive Brings (ctx : Context) (e : Emission) (v : Variable) : Prop
  | made (h : v.IsMade (ctx.tracking true e.linker) e.program.symbols)
  | pooled {type : VarType} {value : Value} (h : v.IsConstant type value)
      (hpools : (ctx.ledger e.linker).Pools e type value)
  | imported {m : Linkable} {names : Renaming} (hm : ctx.modules.get? m.key = some m)
      (hstart : names.namePrefix = mergedPrefix e.linker.nextOrdinal) (h : v.IsImport m names)

/-- A variable behind a step stood there before, or the step has brought it. -/
theorem Advance.brings (h : Move ctx e e') (hsane : ctx.Sane) (hn : e.Named)
    (hv : e'.program.symbols.get? id = some v) :
    (∃ w, e.program.symbols.get? id = some w ∧ w.Same v) ∨ e.Brings ctx v := by
  have hold (hv : e.program.symbols.get? id = some v) :
      ∃ w, e.program.symbols.get? id = some w ∧ w.Same v := ⟨v, hv, rfl, rfl, rfl, rfl⟩
  cases h with
  | altered h =>
    cases h with
    | edited hedit =>
      rcases hedit.made hn.consistent hv with ⟨w, hw, hsame, -⟩ | ⟨-, hmade⟩
      · exact Or.inl ⟨w, hw, hsame⟩
      · exact Or.inr (.made hmade)
    | pooled type value hpools =>
      rcases (SymbolTable.Adds.constant hn.consistent type value fun _ hv => hv).new hv with
        hv | ⟨-, hconstant⟩
      · exact Or.inl (hold hv)
      · exact Or.inr (.pooled hconstant (hpools _ rfl))
    | _ => exact Or.inl (hold hv)
  | @merged m aliases hm _ =>
    rcases hn.merge_cases hsane (hsane.admits hm) aliases with hsame | ⟨s, hmerge⟩
    · rw [hsame] at hv
      exact Or.inl (hold hv)
    · rw [hmerge.program] at hv
      rcases hmerge.outcome.adding.imported.new hv with hv | ⟨-, himport⟩
      · exact Or.inl (hold hv)
      · exact Or.inr (.imported (hsane.admits hm) (Renaming.namePrefix_build _ _) himport)

/-! ### Tidy states -/

/-- What a pooled constant may hold. A method that it names is there, unless the program has an error. -/
inductive Pooled (ctx : Context) (e : Emission) : VarType → Value → Prop
  | plain {type : VarType} {value : Value} (h : value.isPlain = true) : Pooled ctx e type value
  | label {l : String} (h : IsLabelName l) : Pooled ctx e .uint (.label l)
  | merged {l : String} (h : e.Merges ctx Linkable.OwnLabel l) : Pooled ctx e .uint (.label l)
  | method {x : String} (hdispatches : ctx.source.Dispatches x)
      (h : e.hasErrors = false → e.program.methods.contains x = true) :
      Pooled ctx e .string (.method x)
  | mergedMethod {x : String} (h : e.Merges ctx Linkable.Dispatches x) :
      Pooled ctx e .string (.method x)

/-- A state in which every name is one of the program or stems from a merged module. -/
structure Tidy (ctx : Context) (e : Emission) : Prop where
  linked : Emission.Linked ctx e
  methods {x : String} : e.program.methods.contains x = true →
    IsOwnMethodName x ∨ e.Merges ctx (Linkable.AddsMethod ctx.settings.includeEventHooks) x
  labels {l : String} : l ∈ e.program.methods.placed →
    IsLabelName l ∨ e.Merges ctx Linkable.OwnLabel l
  imported {id : VarId} {v : Variable} : e.program.symbols.get? id = some v →
    v.kind = .imported →
    e.Merges ctx (Linkable.AddsVariable ctx.settings.includeEventHooks) v.name
  storage {id : VarId} {v : Variable} : e.program.symbols.get? id = some v →
    v.kind = .eventParam → Begins "on" v.name
  pooled {id : VarId} {v : Variable} : e.program.symbols.get? id = some v →
    v.kind = .constant →
    e.program.symbols.constants.get? (v.default.poolKey v.type) = some id
  constants {id : VarId} {v : Variable} : e.program.symbols.get? id = some v →
    v.kind = .constant → e.Pooled ctx v.type v.default

theorem Advance.pooled_mono (h : Move ctx e e') (hsane : ctx.Sane) (hn : e.Named) {type : VarType}
    {value : Value} (hvalue : e.Pooled ctx type value) : e'.Pooled ctx type value := by
  have hgrows := h.grows hsane hn
  have hclean (he : e'.hasErrors = false) : e.hasErrors = false :=
    (Advances.of_step h).noErrors he
  cases hvalue with
  | plain hplain => exact .plain hplain
  | merged hl => exact .merged (hgrows.merges hl)
  | mergedMethod hx => exact .mergedMethod (hgrows.merges hx)
  | method hdispatches hx =>
    exact .method hdispatches fun he => (h.methods (hclean he)).contains (hx (hclean he))
  | label hl => exact .label hl

/-- The state behind a step is tidy if what the step adds is. -/
theorem Tidy.of_step (ht : e.Tidy ctx) (h : Move ctx e e') (hsane : ctx.Sane) (hn : e.Named)
    (hlinked : Emission.Linked ctx e')
    (hmethods : ∀ x, e'.program.methods.contains x = true →
      e.program.methods.contains x = true ∨ IsOwnMethodName x ∨
        e'.Merges ctx (Linkable.AddsMethod ctx.settings.includeEventHooks) x)
    (hlabels : ∀ l ∈ e'.program.methods.placed, l ∈ e.program.methods.placed ∨
      IsLabelName l ∨ e'.Merges ctx Linkable.OwnLabel l)
    (hvars : ∀ id v, e'.program.symbols.get? id = some v →
      (∃ w, e.program.symbols.get? id = some w ∧ w.Same v) ∨
      (v.kind = .imported →
        e'.Merges ctx (Linkable.AddsVariable ctx.settings.includeEventHooks) v.name) ∧
      (v.kind = .eventParam → Begins "on" v.name) ∧
      (v.kind = .constant →
        e'.program.symbols.constants.get? (v.default.poolKey v.type) = some id ∧
        e'.Pooled ctx v.type v.default)) : e'.Tidy ctx := by
  have hgrows := h.grows hsane hn
  refine ⟨hlinked, fun hx => ?_, fun hl => ?_, fun {id v} hv hkind => ?_,
    fun {id v} hv hkind => ?_, fun {id v} hv hkind => ?_, fun {id v} hv hkind => ?_⟩
  · rcases hmethods _ hx with hold | hnew
    · exact (ht.methods hold).imp_right hgrows.merges
    · exact hnew
  · rcases hlabels _ hl with hold | hnew
    · exact (ht.labels hold).imp_right hgrows.merges
    · exact hnew
  · rcases hvars id v hv with ⟨w, hw, hsame⟩ | hnew
    · rw [hsame.name]
      exact hgrows.merges (ht.imported hw (hsame.kind.symm.trans hkind))
    · exact hnew.1 hkind
  · rcases hvars id v hv with ⟨w, hw, hsame⟩ | hnew
    · rw [hsame.name]
      exact ht.storage hw (hsame.kind.symm.trans hkind)
    · exact hnew.2.1 hkind
  · rcases hvars id v hv with ⟨w, hw, hsame⟩ | hnew
    · rw [hsame.type, hsame.default]
      exact hgrows.heap.constants (ht.pooled hw (hsame.kind.symm.trans hkind))
    · exact (hnew.2.2 hkind).1
  · rcases hvars id v hv with ⟨w, hw, hsame⟩ | hnew
    · rw [hsame.type, hsame.default]
      exact h.pooled_mono hsane hn (ht.constants hw (hsame.kind.symm.trans hkind))
    · exact (hnew.2.2 hkind).2

/-- A method that is named as those of a merge are stems from a merge that has been made. -/
theorem ordinal_lt_of_method (hl : Emission.Linked ctx e) {P : Linkable → String → Prop} {k : Nat}
    {x : String} (hx : IsOwnMethodName (mergedPrefix k ++ x) ∨ e.Merges ctx P (mergedPrefix k ++ x)) :
    k < e.linker.nextOrdinal := by
  rcases hx with hown | ⟨n, t, b, hn, hname, -⟩
  · exact absurd (begins_mergedPrefix k x) hown.unmerged
  · obtain ⟨ordinal, _, hrecord⟩ := hl.record_of hn
    rw [hrecord.namePrefix] at hname
    rw [(mergedPrefix_append_inj hname).1]
    exact hrecord.ordinal_lt

/-- No method has the beginning of names that the next merge gets. -/
theorem Tidy.not_contains (ht : e.Tidy ctx) (x : String) :
    e.program.methods.contains (mergedPrefix e.linker.nextOrdinal ++ x) = false := by
  rw [← Bool.not_eq_true]
  exact fun hx => Nat.lt_irrefl _ (ordinal_lt_of_method ht.linked (ht.methods hx))

section

variable {m : Linkable} {aliases : List Renaming.Alias} {s : Linker.Merging} {e' : Emission}
  (hctx : ctx.Sound) (h : Emission.IsMerge ctx m aliases s e e') (hl : Emission.Linked ctx e')
  (hrecord : Emission.Record ctx e' m e.linker.nextOrdinal aliases s.names)

include hctx h hl hrecord

/-- The methods that a merge adds are of the machine or have the beginning of the module. -/
theorem merges_method (hx : e'.program.methods.contains x = true) :
    e.program.methods.contains x = true ∨ IsOwnMethodName x ∨
      e'.Merges ctx (Linkable.AddsMethod ctx.settings.includeEventHooks) x := by
  obtain ⟨heap, -, hmethods⟩ := h.outcome.methods
  rw [h.program, hmethods, MethodTable.contains_foldl_merge] at hx
  rcases hx with hold | ⟨c, hc, rfl⟩
  · exact Or.inl hold
  · refine Or.inr ?_
    have hcarries := h.carries hrecord.cached
    cases h.outcome.isChunk rfl hc with
    | hook hmethod hhook hname _ =>
      simp only [Bool.and_eq_true] at hhook
      rw [hname]
      exact Or.inl ((hctx.modules hrecord.cached).isOwnMethodName_hook
        (MethodTable.contains_of_mem hmethod) hhook.2)
    | @own method hmethod hhook hown _ hname _ _ =>
      refine Or.inr ⟨m, _, method.name, hcarries, ?_, .own ⟨?_, ?_, hhook⟩⟩
      · rw [hname, h.namePrefix]
        rfl
      · exact MethodTable.contains_of_mem hmethod
      · rintro ⟨start, n, b, hn, hb, hmethod⟩
        obtain ⟨u, hu⟩ := hrecord.carries_nested hctx.toSane hn
        obtain ⟨_, _, hrecord'⟩ := hl.record_of hu
        rw [show (Emission.naming ctx e.linker.nextOrdinal aliases).aliases = aliases from rfl,
          hb, hrecord.aliased?_eq hctx hn hu, hrecord'.methods_get? hmethod] at hown
        cases hown
    | copy hx hname _ _ =>
      refine Or.inr ⟨m, _, _, hcarries, ?_, .copy hx⟩
      rw [hname, h.namePrefix]
      rfl

/-- The labels that a merge adds have the beginning of the module that they stem from. -/
theorem merges_label {l : String} (hlabel : l ∈ e'.program.methods.placed) :
    l ∈ e.program.methods.placed ∨ e'.Merges ctx Linkable.OwnLabel l := by
  have hcarries := h.carries hrecord.cached
  have hmapped {x : String} {code : List Instruction} (hcode : ∀ i ∈ code,
      i ∈ m.program.methods.codeOf x) (hl' : l ∈ placedIn (code.map s.names.instruction)) :
      e'.Merges ctx Linkable.OwnLabel l := by
    obtain ⟨i, hi, heq⟩ := List.mem_map.mp (mem_placedIn.mp hl')
    obtain ⟨l', rfl, hrenamed⟩ := Renaming.instruction_eq_label heq
    have hplaced : m.HasLabel l' :=
      MethodTable.mem_placed.mpr ⟨x, mem_placedIn.mpr (hcode _ hi)⟩
    obtain ⟨y, hy, hstems⟩ := hcarries.labels_cases hctx hl hplaced
    rw [hrenamed, Renaming.label, hy]
    exact hstems.merges hcarries
  obtain ⟨heap, -, hmethods⟩ := h.outcome.methods
  rw [h.program, hmethods] at hlabel
  rcases List.mem_append.mp ((MethodTable.placed_foldl_merge _ _).subset hlabel) with hold | hnew
  · exact Or.inl hold
  · refine Or.inr ?_
    obtain ⟨c, hc, hlc⟩ := List.mem_flatMap.mp hnew
    cases h.outcome.isChunk rfl hc with
    | @hook method hmethod _ _ hcode =>
      rw [hcode, Linker.Merging.renamedCode, if_pos rfl, mem_placedIn] at hlc
      rcases List.mem_cons.mp hlc with hlc | hlc
      · cases hlc
      · rcases List.mem_append.mp hlc with hlc | hlc
        · refine hmapped (x := method.name) (fun i hi => ?_) (mem_placedIn.mpr hlc)
          rw [MethodTable.codeOf_of_mem hmethod]
          exact (Linker.stripHooks_sublist _ _ _).subset hi
        · rw [List.mem_singleton] at hlc
          cases hlc
    | @own method hmethod _ _ _ _ hcode _ =>
      rw [hcode] at hlc
      refine hmapped (x := method.name) (fun i hi => ?_) hlc
      rwa [MethodTable.codeOf_of_mem hmethod]
    | copy _ _ hcode _ =>
      rw [hcode] at hlc
      cases hlc

/-- What a merge adds to the heap. -/
theorem merges_variable (hv : e'.program.symbols.get? id = some v) :
    e.program.symbols.get? id = some v ∨
    (v.kind = .imported →
      e'.Merges ctx (Linkable.AddsVariable ctx.settings.includeEventHooks) v.name) ∧
    (v.kind = .eventParam → Begins "on" v.name) ∧
    (v.kind = .constant →
      e'.program.symbols.constants.get? (v.default.poolKey v.type) = some id ∧
      ∃ w, (∃ j, m.program.symbols.get? j = some w) ∧ w.kind = .constant ∧ v.type = w.type ∧
        v.default = s.names.value w.default) := by
  have hcarries := h.carries hrecord.cached
  have hsound := hctx.modules hrecord.cached
  have himported := h.outcome.adding.imported
  rw [h.program] at hv ⊢
  rcases himported.new hv with hold | ⟨hnone, himport⟩
  · exact Or.inl hold
  · refine Or.inr ?_
    have hpool := himported.pooled hv hnone
    cases himport with
    | @copied j w _ x hw hconstant hsystem hkind hname hx _ _ =>
      rw [hkind]
      refine ⟨fun _ => ⟨m, _, x, hcarries, ?_, ?_⟩, nofun, nofun⟩
      · rw [hname, Renaming.namePrefix_build, h.namePrefix]
        rfl
      · rcases hx with hcopies | hslot
        · obtain ⟨rfl, hshared, hsymbol⟩ := hcopies
          have hname' := Renaming.Naming.variableName?_of_kind_ne
            (n := Emission.naming ctx e.linker.nextOrdinal aliases) hconstant hsystem
          have hparam : (w.kind = .eventParam && ctx.settings.includeEventHooks) = false := by
            rw [← Bool.not_eq_true]
            intro hparam
            rw [Renaming.symbols_build hsound.proper _ hw, hname', if_pos (by exact hparam),
              Renaming.namePrefix_build] at hsymbol
            exact mergedPrefix_append_ne (Option.some.inj hsymbol).symm
          refine .own ⟨⟨j, w, hw, rfl, hconstant, hsystem, hparam⟩, ?_⟩
          rintro ⟨start, n, b, hn, hb, hvariable⟩
          obtain ⟨u, hu⟩ := hrecord.carries_nested hctx.toSane hn
          obtain ⟨y, hy⟩ := hu.exists_symbol hctx hl hvariable
          refine hshared (Renaming.mem_shared_build.mpr (Or.inr ⟨j, w, hw, rfl, y, ?_⟩))
          rw [hname', if_neg (by rw [Bool.not_eq_true]; exact hparam),
            show (Emission.naming ctx e.linker.nextOrdinal aliases).aliases = aliases from rfl,
            hb, hrecord.aliased?_eq hctx hn hu, hy]
        · exact .slot hslot
    | @constant j w _ hw hwkind hconstant =>
      refine ⟨fun himp => ?_, fun hparam => ?_, fun _ => ⟨hpool hconstant.kind, w, ⟨j, hw⟩, hwkind,
        hconstant.type, ?_⟩⟩
      · rw [hconstant.kind] at himp
        cases himp
      · rw [hconstant.kind] at hparam
        cases hparam
      · rw [hconstant.default, h.outcome.adding.value]
    | system which => exact ⟨nofun, nofun, nofun⟩
    | @eventParam j w hw hwkind =>
      have hstorage : Begins "on" w.name := hsound.storage hw hwkind
      exact ⟨nofun, fun _ => hstorage, nofun⟩

omit h in
/-- A constant of a module holds in the caller what it holds in the module, renamed. -/
theorem merges_constant (hcarries : e'.Carries ctx m s.names)
    {w : Variable} (hw : m.program.symbols.get? id = some w) (hkind : w.kind = .constant) :
    e'.Pooled ctx w.type (s.names.value w.default) := by
  have hsound := hctx.modules hrecord.cached
  have hvalue := hsound.constants hw hkind
  generalize w.type = type at hvalue ⊢
  generalize hdefault : w.default = value at hvalue ⊢
  cases hvalue with
  | plain hplain =>
    refine .plain ?_
    cases value with
    | label _ => cases hplain
    | method _ => cases hplain
    | _ => exact hplain
  | label hlabel =>
    obtain ⟨y, hy, hstems⟩ := hcarries.labels_cases hctx hl hlabel
    rw [Renaming.value, Renaming.label, hy]
    exact .merged (hstems.merges hcarries)
  | @method x hx hchain =>
    rcases hcarries.methods_cases hctx hl hx with ⟨hhook, -⟩ | ⟨y, hy, hstems⟩
    · -- Neither a method around an event nor one of a nested module is called by the machine.
      simp only [Bool.and_eq_true] at hhook
      have hunder := begins_of_isEventHook hhook.2
      rcases hchain with hchain | hlends
      · exact absurd hunder.1 (hchain.begins.not_begins (by decide) (by decide))
      · exact absurd ((by decide : Begins "__" "__m").trans (hsound.lends_begins hlends)) hunder.2
    · rw [Renaming.value, hy]
      refine .mergedMethod ?_
      cases hstems with
      | own hown hname =>
        refine ⟨m, _, x, hcarries, hname, hx, hchain.resolve_right ?_, id, w, hw, hkind, hdefault⟩
        rintro ⟨start, n, b, hn, hb, hdispatches⟩
        exact hown.own ⟨start, n, b, hn, hb, hdispatches.has⟩
      | @nested start n u b hn hu hname hown hy =>
        refine ⟨n, u, b, hu, hy, ?_⟩
        rcases hchain with hchain | ⟨start', n', b', hn', hb', hdispatches⟩
        · refine absurd (hsound.lends_begins ⟨start, n, b, hn, hname, hown.has⟩) ?_
          exact hchain.begins.not_begins (by decide) (by decide)
        · obtain ⟨-, rfl, rfl⟩ := hsound.split_unique hn hn' (hname.symm.trans hb')
          exact hdispatches

end

/-! ### Every step keeps a state tidy -/

/-- A step that leaves the linker alone keeps a state tidy if the methods, labels and variables that it
adds are those of a program. -/
theorem Tidy.of_own (ht : e.Tidy ctx) (h : Move ctx e e') (hsane : ctx.Sane) (hn : e.Named)
    (hlinker : e'.linker.merged = e.linker.merged)
    (hmethods : ∀ x, e'.program.methods.contains x = true →
      e.program.methods.contains x = true ∨ IsOwnMethodName x ∨
        e.Merges ctx (Linkable.AddsMethod ctx.settings.includeEventHooks) x)
    (hlabels : ∀ l ∈ e'.program.methods.placed,
      l ∈ e.program.methods.placed ∨ IsLabelName l)
    (hvars : ∀ id v, e'.program.symbols.get? id = some v →
      (∃ w, e.program.symbols.get? id = some w ∧ w.Same v) ∨
      v.kind ≠ .imported ∧ (v.kind = .eventParam → Begins "on" v.name) ∧
      (v.kind = .constant →
        e'.program.symbols.constants.get? (v.default.poolKey v.type) = some id ∧
        e'.Pooled ctx v.type v.default)) : e'.Tidy ctx := by
  have hgrows := h.grows hsane hn
  refine ht.of_step h hsane hn (ht.linked.grow hgrows hn.consistent hlinker)
    (fun x hx => (hmethods x hx).imp_right fun hnew => hnew.imp_right hgrows.merges)
    (fun l hl => (hlabels l hl).imp_right Or.inl) fun id v hv => ?_
  exact (hvars id v hv).imp_right fun hnew => ⟨fun hkind => absurd hkind hnew.1, hnew.2⟩

/-- The methods that a program calls are its own, or stem from modules that it has merged. -/
theorem Tidy.callable (ht : e.Tidy ctx) (hctx : ctx.Sound)
    (hx : ctx.IsTarget true x ∨ e.linker.Offers x) : IsOwnMethodName x ∨
      e.Merges ctx (Linkable.AddsMethod ctx.settings.includeEventHooks) x := by
  rcases hx with hx | hx
  · exact Or.inl (hx.isOwnMethodName hctx.catalogue)
  cases hx with
  | @entry key y t hmerged hy =>
    obtain ⟨m, _, _, rfl, hrecord⟩ := ht.linked.record hmerged
    have hcarries : e.Carries ctx m t := ⟨hrecord.cached, hmerged⟩
    have hhas := hrecord.hasMethod hy
    rcases hcarries.methods_cases hctx ht.linked hhas with
      ⟨hhook, hname⟩ | ⟨z, hname, hstems⟩
    · rw [hy] at hname
      cases hname
      simp only [Bool.and_eq_true] at hhook
      exact Or.inl ((hctx.modules hrecord.cached).isOwnMethodName_hook hhas hhook.2)
    · rw [hy] at hname
      cases hname
      exact Or.inr ((hstems.mono fun _ _ => .own).merges hcarries)
  | @copies key t c hmerged hc h =>
    obtain ⟨m, _, _, rfl, hrecord⟩ := ht.linked.record hmerged
    obtain ⟨k, hk⟩ := hrecord.copies c hc
    rw [hk] at h
    obtain ⟨y, hy, hname⟩ := Linker.isCopyName_copyMethods t k c.guid h
    exact Or.inr ⟨m, t, y, ⟨hrecord.cached, hmerged⟩, hname, .copy hy⟩

theorem Advance.tidy (h : Move ctx e e') (hctx : ctx.Sound) (hn : e.Named) (ht : e.Tidy ctx) :
    e'.Tidy ctx := by
  have hsane := hctx.toSane
  have hold : ∀ id v, e.program.symbols.get? id = some v →
      ∃ w, e.program.symbols.get? id = some w ∧ w.Same v :=
    fun id v hv => ⟨v, hv, rfl, rfl, rfl, rfl⟩
  have hstep := h
  cases h with
  | altered h =>
    cases h with
    | edited hedit =>
      refine ht.of_own hstep hsane hn rfl (fun _ => Or.inl) (fun _ => Or.inl) fun id v hv => ?_
      rcases hedit.made hn.consistent hv with ⟨w, hw, hsame, -⟩ | ⟨-, hmade⟩
      · exact Or.inl ⟨w, hw, hsame⟩
      · exact Or.inr ⟨hmade.kind_ne.1, hmade.begins_of_eventParam hsane.catalogue,
          fun hkind => absurd hkind hmade.kind_ne.2⟩
    | pooled type value hpools =>
      have hadds := SymbolTable.Adds.constant hn.consistent type value fun _ hv => hv
      refine ht.of_own hstep hsane hn rfl (fun _ => Or.inl) (fun _ => Or.inl) fun id v hv => ?_
      rcases hadds.new hv with hv | ⟨hnone, hconstant⟩
      · exact Or.inl (hold id v hv)
      · have hkind := hconstant.kind
        refine Or.inr ⟨by simp [hkind], fun hparam => ?_, fun _ => ⟨hadds.pooled hv hnone hkind, ?_⟩⟩
        · rw [hkind] at hparam
          cases hparam
        · rw [hconstant.type, hconstant.default]
          cases hpools _ rfl with
          | plain hplain => exact .plain hplain.1
          | label hl => exact .label hl
          | method hdispatches hx => exact .method hdispatches fun _ => hx
    | @emitted x code hmethod hcode hlabels =>
      refine ht.of_own hstep hsane hn rfl (fun y hy => ?_) (fun l hl => ?_)
        fun id v hv => Or.inl (hold id v hv)
      · rcases MethodTable.contains_update.mp hy with rfl | hy
        · exact Or.inr (Or.inl (hmethod.isOwnMethodName hsane.catalogue))
        · exact Or.inl hy
      · have hplaced := (MethodTable.placed_update (f := fun b => { b with code := b.code ++ code })
          fun _ => rfl).subset hl
        exact (List.mem_append.mp hplaced).imp_right fun hl => hlabels l hl rfl
    | touched x exported hcalls _ _ =>
      refine ht.of_own hstep hsane hn rfl (fun y hy => ?_) (fun l hl => Or.inl ?_)
        fun id v hv => Or.inl (hold id v hv)
      · rcases MethodTable.contains_update.mp hy with rfl | hy
        · exact Or.inr (ht.callable hctx (hcalls _ rfl))
        · exact Or.inl hy
      · have hplaced := (MethodTable.placed_update (f := fun b =>
          { b with exported := exported b.exported }) fun _ => (List.append_nil _).symm).subset hl
        rcases List.mem_append.mp hplaced with hl | hl
        · exact hl
        · cases hl
    | discarded event _ =>
      refine ht.of_own hstep hsane hn rfl (fun y hy => ?_) (fun l hl => ?_)
        fun id v hv => Or.inl (hold id v hv)
      · exact Or.inl (MethodTable.contains_remove.mp hy).2
      · exact Or.inl (MethodTable.placed_remove hl)
    | _ =>
      exact ht.of_own hstep hsane hn rfl (fun _ => Or.inl) (fun _ => Or.inl)
        fun id v hv => Or.inl (hold id v hv)
  | @merged m aliases hadmits hnew =>
    have hm := hsane.admits hadmits
    obtain ⟨-, haliases⟩ := hnew rfl
    have hgrows := hstep.grows hsane hn
    rcases hn.merge_cases hsane hm aliases with hsame | ⟨s, hmerge⟩
    · rw [hsame]
      exact ht
    · have hrecord := hmerge.record hm (haliases.imp fun _ _ ha => ⟨ha.1, hgrows.linker ha.2⟩)
        (fun _ => (hctx.modules hm).not_isCopyName) ht.not_contains
      have hlinked := hmerge.linked ht.linked hn.consistent hgrows hrecord
      refine ht.of_step hstep hsane hn hlinked
        (fun x hx => merges_method hctx hmerge hlinked hrecord hx)
        (fun l hl => (merges_label hctx hmerge hlinked hrecord hl).imp_right Or.inr)
        fun id v hv => ?_
      rcases merges_variable hctx hmerge hlinked hrecord hv with hv | ⟨himp, hstorage, hconstant⟩
      · exact Or.inl (hold id v hv)
      · refine Or.inr ⟨himp, hstorage, fun hkind => ?_⟩
        obtain ⟨hpool, w, ⟨j, hw⟩, hwkind, htype, hdefault⟩ := hconstant hkind
        refine ⟨hpool, ?_⟩
        rw [htype, hdefault]
        exact merges_constant hctx hlinked hrecord (hmerge.carries hm) hw hwkind

theorem tidy_start (ctx : Context) : (Emission.start ctx.source).Tidy ctx where
  linked := ⟨fun ht => (by cases ht), fun ht _ _ => (by cases ht)⟩
  methods hx := by cases hx
  labels hl := by cases hl
  imported hv := by cases hv
  storage hv := by cases hv
  pooled hv := by cases hv
  constants hv := by cases hv

/-- Every state that a compilation passes through is in order and tidy. -/
theorem Advances.tidy (h : Moves ctx (.start ctx.source) e) (hctx : ctx.Sound) :
    e.Orderly ∧ e.Tidy ctx :=
  h.keeps (P := fun e => e.Orderly ∧ e.Tidy ctx)
    (fun _ _ hstep he => ⟨hstep.orderly hctx.toSane he.1, hstep.tidy hctx he.1.toNamed he.2⟩)
    ⟨orderly_start ctx.source, tidy_start ctx⟩

/-- What every step from a tidy state keeps holds in every state that a compilation passes through. -/
theorem Advances.keeps_tidy {P : Emission → Prop} (h : Moves ctx (.start ctx.source) e) (hctx : ctx.Sound)
    (hstep : ∀ e e', Move ctx e e' → e.Named → e.Tidy ctx → P e → P e')
    (hstart : P (.start ctx.source)) : P e := by
  have hall : (e.Orderly ∧ e.Tidy ctx) ∧ P e :=
    h.keeps (P := fun e => (e.Orderly ∧ e.Tidy ctx) ∧ P e)
      (fun _ _ hmove ⟨⟨ho, ht⟩, he⟩ => ⟨⟨hmove.orderly hctx.toSane ho, hmove.tidy hctx ho.toNamed ht⟩,
        hstep _ _ hmove ho.toNamed ht he⟩)
      ⟨⟨orderly_start _, tidy_start ctx⟩, hstart⟩
  exact hall.2

end Emission

end TriggerCompiler
