import TriggerCompiler.Proofs.CalledModules
import TriggerCompiler.Proofs.DistinctNames
import TriggerCompiler.Proofs.FinishedCode

/-! The names in the assembly of a program. Every method has an identifier as its name. So has every
variable, and with them every operand, if the names that the compiler takes over unchecked are made of the
characters of identifiers: those of variables of blocks, of parameters of custom events, and of the types
of the parameters of modules. -/

namespace TriggerCompiler

open Text

/-! ### Variables -/

/-- The names of a source that become parts of names on the heap and are not checked. -/
def ProgramSource.uncheckedNames (s : ProgramSource) : List String :=
  (s.data.allActions.flatMap fun action => (action.inputs ++ action.multiInputs).filterMap fun slot =>
    match slot with
    | .declare _ name => some name
    | _ => none) ++
  (s.data.events.flatMap fun event =>
    match event.trigger with
    | .custom _ params => params.map ParamDecl.name
    | _ => []) ++
  s.interface?.toList.flatMap fun interface => interface.entries.flatMap fun entry =>
    entry.params.map fun p => p.type.machineName

/-- The names that the compiler does not check may stand in identifiers. -/
def ProgramSource.NamesWords (s : ProgramSource) : Prop := ∀ x ∈ s.uncheckedNames, isWord x = true

instance (s : ProgramSource) : Decidable s.NamesWords :=
  inferInstanceAs (Decidable (∀ x ∈ s.uncheckedNames, isWord x = true))

/-- A variable with an identifier as its name; the name of a constant's type may stand in one. -/
structure Variable.Legal (v : Variable) : Prop where
  name : isLegalIdentifier v.name = true
  type : v.kind = .constant → isWord v.type.machineName = true

/-- A heap with identifiers as names. -/
def SymbolTable.Legal (t : SymbolTable) : Prop := ∀ ⦃id v⦄, t.get? id = some v → v.Legal

/-- A module whose names may become names of a caller. -/
structure Linkable.Legal (m : Linkable) : Prop where
  heap : m.program.symbols.Legal
  types : ∀ entry ∈ m.interface.entries, ∀ p ∈ entry.params, isWord p.type.machineName = true

variable {ctx : Context} {m : Linkable} {v : Variable} {x : String} {settings : Settings}

theorem isLegalIdentifier_numbered {y : String} (hx : isLegalIdentifier x = true)
    (hy : isWord y = true) (n : Nat) : isLegalIdentifier (x ++ y ++ toString n) = true :=
  isLegalIdentifier_append (isLegalIdentifier_append hx hy) (isWord_toString_nat n)

theorem LiteralPosition.isLegalIdentifier_symbol (p : LiteralPosition) :
    isLegalIdentifier p.symbol = true := by
  have hstart := isLegalIdentifier_append (by decide : isLegalIdentifier "__refconst_e" = true)
    (isWord_toString_nat p.event)
  have hplace := isLegalIdentifier_numbered hstart (by decide : isWord "_a" = true) p.action
  rw [symbol]
  split
  · exact isLegalIdentifier_numbered (isLegalIdentifier_numbered hplace (by decide) _) (by decide) _
  · exact isLegalIdentifier_numbered hplace (by decide) _

theorem SystemVariable.isLegalIdentifier_name (which : SystemVariable) :
    isLegalIdentifier which.name = true := by cases which <;> decide

theorem isLegalIdentifier_mergedPrefix (k : Nat) : isLegalIdentifier (mergedPrefix k) = true :=
  isLegalIdentifier_append (isLegalIdentifier_append (by decide : isLegalIdentifier "__m" = true)
    (isWord_toString_nat k)) (by decide)

theorem Variable.IsConstant.legal {type : VarType} {value : Value}
    (h : v.IsConstant type value) (htype : isWord type.machineName = true) : v.Legal := by
  obtain ⟨n, hname⟩ := h.name
  refine ⟨?_, fun _ => h.type ▸ htype⟩
  rw [hname]
  exact isLegalIdentifier_numbered (isLegalIdentifier_append (by decide) htype) (by decide) n

/-- The variables that a program makes for itself. -/
theorem Variable.IsMade.legal {tracked : Bool} {l : Linker} {t : SymbolTable}
    (h : v.IsMade (ctx.tracking tracked l) t) (hcatalogue : ctx.catalogue = .builtin)
    (hsource : ctx.source.NamesWords) (ht : t.Legal) : v.Legal := by
  refine ⟨?_, fun hkind => absurd hkind h.kind_ne.2⟩
  cases h with
  | declared _ hlegal _ hname _ _ => exact hname ▸ isLegalIdentifier_of_isVariableName hlegal
  | literal _ _ hname => exact hname ▸ LiteralPosition.isLegalIdentifier_symbol _
  | system which _ hname _ => exact hname ▸ which.isLegalIdentifier_name
  | @blockLocal name n hlocal _ hname _ =>
    have hword : isWord name = true := by
      rcases hlocal with rfl | ⟨guid, action, haction, hslot⟩
      · decide
      · refine hsource _ (List.mem_append_left _ (List.mem_append_left _ ?_))
        exact List.mem_flatMap.mpr ⟨action, haction, List.mem_filterMap.mpr ⟨_, hslot, rfl⟩⟩
    rw [hname]
    exact isLegalIdentifier_numbered (isLegalIdentifier_append (by decide) hword) (by decide) n
  | temp _ hname _ => exact hname ▸ isLegalIdentifier_append (by decide) (isWord_toString_nat _)
  | @parameter name p hcustom hlegal _ _ hname _ =>
    obtain ⟨params, ⟨event, hevent, htrigger⟩, hp⟩ := hcustom
    have hword : isWord p.name = true := by
      refine hsource _ (List.mem_append_left _ (List.mem_append_right _ ?_))
      refine List.mem_flatMap.mpr ⟨event, hevent, ?_⟩
      rw [htrigger]
      exact List.mem_map_of_mem hp
    rw [hname]
    exact isLegalIdentifier_append (isLegalIdentifier_append
      (isLegalIdentifier_of_isVariableName hlegal) (by decide)) hword
  | eventParam hspec _ hname _ =>
    exact hname ▸ isLegalIdentifier_of_isVariableName (Context.isVariableName_of_params hcatalogue _ hspec)
  | counter _ hstart hname _ =>
    have hlegal : ∀ start ∈ ["__replay_", "__replayed_"], isLegalIdentifier start = true := by decide
    exact hname ▸ isLegalIdentifier_append (hlegal _ hstart) (isWord_toString_nat _)
  | shadow hw _ _ hname _ =>
    exact hname ▸ isLegalIdentifier_append (by decide) (isWord_of_isLegalIdentifier (ht hw).name)

/-- The variables that the merge of a module adds. -/
theorem Variable.IsImport.legal {names : Renaming}
    (h : IsImport m names v) (hstart : isLegalIdentifier names.namePrefix = true)
    (hm : m.program.symbols.Legal) : v.Legal := by
  cases h with
  | @copied id w _ x hw _ _ hkind hname hx _ _ =>
    have hbase : isWord w.name = true := isWord_of_isLegalIdentifier (hm hw).name
    have hword : isWord x = true := by
      rcases hx with hcopies | ⟨-, k, rfl⟩
      · exact hcopies.name ▸ hbase
      · exact isWord_append (isWord_append (isWord_append (by decide) (isWord_toString_nat k)) (by decide))
          hbase
    exact ⟨hname ▸ isLegalIdentifier_append hstart hword, fun hconstant => by simp [hkind] at hconstant⟩
  | constant hw hkind hv => exact hv.legal ((hm hw).type hkind)
  | system which => exact ⟨which.isLegalIdentifier_name, fun h => by cases which <;> cases h⟩
  | eventParam hw _ => exact ⟨(hm hw).name, nofun⟩

namespace Emission

variable {e e' : Emission}

theorem Advance.legal (h : Move ctx e e') (hsane : ctx.Sane) (hn : e.Named)
    (hsource : ctx.source.NamesWords)
    (hmodules : ∀ key m, ctx.modules.get? key = some m → m.Legal) (he : e.program.symbols.Legal) :
    e'.program.symbols.Legal := by
  intro id v hv
  rcases h.brings hsane hn hv with ⟨w, hw, hsame⟩ | hbrings
  · exact ⟨hsame.name ▸ (he hw).name, fun hkind => hsame.type ▸ (he hw).type (hsame.kind ▸ hkind)⟩
  · cases hbrings with
    | made hmade => exact hmade.legal hsane.catalogue hsource he
    | pooled hconstant hpools =>
      refine hconstant.legal ?_
      cases hpools with
      | plain hplain =>
        rcases hplain.2 with hword | ⟨key, m, hm, entry, hentry, p, hp, rfl⟩
        · exact hword
        · exact (hmodules key m hm).types entry hentry p hp
      | label _ => decide
      | method _ _ => decide
    | imported hm hstart himport =>
      exact himport.legal (hstart ▸ isLegalIdentifier_mergedPrefix _) (hmodules _ _ hm).heap

theorem Advances.legal (h : Moves ctx (.start ctx.source) e) (hctx : ctx.Sound)
    (hsource : ctx.source.NamesWords)
    (hmodules : ∀ key m, ctx.modules.get? key = some m → m.Legal) : e.program.symbols.Legal :=
  h.keeps_tidy (P := fun e => e.program.symbols.Legal) hctx
    (fun _ _ hmove hn _ he => hmove.legal hctx.toSane hn hsource hmodules he)
    fun _ _ hv => by cases hv

end Emission

theorem ModuleCache.CompiledFrom.legal {sources : List ProgramSource}
    {cache : ModuleCache} (h : cache.CompiledFrom settings sources)
    (hsources : ∀ s ∈ sources, s.NamesWords) {key : String}
    (hm : cache.get? key = some m) : m.Legal := by
  induction h generalizing key m with
  | empty => cases hm
  | @publish sources used all cache earlier source n _ hearlier hall _ hn _ ih ihearlier =>
    have hsource := hsources source ((hall source).mpr (Or.inl rfl))
    rw [get?_publish] at hm
    split at hm
    · cases hm
      have hctx := hearlier.sound source
      obtain ⟨e, he, -, hprogram, -, hinterface, -⟩ := Context.exists_of_linkable hctx.toSane hn
      refine ⟨hprogram ▸ he.moves.legal hctx hsource fun _ _ hget =>
        ihearlier (fun s hs => hsources s ((hall s).mpr (Or.inr (Or.inl hs)))) hget, fun entry hentry p hp => ?_⟩
      refine hsource _ (List.mem_append_right _ (List.mem_flatMap.mpr ⟨n.interface, ?_, ?_⟩))
      · exact Option.mem_toList.mpr hinterface
      · exact List.mem_flatMap.mpr ⟨entry, hentry, List.mem_map_of_mem hp⟩
    · exact ih (fun s hs => hsources s ((hall s).mpr (Or.inr (Or.inr hs)))) hm

/-! ### Methods -/

theorem IsCopyName.isWord (h : IsCopyName x) : isWord x = true := by
  obtain ⟨k, part, hpart, rfl⟩ := h
  have hword : ∀ part ∈ ["copy_in", "copy_out"], TriggerCompiler.isWord part = true := by decide
  exact isWord_append (isWord_append (by decide) (isWord_toString_nat k))
    (isWord_append (by decide) (hword part hpart))

theorem Context.Sound.isWord_of_addsMethod (hctx : ctx.Sound)
    (hm : ctx.modules.get? m.key = some m) (hx : m.AddsMethod ctx.settings.includeEventHooks x) :
    isWord x = true := by
  -- A method of a module that stems from a nested one has been added by the nested one, which is smaller.
  induction hsize : sizeOf m using Nat.strongRecOn generalizing m x with
  | ind size ih =>
    cases hx with
    | copy hcopy => exact hcopy.isWord
    | own hown =>
      have hsound := hctx.modules hm
      rcases hsound.methods hown.has with hname | ⟨start, n, b, hn, rfl, hadds⟩
      · exact isWord_of_isLegalIdentifier hname.legal
      · obtain ⟨k, hk⟩ := hsound.starts _ hn
        have hnests : m.Nests n := ⟨start, hn⟩
        have hb := ih _ (hsize ▸ Linkable.sizeOf_lt_of_nests hnests) (hctx.toSane.nested hm hnests) hadds rfl
        rw [show start = mergedPrefix k from hk]
        exact isWord_append (isWord_of_isLegalIdentifier (isLegalIdentifier_mergedPrefix k)) hb

theorem Emission.Tidy.isLegalIdentifier_method {e : Emission} (ht : e.Tidy ctx)
    (hctx : ctx.Sound) (hx : e.program.methods.contains x = true) :
    isLegalIdentifier x = true := by
  rcases ht.methods hx with hown | ⟨m, t, b, hm, rfl, hadds⟩
  · exact hown.legal
  · obtain ⟨k, _, hrecord⟩ := ht.linked.record_of hm
    rw [hrecord.namePrefix]
    exact isLegalIdentifier_append (isLegalIdentifier_mergedPrefix k)
      (hctx.isWord_of_addsMethod hm.cached hadds)

/-! ### Finished programs -/

/-- The variables of a finished program have identifiers as names if those of the program had. -/
theorem Program.Sane.isLegalIdentifier_finish {p q : Program} (hsane : p.Sane) (hp : p.symbols.Legal)
    {sync : SyncMethod} {report : FinishReport}
    (h : (finish sync settings).run p = (.ok report, q)) {id : VarId}
    (hv : q.symbols.get? id = some v) : isLegalIdentifier v.name = true := by
  obtain rfl := eq_fillIn_of_finish h
  rw [get?_fillIn] at hv
  obtain ⟨w, hw, rfl⟩ := Option.map_eq_some_iff.mp hv
  show isLegalIdentifier w.name = true
  rcases hsane.new_of_prepare hw with hw | ⟨which, rfl⟩
  · exact (hp hw).name
  · exact which.isLegalIdentifier_name

namespace Batch

variable {sources : List ProgramSource}

theorem IsContext.legal (h : IsContext settings sources ctx)
    (hsources : ∀ s ∈ sources, s.NamesWords) :
    ctx.source.NamesWords ∧ ∀ key m, ctx.modules.get? key = some m → m.Legal := by
  cases h with
  | intro hsource hused hcache =>
    exact ⟨hsources _ (of_get?_byKey hsource).1, fun _ _ hm =>
      hcache.legal (fun s hs => hsources s (of_get?_byKey (hused s hs)).1) hm⟩

/-- **Assembly names are identifiers.** In a program that a batch compiles without errors every method has
an identifier as its name. If the names that the compiler takes over unchecked from the sources of the batch
are made of the characters of identifiers, then so has every slot of the heap, and each operand of an
instruction is such a name. -/
theorem assembly_names_legal {available : Nat} {key : String} {compiled : CompiledProgram}
    (hreport : (compileBatch sources settings .builtin available).programs.get? key = some compiled)
    (hok : compiled.isSuccess = true) :
    ∃ q, compiled.finished = some q ∧ (∀ x ∈ q.methods.names, isLegalIdentifier x = true) ∧
      ((∀ s ∈ sources, s.NamesWords) →
        (∀ entry ∈ compiled.heapDefaults, isLegalIdentifier entry.name = true) ∧
        ∀ i ∈ q.code, ∀ x, i.symbol? = some x → isLegalIdentifier x = true) := by
  obtain ⟨ctx, hctx, rfl, rfl⟩ := exists_context hreport hok
  have hsound := hctx.sound
  obtain ⟨e, report, q, he, hfinish, -, hcompiled⟩ := Context.exists_of_isSuccess hsound.toSane hok
  obtain ⟨_, _, q', _, -, -, hencoded, hcompiled'⟩ := Context.exists_artifact hok
  have hsame : q = q' :=
    Option.some.inj (congrArg CompiledProgram.finished (hcompiled.symm.trans hcompiled'))
  subst hsame
  rw [hcompiled]
  refine ⟨q, rfl, fun x hx => ?_, fun hnames => ?_⟩
  · rw [Program.names_of_finish hfinish] at hx
    rcases List.mem_append.mp hx with hx | hx
    · exact (he.moves.tidy hsound).2.isLegalIdentifier_method hsound (MethodTable.mem_names.mp hx)
    · split at hx
      · rw [List.mem_singleton.mp hx]
        decide
      · cases hx
  · obtain ⟨hsource, hmodules⟩ := hctx.legal hnames
    have hheap := he.moves.legal hsound hsource hmodules
    have hslot {id : VarId} {v : Variable} (hv : q.symbols.get? id = some v) :=
      Program.Sane.isLegalIdentifier_finish ⟨he.orderly.consistent, he.orderly.proper⟩ hheap hfinish hv
    refine ⟨fun entry hentry => ?_, fun i hi x hx => ?_⟩
    · obtain ⟨id, v, hv, rfl⟩ := mem_heap_ofProgram.mp hentry
      exact hslot hv
    · obtain ⟨k, hk⟩ := Image.exists_heapIndex? hencoded hi hx
      obtain ⟨id, v, hv, rfl⟩ := Program.heapIndex?_eq_some hk
      exact hslot (OrderedMap.get?_eq_some_iff.mpr (List.mem_of_getElem? hv))

/-- A program that adds two numbers into a variable of a block with the given name. -/
def localSum (name : String) : ProgramSource where
  key := "p"
  data := { events := [{ trigger := .builtin "Start" [], actions := [.primitive "add_int"
    [.constant (.int 1), .constant (.int 2), .declare (sampleGuid 1) name]] }] }

theorem report_localSum (name : String) :
    (compileBatch [localSum name] {} .builtin).programs.get? "p" =
      some (compileProgram (localSum name) .builtin .empty {}).compiled := by
  have horder : InOrder [localSum name] [localSum name] := by
    refine ⟨fun _ h => h, List.nodup_singleton _, fun before s after horder d hd _ => ?_⟩
    have hs : s = localSum name := List.mem_singleton.mp (horder ▸ List.mem_append_right _ List.mem_cons_self)
    subst hs
    rcases (mem_dependencies.mp hd).1 with hlisted | hcalled
    · exact absurd hlisted List.not_mem_nil
    · cases hcalled
  have hkeys : ([localSum name].map ProgramSource.key).Nodup := List.nodup_singleton _
  have houtcome : (compileInOrder .builtin {} .empty [localSum name]).1[0]? =
      some (compileProgram (localSum name) .builtin .empty {}) := rfl
  exact report_of_inOrder hkeys horder (s := localSum name) rfl houtcome none 1

/-- The slot of the variable is an identifier. -/
theorem assembly_names_legal_localSum :
    let compiled := (compileProgram (localSum "sum") .builtin .empty {}).compiled
    "__lcl_sum_0" ∈ compiled.heapDefaults.map HeapEntry.name ∧
      ∀ entry ∈ compiled.heapDefaults, isLegalIdentifier entry.name = true := by
  have hwords : ∀ s ∈ [localSum "sum"], s.NamesWords := by decide
  obtain ⟨_, -, -, hlegal⟩ := assembly_names_legal (report_localSum "sum") (by decide +kernel)
  exact ⟨by decide +kernel, (hlegal hwords).1⟩

/-- If the name of a variable of a block has a line break, the program compiles and its slot has it too. -/
theorem localSum_illegal :
    ∃ compiled, (compileBatch [localSum "a b\n"] {} .builtin).programs.get? "p" = some compiled ∧
      compiled.isSuccess = true ∧ "__lcl_a b\n_0" ∈ compiled.heapDefaults.map HeapEntry.name ∧
      isLegalIdentifier "__lcl_a b\n_0" = false :=
  ⟨_, report_localSum _, by decide +kernel, by decide +kernel, by decide⟩

end Batch

end TriggerCompiler
