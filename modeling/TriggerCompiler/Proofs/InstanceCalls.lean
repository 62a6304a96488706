import Mathlib.Data.List.Chain
import TriggerCompiler.Proofs.InstanceStorage

/-! The calls of a module on its instances, one after another. The variable in which a watched variable's
previous value is kept is not copied before and after a call as the watched variable itself is: all
instances share it, and every call finds there what the last call has left, on whichever instance it was:
the value that the watched variable had at the last check, be it in a call on another instance. -/

namespace TriggerCompiler

open ControlFlow Linker Text

variable {V : Type}

/-- Whether code without actions runs from one heap to another. The marks behind synced variables do
nothing. -/
def ControlFlow.RunsTo (M : Interpretation V) (code : List Instruction) (heap final : Heap V) : Prop :=
  let items := (code.filter (· ≠ .sentinel)).map Item.instruction
  ∃ n, Runs M items n ⟨items, [], heap⟩ [] final

/-- Whether code copies variables and leaves one alone. -/
def ControlFlow.CopiesBeside (u : String) (code : List Instruction) : Prop :=
  ∃ pairs, code.filter (· ≠ .sentinel) = copyCode pairs ∧ u ∉ pairs.map Prod.snd

theorem ControlFlow.CopiesBeside.exists_runsTo {u : String} {code : List Instruction}
    (h : CopiesBeside u code) (M : Interpretation V) (heap : Heap V) :
    ∃ final, RunsTo M code heap final ∧ final u = heap u := by
  obtain ⟨pairs, hcode, hu⟩ := h
  obtain ⟨n, final, hruns, hsame, -⟩ := exists_runs_copyCode M
    ((copyCode pairs).map Item.instruction) pairs heap
  exact ⟨final, ⟨n, by rw [hcode]; exact hruns⟩, hsame u hu⟩

theorem ControlFlow.CopiesBeside.unchanged {M : Interpretation V} {u : String} {code : List Instruction}
    (h : CopiesBeside u code) {heap final : Heap V} (hruns : RunsTo M code heap final) :
    final u = heap u := by
  obtain ⟨final', ⟨_, hruns'⟩, hsame⟩ := h.exists_runsTo M heap
  obtain ⟨_, hruns⟩ := hruns
  obtain ⟨-, rfl⟩ := hruns.unique hruns'
  exact hsame

/-- A call of a module on an instance: the heap before it, the heap that the code of the module finds, the
one that it leaves, and the heap behind the call. -/
structure InstanceCall (V : Type) where
  number : Nat
  before : Heap V
  found : Heap V
  left : Heap V
  after : Heap V

namespace InstanceCall

variable {M : Interpretation V} {t : Renaming} {program : Program} {u : String}

/-- Whether the methods of the instance have run in front of and behind the code of the module. -/
def Surrounds (M : Interpretation V) (t : Renaming) (program : Program) (c : InstanceCall V) : Prop :=
  ∃ copies, t.instances[c.number]? = some copies ∧
    RunsTo M (program.methods.codeOf copies.copyIn) c.before c.found ∧
    RunsTo M (program.methods.codeOf copies.copyOut) c.left c.after

/-- Whether calls of a module follow each other, with nothing between them that writes a variable. -/
structure History (M : Interpretation V) (t : Renaming) (program : Program) (u : String)
    (calls : List (InstanceCall V)) : Prop where
  surrounds : ∀ c ∈ calls, c.Surrounds M t program
  between : calls.IsChain fun c d => d.before u = c.after u

/-- Whether the methods of every instance leave a variable alone. -/
def CopiesBeside (t : Renaming) (program : Program) (u : String) : Prop :=
  ∀ copies ∈ t.instances, ControlFlow.CopiesBeside u (program.methods.codeOf copies.copyIn) ∧
    ControlFlow.CopiesBeside u (program.methods.codeOf copies.copyOut)

/-- What a call finds in a variable that is not copied is what the call before has left. -/
theorem History.found_eq_left (h : CopiesBeside t program u) {calls : List (InstanceCall V)}
    (hcalls : History M t program u calls) : calls.IsChain fun c d => d.found u = c.left u := by
  refine hcalls.between.imp_of_mem_imp fun c d hc hd hbetween => ?_
  obtain ⟨_, hk, -, hout⟩ := hcalls.surrounds c hc
  obtain ⟨_, hk', hin, -⟩ := hcalls.surrounds d hd
  rw [(h _ (List.mem_of_getElem? hk')).1.unchanged hin, hbetween,
    (h _ (List.mem_of_getElem? hk)).2.unchanged hout]

/-- Whether only the checks of a call write a variable: it holds the last of the values that they have
compared, or what was there if there is none. -/
def LeavesChecked (u : String) (checked : InstanceCall V → List V) (c : InstanceCall V) : Prop :=
  c.left u = (checked c).getLast?.getD (c.found u)

/-- If only checks write a variable that is not copied, a call finds there the value of the last check of
all the calls before it. -/
theorem found_eq_lastChecked {checked : InstanceCall V → List V} {first d : InstanceCall V}
    {earlier later : List (InstanceCall V)}
    (h : (first :: (earlier ++ d :: later)).IsChain fun c d => d.found u = c.left u)
    (hchecked : ∀ c ∈ first :: earlier, LeavesChecked u checked c) :
    d.found u = ((first :: earlier).flatMap checked).getLast?.getD (first.found u) := by
  have hfirst : first.left u = _ := hchecked first List.mem_cons_self
  induction earlier generalizing first with
  | nil =>
    rw [(List.isChain_cons_cons.mp h).1, hfirst, List.flatMap_singleton]
  | cons c rest ih =>
    obtain ⟨hlink, hrest⟩ := List.isChain_cons_cons.mp h
    have hlater := fun k hk => hchecked k (List.mem_cons_of_mem _ hk)
    rw [ih hrest hlater (hlater c List.mem_cons_self), hlink, hfirst, @List.flatMap_cons _ _ first,
      List.getLast?_append, Option.getD_or]

/-- A call may leave any value in a variable. -/
theorem exists_surrounds (h : CopiesBeside t program u) (M : Interpretation V) {k : Nat}
    (hk : k < t.instances.length) (before : Heap V) (value : V) : ∃ c : InstanceCall V,
      c.Surrounds M t program ∧ c.number = k ∧ c.before = before ∧ c.left u = value := by
  have hget := List.getElem?_eq_getElem hk
  obtain ⟨hload, hstore⟩ := h _ (List.mem_of_getElem? hget)
  obtain ⟨found, hfound, -⟩ := hload.exists_runsTo M before
  obtain ⟨after, hafter, -⟩ := hstore.exists_runsTo M (Function.update found u value)
  exact ⟨⟨k, before, found, _, after⟩, ⟨_, hget, hfound, hafter⟩, rfl, rfl, Function.update_self ..⟩

/-- With two instances, what a call finds in a variable that is not copied need not be what the last call
on the same instance has left. -/
theorem exists_found_ne_left (h : CopiesBeside t program u) (hlength : 1 < t.instances.length)
    (M : Interpretation Bool) : ∃ c b d : InstanceCall Bool, History M t program u [c, b, d] ∧
      d.number = c.number ∧ b.number ≠ c.number ∧ d.found u ≠ c.left u := by
  have hfirst := Nat.lt_of_succ_lt hlength
  obtain ⟨c, hc, hcnumber, -, hcleft⟩ := exists_surrounds h M hfirst (fun _ => false) true
  obtain ⟨b, hb, hbnumber, hbbefore, hbleft⟩ := exists_surrounds h M hlength c.after false
  obtain ⟨d, hd, hdnumber, hdbefore, -⟩ := exists_surrounds h M hfirst b.after false
  have hcalls : History M t program u [c, b, d] :=
    ⟨by simp [hc, hb, hd], by simp [hbbefore, hdbefore]⟩
  have hfound := (List.isChain_cons_cons.mp (hcalls.found_eq_left h)).2
  rw [List.isChain_pair, hbleft] at hfound
  exact ⟨c, b, d, hcalls, by rw [hdnumber, hcnumber], by simp [hbnumber, hcnumber],
    by simp [hfound, hcleft]⟩

end InstanceCall

open InstanceCall

section

variable {settings : Settings} {cache : ModuleCache} (hcache : cache.Compiled settings)
  {source : ProgramSource} {point : Point} {e : Emission}
  (he : Context.Reaches { source, catalogue := .builtin, modules := cache, settings } point e)
  {m : Linkable} (hm : cache.get? m.key = some m) (hnew : e.linker.merged.get? m.key = none)
  {t : Renaming} {s : Linkage}
  (hmerge : (Linker.merge settings.includeEventHooks m).run e.linkage = (.ok t, s))
  {x : String} (hshadow : m.HasVariable ("__prev_" ++ x))
include hcache he hm hnew hmerge hshadow

/-- The variable for the previous value of a variable is no variable of an author, so it is not copied. -/
theorem exists_copiesBeside : ∃ previous, t.symbols.get? ("__prev_" ++ x) = some previous ∧
    InstanceCall.CopiesBeside t s.program previous := by
  have hctx := hcache.sound source
  obtain ⟨hbefore, -⟩ := he.moves hctx.toSane
  obtain ⟨ho, ht⟩ := (hbefore.trans (Emission.moves_merge hctx.toSane hm hmerge)).tidy hctx
  have hmerged := Linker.get?_merge (congrArg Prod.fst hmerge)
  rw [hmerge] at hmerged
  obtain ⟨previous, hprevious⟩ := Emission.Carries.exists_symbol hctx ht.linked ⟨hm, hmerged⟩ hshadow
  obtain ⟨_, _, -, -, -, hout, hnames, hcode⟩ :=
    Emission.exists_outcome_of_merge hctx hbefore hm hnew hmerge
  have hproper := (hctx.heap hm).proper
  have hnot : ∀ x' ∈ duplicated m t, t.namePrefix ++ x' ≠ previous := by
    rintro x' hx' rfl
    obtain ⟨rfl, -⟩ := hnames x' _ hprevious
    obtain ⟨vars, hvars, hsub, hkinds⟩ := Merging.exists_duplicated m t
    rw [hvars] at hx'
    obtain ⟨v, hv, hname⟩ := List.mem_map.mp hx'
    obtain ⟨id, hid⟩ := SymbolTable.mem_variables.mp (hsub.subset hv)
    have hkind : v.kind = .internal := (hproper.fits hid).eq_of_begins
      (show "__prev_" ∈ VariableKind.internal.starts by decide) (hname ▸ begins_append _ _)
    rcases (hkinds v hv).1 with h | h
    · cases hkind.symm.trans h
    · cases hkind.symm.trans h
  refine ⟨previous, hprevious, fun copies hcopies => ?_⟩
  obtain ⟨k, hk⟩ := List.mem_iff_getElem?.mp hcopies
  obtain ⟨hload, hstore⟩ := hout.filter_codeOf_copies hproper rfl
    (fun _ => (hctx.modules hm).not_isCopyName) hcode hk
  refine ⟨⟨_, hload, fun hmem => ?_⟩, _, hstore, fun hmem => ?_⟩
  · rw [List.map_map] at hmem
    obtain ⟨x', hx', heq⟩ := List.mem_map.mp hmem
    exact hnot x' hx' heq
  · rw [List.map_map] at hmem
    obtain ⟨x', hx', rfl⟩ := List.mem_map.mp hmem
    rw [Function.comp_apply, Merging.instanceSlot_eq] at hprevious
    have hstart : Begins "i" (Merging.instanceName k x') := by
      rw [Merging.instanceName, String.append_assoc, String.append_assoc]
      exact begins_append _ _
    rw [← (hnames _ _ hprevious).1] at hstart
    exact hstart.not_begins (by decide) (by decide) (begins_append "__prev_" x)

/-- Merging a compiled module at any point of a compilation gives all instances one variable for the
previous value of a watched variable: in every sequence of calls on any instances, what a call finds there
is what the last call has left there. So if only checks write the variable, a call finds there the value
that the watched variable had at the last check of all the calls before it. -/
theorem previous_value_shared :
    (∃ id v shadow, m.program.symbols.get? id = some v ∧ v.name = x ∧ v.previous = some shadow ∧
      m.program.symbols.nameOf shadow = "__prev_" ++ x) ∧
    ∃ previous, t.symbols.get? ("__prev_" ++ x) = some previous ∧
      ∀ (V : Type) (M : Interpretation V) (calls : List (InstanceCall V)),
        History M t s.program previous calls →
          (calls.IsChain fun c d => d.found previous = c.left previous) ∧
          ∀ checked : InstanceCall V → List V, (∀ c ∈ calls, LeavesChecked previous checked c) →
            ∀ first earlier d later, calls = first :: (earlier ++ d :: later) →
              d.found previous =
                ((first :: earlier).flatMap checked).getLast?.getD (first.found previous) := by
  obtain ⟨previous, hprevious, hbeside⟩ :=
    exists_copiesBeside hcache he hm hnew hmerge hshadow
  obtain ⟨id, p, hp, hname⟩ := hshadow
  obtain ⟨j, v, hv, hvname, hlink⟩ := ((hcache.sound source).heap hm).proper.shadow hp hname
  refine ⟨⟨j, v, id, hv, hvname, hlink, by rw [SymbolTable.nameOf, hp]; exact hname⟩,
    previous, hprevious, fun V M calls hcalls => ?_⟩
  have hchain := hcalls.found_eq_left hbeside
  refine ⟨hchain, fun checked hchecked first earlier d later heq => ?_⟩
  subst heq
  exact found_eq_lastChecked hchain fun c hc => hchecked c
    (((List.sublist_append_left earlier _).cons_cons first).subset hc)

end

/-- A module with instances that watches a variable and sets it. -/
def sampleWatch : ProgramSource where
  key := "store"
  data :=
    { vars := [{ guid := sampleGuid 1, name := "x", type := .int, onChange := true }]
      events := [{ trigger := .custom "run" []
                   actions := [{ action := .primitive "assign"
                                 inputs := [.constant (.int 5), .reference (.guid (sampleGuid 1))] }] },
        { trigger := .changed (sampleGuid 1) }] }
  interface? := some { entries := [.ofCustomEvent "run" "run" []], multiInstance := true }

def sampleWatchCache : ModuleCache := (compileInOrder .builtin {} .empty [sampleWatch]).2

def sampleWatchModule : Linkable := (sampleWatchCache.get? "store").getD default

theorem compiled_sampleWatchCache : sampleWatchCache.Compiled {} := by
  rw [sampleWatchCache]
  exact ModuleCache.compiled_empty.compileInOrder (by decide) fun _ _ => rfl

theorem get?_sampleWatchCache : sampleWatchCache.get? sampleWatchModule.key = some sampleWatchModule := by
  have hkey : sampleWatchModule.key = "store" := by decide +kernel
  have hsome : (sampleWatchCache.get? "store").isSome = true := by decide +kernel
  rw [hkey, ← Option.some_get hsome, sampleWatchModule, Option.get_eq_getD]

theorem hasVariable_sampleWatchModule : sampleWatchModule.HasVariable ("__prev_" ++ "x") := by
  have hshadow : "__prev_" ++ "x" ∈ sampleWatchModule.program.symbols.toList.map (·.2.name) := by
    decide +kernel
  obtain ⟨⟨id, v⟩, hv, hname⟩ := List.mem_map.mp hshadow
  exact ⟨id, v, OrderedMap.get?_eq_some_iff.mpr hv, hname⟩

/-- A program that uses two instances of the module. -/
theorem exists_merge_sampleWatch :
    ∃ t s, (Linker.merge true sampleWatchModule).run
        (sampleCallerState [sampleGuid 3, sampleGuid 4]).linkage = (.ok t, s) ∧
      t.instances.length = 2 := by
  obtain ⟨t, s, hrun, -, hlength, -⟩ := exists_merge_of_eval sampleWatchModule
    (sampleCallerState [sampleGuid 3, sampleGuid 4]).linkage ["x"] 2 (by decide +kernel)
    (by decide +kernel)
  exact ⟨t, s, hrun, hlength⟩

theorem previous_value_shared_sampleWatch :
    ∃ t s, (Linker.merge true sampleWatchModule).run
        (sampleCallerState [sampleGuid 3, sampleGuid 4]).linkage = (.ok t, s) ∧
      ∃ previous, t.symbols.get? "__prev_x" = some previous ∧
        ∀ (V : Type) (M : Interpretation V) (calls : List (InstanceCall V)),
          History M t s.program previous calls →
            (calls.IsChain fun c d => d.found previous = c.left previous) ∧
            ∀ checked : InstanceCall V → List V, (∀ c ∈ calls, LeavesChecked previous checked c) →
              ∀ first earlier d later, calls = first :: (earlier ++ d :: later) →
                d.found previous =
                  ((first :: earlier).flatMap checked).getLast?.getD (first.found previous) := by
  obtain ⟨t, s, hmerge, -⟩ := exists_merge_sampleWatch
  obtain ⟨-, previous, hprevious, hcalls⟩ := previous_value_shared compiled_sampleWatchCache .start
    get?_sampleWatchCache (by decide +kernel) hmerge hasVariable_sampleWatchModule
  exact ⟨t, s, hmerge, previous, hprevious, hcalls⟩

/-- Two instances get in each other's way: the second call on the first instance finds the previous value
of the call on the second instance, and not that of the first call. -/
theorem sampleWatch_previous_not_separate :
    ∃ t s, (Linker.merge true sampleWatchModule).run
        (sampleCallerState [sampleGuid 3, sampleGuid 4]).linkage = (.ok t, s) ∧
      ∃ previous, t.symbols.get? "__prev_x" = some previous ∧
        ∀ M, ∃ c b d : InstanceCall Bool, History M t s.program previous [c, b, d] ∧
          d.number = c.number ∧ b.number ≠ c.number ∧ d.found previous ≠ c.left previous := by
  obtain ⟨t, s, hmerge, hlength⟩ := exists_merge_sampleWatch
  obtain ⟨previous, hprevious, hbeside⟩ := exists_copiesBeside compiled_sampleWatchCache .start
    get?_sampleWatchCache (by decide +kernel) hmerge hasVariable_sampleWatchModule
  exact ⟨t, s, hmerge, previous, hprevious, exists_found_ne_left hbeside (by rw [hlength]; decide)⟩

end TriggerCompiler
