import TriggerCompiler.Proofs.InstanceStorage

/-! The operands of merged code. A program whose code names only variables that are on its heap still does
so when a module has been merged into it, with the modules nested in it and with any instances. The one
exception is a module that has a variable with the name of a nested module's method: the merge takes the
variable for one of the nested module and leaves it out. -/

open Relation

namespace TriggerCompiler

open Text

/-- Whether all variables that the code of a program names are on its heap. -/
def Program.Closed (p : Program) : Prop :=
  ∀ x, ∀ i ∈ p.methods.codeOf x, ∀ s, i.symbol? = some s → p.symbols.names.contains s = true

/-- Whether a variable with the name of a nested module's method is always one of the nested module. -/
def Linkable.Distinguishes (m : Linkable) : Prop :=
  ∀ x, m.Lends HasMethod x → m.HasVariable x → m.Lends HasVariable x

namespace Emission

variable {ctx : Context} {e e' : Emission} {m n : Linkable} {t u : Renaming} {x y start b : String}

section

variable (hctx : ctx.Sound) (hl : Linked ctx e) (ht : e.Carries ctx m t)
include hctx hl ht

/-- A name that is shared with a nested module is a name of the nested module. -/
theorem Carries.lends_of_mem_shared (hx : x ∈ t.shared) :
    m.Lends Linkable.HasMethod x ∨ m.Lends Linkable.HasVariable x := by
  obtain ⟨ordinal, aliases, hrecord⟩ := hl.record_of ht
  rw [hrecord.shared, Renaming.mem_shared_build] at hx
  rcases hx with ⟨-, htrue⟩ | ⟨_, v, -, rfl, y, hy⟩
  · cases haliased : Renaming.aliased? aliases Renaming.methods x with
    | none =>
      rw [Renaming.Naming.method, show (naming ctx ordinal aliases).aliases = aliases from rfl,
        haliased] at htrue
      split at htrue
      · cases htrue
      · cases htrue
    | some y =>
      obtain ⟨start, n, u, b, hn, hu, rfl, hb⟩ := hrecord.exists_of_aliased? hctx.toSane haliased
      obtain ⟨_, _, hrecord'⟩ := hl.record_of hu
      exact Or.inl ⟨start, n, b, hn, rfl, hrecord'.hasMethod hb⟩
  · cases haliased : Renaming.aliased? aliases Renaming.symbols v.name with
    | none =>
      rw [Renaming.Naming.variableName?, show (naming ctx ordinal aliases).aliases = aliases from rfl,
        haliased] at hy
      split at hy
      · cases hy
      · cases hy
      · split at hy
        · cases hy
        · cases hy
    | some y =>
      obtain ⟨start, n, u, b, hn, hu, hname, hb⟩ := hrecord.exists_of_aliased? hctx.toSane haliased
      obtain ⟨_, _, hrecord'⟩ := hl.record_of hu
      exact Or.inr ⟨start, n, b, hn, hname, hrecord'.known hb⟩

/-- A variable of a nested module has the name that the nested module's own variable has. -/
theorem Carries.symbols_lent (hn : (start, n) ∈ m.nested) (hu : e.Carries ctx n u)
    (hx : m.HasVariable (start ++ b)) (hb : n.HasVariable b) :
    t.symbols.get? (start ++ b) = u.symbols.get? b := by
  obtain ⟨ordinal, aliases, hrecord⟩ := hl.record_of ht
  have hsound := hctx.modules ht.cached
  have hbegins := hsound.lends_begins ⟨start, n, b, hn, rfl, hb⟩
  obtain ⟨id, v, hv, hname⟩ := hx
  have hkind : v.kind = .imported :=
    (hsound.proper.fits hv).eq_of_begins (List.mem_singleton_self _) (hname ▸ hbegins)
  obtain ⟨y, hy⟩ := hu.exists_symbol hctx hl hb
  rw [← hname, hrecord.symbols hv (by simp [hkind]),
    Renaming.Naming.variableName?_of_kind_ne (by simp [hkind]) (by simp [hkind]), if_neg (by simp [hkind]),
    hname, show (naming ctx ordinal aliases).aliases = aliases from rfl, hrecord.aliased?_eq hctx hn hu, hy]
  rfl

end

/-- The caller has a variable for each variable of a merged module, if the modules tell their variables
from the methods of nested modules. -/
theorem Carries.declared (hctx : ctx.Sound) (hl : Linked ctx e) (ht : e.Carries ctx m t)
    (hparts : ∀ n, m.Part n → n.Distinguishes) (hy : t.symbols.get? x = some y) :
    e.program.symbols.names.contains y = true := by
  -- A variable that is shared stems from a nested module, which is smaller.
  induction hsize : sizeOf m using Nat.strongRecOn generalizing m t x with
  | ind size ih =>
    obtain ⟨ordinal, aliases, hrecord⟩ := hl.record_of ht
    have hx := hrecord.known hy
    by_cases hshared : x ∈ t.shared
    · have hlends : m.Lends Linkable.HasVariable x :=
        (ht.lends_of_mem_shared hctx hl hshared).elim (hparts m .refl x · hx) id
      obtain ⟨start, n, b, hn, rfl, hb⟩ := hlends
      obtain ⟨u, hu⟩ := hrecord.carries_nested hctx.toSane hn
      rw [ht.symbols_lent hctx hl hn hu hx hb] at hy
      exact ih _ (hsize ▸ Linkable.sizeOf_lt_of_nests ⟨start, hn⟩) hu
        (fun k hk => hparts k (hk.head ⟨start, hn⟩)) hy rfl
    · obtain ⟨id, v, hv, rfl⟩ := hx
      obtain ⟨y', hy', hcontains⟩ := (hrecord.has hv hshared).named
      rw [hy] at hy'
      cases hy'
      exact hcontains

/-- An instruction of a method that the merge adds is the image of one of the module, or no operand. -/
theorem exists_of_mem_renamedCode {method : Method} {isHook : Bool} {i : Instruction} {s : String}
    (hi : i ∈ Linker.Merging.renamedCode m t method isHook) (hs : i.symbol? = some s) :
    ∃ j ∈ method.code, i = t.instruction j := by
  rw [Linker.Merging.renamedCode] at hi
  split at hi
  · rcases List.mem_cons.mp hi with rfl | hi
    · cases hs
    · rcases List.mem_append.mp hi with hi | hi
      · obtain ⟨j, hj, rfl⟩ := List.mem_map.mp hi
        exact ⟨j, (Linker.stripHooks_sublist _ _ _).subset hj, rfl⟩
      · rw [List.mem_singleton] at hi
        subst hi
        cases hs
  · obtain ⟨j, hj, rfl⟩ := List.mem_map.mp hi
    exact ⟨j, hj, rfl⟩

/-- The code that a merge adds names variables that the caller has. -/
theorem IsMerge.closed {aliases : List Renaming.Alias} {s : Linker.Merging} (hctx : ctx.Sound)
    (hl : Linked ctx e') (h : IsMerge ctx m aliases s e e') (hm : ctx.modules.get? m.key = some m)
    (hparts : ∀ n, m.Part n → n.Distinguishes)
    (hext : e.program.symbols.Extends e'.program.symbols) (he : e.program.Closed) :
    e'.program.Closed := by
  have ht := h.carries hm
  obtain ⟨heap, -, hmethods⟩ := h.outcome.methods
  intro x i hi z hz
  rw [h.program, hmethods, MethodTable.codeOf_foldl_merge, List.mem_append] at hi
  rcases hi with hi | hi
  · exact hext.names (he x i hi z hz)
  · obtain ⟨chunk, hchunk, hi⟩ := List.mem_flatMap.mp hi
    rcases List.mem_append.mp (List.mem_filter.mp hchunk).1 with hmethod | hinstance
    · obtain ⟨method, hmem, hchunk⟩ := List.mem_filterMap.mp hmethod
      obtain ⟨name, -, rfl⟩ := Option.map_eq_some_iff.mp hchunk
      have hmem := (List.mem_filter.mp hmem).1
      obtain ⟨j, hj, rfl⟩ := exists_of_mem_renamedCode hi hz
      rw [← MethodTable.codeOf_of_mem hmem] at hj
      have hrenames := renames_code hctx hl ht (MethodTable.contains_of_mem hmem) hj
      generalize s.names.instruction j = i at hrenames hz
      cases hrenames with
      | push hy => exact Option.some.inj hz ▸ ht.declared hctx hl hparts hy
      | jumpIndirect hy => exact Option.some.inj hz ▸ ht.declared hctx hl hparts hy
      | other hsymbol => cases hsymbol.symm.trans hz
      | _ => cases hz
    · obtain ⟨⟨guid, k⟩, hk, hchunk⟩ := List.mem_flatMap.mp hinstance
      have hslot : ∃ slot ∈ Linker.Merging.slots m (Linker.duplicated m (Renaming.build m
          (naming ctx e.linker.nextOrdinal aliases))) s.names k, z = slot.1 ∨ z = slot.2.1 := by
        simp only [Linker.Merging.instanceChunks, List.mem_cons, List.not_mem_nil, or_false] at hchunk
        rcases hchunk with rfl | rfl
        · obtain ⟨slot, hslot, hi⟩ := List.mem_flatMap.mp hi
          refine ⟨slot, hslot, ?_⟩
          simp only [List.mem_cons, List.not_mem_nil, or_false] at hi
          rcases hi with rfl | rfl | rfl
          · exact Or.inl (Option.some.inj hz).symm
          · exact Or.inr (Option.some.inj hz).symm
          · cases hz
        · obtain ⟨slot, hslot, hi⟩ := List.mem_flatMap.mp hi
          refine ⟨slot, hslot, ?_⟩
          simp only [List.mem_cons, List.mem_append, List.not_mem_nil, or_false] at hi
          rcases hi with (rfl | rfl | rfl) | hi
          · exact Or.inr (Option.some.inj hz).symm
          · exact Or.inl (Option.some.inj hz).symm
          · cases hz
          · split at hi
            · rw [List.mem_singleton.mp hi] at hz
              cases hz
            · cases hi
      obtain ⟨slot, hslot, rfl | rfl⟩ := hslot
      · rw [h.program]
        exact h.outcome.slots hk slot hslot
      · obtain ⟨base, -, hbase⟩ := List.mem_filterMap.mp hslot
        obtain ⟨shared, hshared, hbase⟩ := Option.bind_eq_some_iff.mp hbase
        obtain ⟨v, -, hv⟩ := Option.bind_eq_some_iff.mp hbase
        cases hv
        exact ht.declared hctx hl hparts hshared

/-- A caller whose names are in order: every module that it has merged has its record, and no method is
named as those of later merges are. -/
structure Receptive (ctx : Context) (e : Emission) : Prop where
  named : e.Named
  linked : Linked ctx e
  free {k : Nat} {x : String} : e.program.methods.contains (mergedPrefix k ++ x) = true →
    k < e.linker.nextOrdinal

theorem Tidy.receptive (ht : e.Tidy ctx) (hn : e.Named) : e.Receptive ctx :=
  ⟨hn, ht.linked, fun hx => ordinal_lt_of_method ht.linked (ht.methods hx)⟩

/-- A caller that has merged nothing needs names that are apart from those of merges only. -/
theorem receptive_of_fresh (hn : e.Named) (hlinker : e.linker.merged = .empty)
    (hmethods : ∀ x, e.program.methods.contains x = true → ¬Begins "__m" x) : e.Receptive ctx := by
  have hnone (key : String) : e.linker.merged.get? key = none := by
    rw [hlinker]
    rfl
  refine ⟨hn, ⟨fun {key t} ht => ?_, fun {key key' t t'} ht => ?_⟩, fun {k x} hx => ?_⟩
  · rw [hnone] at ht
    cases ht
  · rw [hnone] at ht
    cases ht
  · exact absurd (begins_mergedPrefix k x) (hmethods _ hx)

/-- The merge of one module leaves a caller as it is or adds the module, and the names stay in order. -/
theorem Receptive.merge_cases (he : e.Receptive ctx) (hctx : ctx.Sound) {P : Linkable → Prop}
    (hstep : MergeStep ctx true P e e') :
    e' = e ∨ ∃ m aliases s, P m ∧ ctx.modules.get? m.key = some m ∧ IsMerge ctx m aliases s e e' ∧
      e.program.symbols.Extends e'.program.symbols ∧ e'.Receptive ctx := by
  obtain ⟨aliases, hP, hadmits, hnew⟩ := hstep
  have hm := hctx.admits hadmits
  have hmove : Move ctx e _ := .merged aliases hadmits hnew
  have hgrows := hmove.grows hctx.toSane he.named
  obtain ⟨-, haliases⟩ := hnew rfl
  rcases he.named.merge_cases hctx.toSane hm aliases with hsame | ⟨s, hmerge⟩
  · exact Or.inl hsame
  · have hrecord := hmerge.record hm (haliases.imp fun _ _ ha => ⟨ha.1, hgrows.linker ha.2⟩)
      (fun _ => (hctx.modules hm).not_isCopyName) fun x => by
        rw [← Bool.not_eq_true]
        exact fun hx => Nat.lt_irrefl _ (he.free hx)
    have hlinked := hmerge.linked he.linked he.named.consistent hgrows hrecord
    refine Or.inr ⟨_, aliases, s, hP, hm, hmerge, hgrows.heap,
      he.named.mergeOwn (hctx.heap hm) _ aliases, hlinked, fun hx => ?_⟩
    rcases merges_method hctx hmerge hlinked hrecord hx with hold | hnew
    · exact Nat.lt_of_lt_of_le (he.free hold) hgrows.ordinal
    · exact ordinal_lt_of_method hlinked hnew

/-- A merge keeps a program closed if the module and those nested in it tell their variables from the
methods of nested modules. -/
theorem Absorbs.closed (hctx : ctx.Sound) (he : e.Receptive ctx)
    (hparts : ∀ n, m.Part n → n.Distinguishes) (h : Absorbs ctx true m.Part e e')
    (hclosed : e.program.Closed) : e'.Receptive ctx ∧ e'.program.Closed := by
  induction h with
  | refl => exact ⟨he, hclosed⟩
  | tail _ hlast ih =>
    obtain ⟨hfirst, hclosed⟩ := ih
    rcases hfirst.merge_cases hctx hlast with rfl | ⟨n, aliases, s, hpart, hm, hmerge, hext, hlater⟩
    · exact ⟨hfirst, hclosed⟩
    · exact ⟨hlater, hmerge.closed hctx hlater.linked hm
        (fun k hk => hparts k (hpart.trans hk)) hext hclosed⟩

end Emission

/-- The names are in order at every point of a compilation. -/
theorem Context.Reaches.receptive {ctx : Context} {point : Point} {e : Emission}
    (h : ctx.Reaches point e) (hctx : ctx.Sound) : e.Receptive ctx := by
  obtain ⟨hmoves, -⟩ := h.moves hctx.toSane
  obtain ⟨ho, ht⟩ := hmoves.tidy hctx
  exact ht.receptive ho.toNamed

/-- Merging a compiled module keeps every caller closed whose names are in order, if the module and those
nested in it tell their variables from the methods of nested modules. A merge that fails keeps it closed,
too. -/
theorem merge_closed {settings : Settings} {cache : ModuleCache} (hcache : cache.Compiled settings)
    {source : ProgramSource} {e : Emission}
    (he : e.Receptive { source, catalogue := .builtin, modules := cache, settings })
    {m : Linkable} (hm : cache.get? m.key = some m) (hparts : ∀ n, m.Part n → n.Distinguishes)
    (hclosed : e.program.Closed) {result : Except Failure Renaming} {s : Linkage}
    (hmerge : (Linker.merge settings.includeEventHooks m).run e.linkage = (result, s)) :
    s.program.Closed := by
  have hctx := hcache.sound source
  have hsane := hctx.toSane
  obtain ⟨-, hmerged⟩ := (Emission.absorbs_merge (fun _ => hsane) m
    (fun _ hn => .cached rfl (hsane.part hm hn)) e e.linkage).closed hctx he hparts hclosed
  rwa [hmerge] at hmerged

/-- A module with instances, a variable and an event of any name; and a module that uses an instance. -/
def sampleLayers (event : String) : List ProgramSource :=
  [{ key := "store"
     data :=
       { vars := [{ guid := sampleGuid 1, name := "x", type := .int }]
         events := [{ trigger := .custom event [] }, { trigger := .custom "run" [] }] }
     interface? := some { entries := [.ofCustomEvent "run" "run" []], multiInstance := true } },
   { key := "middle"
     data :=
       { events := [{ trigger := .custom "run" []
                      actions := [{ action := .moduleEntry "store" "run" (some (sampleGuid 2)) }] }] }
     interface? := some { entries := [.ofCustomEvent "run" "run" []] } }]

def sampleLayerCache (event : String) : ModuleCache :=
  (compileInOrder .builtin {} .empty (sampleLayers event)).2

def sampleMiddle (event : String) : Linkable := ((sampleLayerCache event).get? "middle").getD default

theorem exists_run_of_isSome {m : Linkable} {s : Linkage}
    (h : ((Linker.merge true m).run s).1.toOption.isSome = true) :
    ∃ t s', (Linker.merge true m).run s = (.ok t, s') := by
  rcases hrun : (Linker.merge true m).run s with ⟨result, s'⟩
  rw [hrun] at h
  cases result with
  | error failure => cases h
  | ok t => exact ⟨t, s', rfl⟩

theorem closed_sampleCallerState : (sampleCallerState []).program.Closed := by
  intro x i hi
  cases hi

/-- A caller with a variable and a method that names it. -/
def namingCaller : Emission where
  program.symbols := (({} : SymbolTable).insert
    { name := "y", type := .int, default := .int 0, kind := .user }).2
  program.methods := ({} : MethodTable).emit "main" [.push "y"]

theorem named_namingCaller : namingCaller.Named := by
  have hvar {id : VarId} {v : Variable} (hv : namingCaller.program.symbols.get? id = some v) :
      v = { name := "y", type := .int, default := .int 0, kind := .user } := by
    rw [show namingCaller.program.symbols = (({} : SymbolTable).insert _).2 from rfl,
      SymbolTable.get?_insert] at hv
    split at hv
    · exact (Option.some.inj hv).symm
    · cases hv
  refine ⟨⟨SymbolTable.consistent_insert SymbolTable.consistent_empty rfl, ?_, fun hv hkind => ?_⟩,
    fun hv _ hx => ?_, fun hget => by cases hget⟩
  · exact SymbolTable.proper_empty.insert SymbolTable.consistent_empty rfl
      (show Emit.isVariableName "y" = true by decide) rfl (by decide) (fun _ => Or.inl rfl) (by simp)
  · rw [hvar hv] at hkind
    cases hkind
  · rw [hvar hv] at hx
    cases hx

/-- Merging a module that uses an instance of another one keeps a program with a method closed. -/
theorem merge_closed_sampleMiddle :
    Instruction.push "y" ∈ namingCaller.program.methods.codeOf "main" ∧ namingCaller.program.Closed ∧
      ∃ t s, (Linker.merge true (sampleMiddle "other")).run namingCaller.linkage = (.ok t, s) ∧
        s.program.Closed := by
  have hcache : (sampleLayerCache "other").Compiled {} := by
    rw [sampleLayerCache]
    exact ModuleCache.compiled_empty.compileInOrder (by decide) fun _ _ => rfl
  have hm : (sampleLayerCache "other").get? (sampleMiddle "other").key = some (sampleMiddle "other") := by
    have hkey : (sampleMiddle "other").key = "middle" := by decide +kernel
    have hsome : ((sampleLayerCache "other").get? "middle").isSome = true := by decide +kernel
    rw [hkey, ← Option.some_get hsome, sampleMiddle, Option.get_eq_getD]
  have hnames : ∀ p ∈ (sampleMiddle "other").nested, p.2.nested.isEmpty = true ∧
      ∀ method ∈ p.2.program.methods.toList, p.1 ++ method.name ∉
        (sampleMiddle "other").program.symbols.toList.map (·.2.name) := by decide +kernel
  have hok : ((Linker.merge true (sampleMiddle "other")).run
      namingCaller.linkage).1.toOption.isSome = true := by decide +kernel
  have hmain (x : String) : namingCaller.program.methods.contains x = true → x = "main" := fun hx =>
    ((MethodTable.contains_update.mp hx).resolve_right fun hx => by cases hx).symm
  have hclosed : namingCaller.program.Closed := fun x i hi s hs => by
    obtain rfl := hmain x (MethodTable.mem_codeOf hi)
    obtain rfl := List.mem_singleton.mp hi
    obtain rfl := Option.some.inj hs
    decide
  have hreceptive : namingCaller.Receptive
      { source := { key := "", data := {} }, catalogue := .builtin, modules := sampleLayerCache "other"
        settings := {} } := Emission.receptive_of_fresh named_namingCaller rfl fun x hx => by
    rw [hmain x hx]
    decide
  refine ⟨by decide, hclosed, ?_⟩
  obtain ⟨t, s, hrun⟩ := exists_run_of_isSome hok
  refine ⟨t, s, hrun, merge_closed hcache hreceptive hm (fun n hn => ?_) hclosed hrun⟩
  rcases hn.cases_head with rfl | ⟨k, ⟨start, hk⟩, hpart⟩
  · rintro x ⟨start, n, b, hn, rfl, hb⟩ ⟨id, v, hv, hname⟩
    obtain ⟨method, hmethod, rfl, -⟩ := MethodTable.exists_mem_toList hb
    exact absurd (List.mem_map.mpr ⟨(id, v), OrderedMap.get?_eq_some_iff.mp hv, hname⟩)
      ((hnames _ hn).2 method hmethod)
  · have hempty := List.isEmpty_iff.mp (hnames _ hk).1
    rcases hpart.cases_head with rfl | ⟨_, ⟨_, hnested⟩, -⟩
    · rintro x ⟨_, _, _, hnested, -⟩
      rw [hempty] at hnested
      cases hnested
    · rw [hempty] at hnested
      cases hnested

/-- An event with the name of an instance's variable stands in the way: the program has no variable for
the instance, but code that copies it. -/
theorem merge_not_closed :
    (sampleCallerState []).program.Closed ∧
      ∃ t s, (Linker.merge true (sampleMiddle "i0_x")).run (sampleCallerState []).linkage = (.ok t, s) ∧
        ¬s.program.Closed := by
  have hok : ((Linker.merge true (sampleMiddle "i0_x")).run (sampleCallerState []).linkage).1.toOption.isSome =
      true := by decide +kernel
  have hcode : Instruction.push "__m1___m0_i0_x" ∈ ((Linker.merge true (sampleMiddle "i0_x")).run
      (sampleCallerState []).linkage).2.program.methods.codeOf "__m1___m0_i0__copy_in" := by decide +kernel
  have hheap : ((Linker.merge true (sampleMiddle "i0_x")).run
      (sampleCallerState []).linkage).2.program.symbols.names.contains "__m1___m0_i0_x" = false := by decide +kernel
  obtain ⟨t, s, hrun⟩ := exists_run_of_isSome hok
  rw [hrun] at hcode hheap
  exact ⟨closed_sampleCallerState, t, s, hrun, fun hclosed => by
    cases hheap.symm.trans (hclosed _ _ hcode _ rfl)⟩

end TriggerCompiler
