import TriggerCompiler.Proofs.CalledModules
import TriggerCompiler.Proofs.DistinctNames
import TriggerCompiler.Proofs.FinishedCode
import TriggerCompiler.Proofs.HookSegments

/-! The methods that the machine calls in the programs of a batch. Every module that a program calls,
directly or through other modules, has one segment in each such method of its own, if no key begins with
white space; a key that does is not recognized in a marker, and its module has a second segment wherever
it is merged together with a module that calls it. -/

open Relation

namespace TriggerCompiler

open Text HookPart

/-- Code with exactly one segment of a module, and the code between its markers. -/
def HasOneSegment (key : String) (body code : List Instruction) : Prop :=
  ∃ before behind, code = before ++ (HookPart.segment key body).code ++ behind ∧
    ∀ edge ∈ [Linker.hookBegin, Linker.hookEnd],
      Instruction.comment (Linker.hookMarker edge key) ∉ before ++ body ++ behind

/-- The markers of different modules differ. -/
theorem Linker.key_eq_of_hookMarker {edge edge' key key' : String} (hedge : edge ∈ [hookBegin, hookEnd])
    (hedge' : edge' ∈ [hookBegin, hookEnd]) (h : hookMarker edge key = hookMarker edge' key') :
    key = key' := by
  have hbegins (edge key : String) : Begins edge (hookMarker edge key) := by
    rw [hookMarker, String.append_assoc]
    exact begins_append _ _
  by_cases heq : edge = edge'
  · subst heq
    exact hookMarker_inj.mp h
  · have hapart : ∀ edge ∈ [hookBegin, hookEnd], ∀ edge' ∈ [hookBegin, hookEnd], edge ≠ edge' →
        ¬Begins edge edge' ∧ ¬Begins edge' edge := by decide
    exact absurd h ((hbegins edge key).ne (hbegins edge' key') (hapart edge hedge edge' hedge' heq))

namespace DividedInto

variable {code body : List Instruction} {parts : List HookPart} {key : String}

/-- The comments in divided code are the markers of its segments. -/
theorem exists_segment_of_comment (h : DividedInto code parts) {c : String}
    (hc : Instruction.comment c ∈ code) :
    ∃ edge ∈ [Linker.hookBegin, Linker.hookEnd], ∃ key, c = Linker.hookMarker edge key ∧
      segmentsOf key parts ≠ [] := by
  rw [h.code] at hc
  obtain ⟨p, hp, hc⟩ := List.mem_flatMap.mp hc
  have hplain := h.plain p hp
  cases p with
  | own i =>
    cases List.mem_singleton.mp hc
    cases hplain
  | segment key inner =>
    have hsegment : segmentsOf key parts ≠ [] := List.ne_nil_of_mem (mem_segmentsOf.mpr hp)
    rw [HookPart.code, List.mem_cons, List.mem_append, List.mem_singleton] at hc
    rcases hc with hbegin | hinner | hend
    · exact ⟨_, List.mem_cons_self, key, Instruction.comment.inj hbegin, hsegment⟩
    · cases hplain _ hinner
    · exact ⟨_, List.mem_cons_of_mem _ List.mem_cons_self, key, Instruction.comment.inj hend, hsegment⟩

/-- Code without a segment of a module has none of its markers. -/
theorem marker_notMem (h : DividedInto code parts) (hkey : segmentsOf key parts = []) {edge : String}
    (hedge : edge ∈ [Linker.hookBegin, Linker.hookEnd]) :
    Instruction.comment (Linker.hookMarker edge key) ∉ code := by
  intro hc
  obtain ⟨edge', hedge', key', hmarker, hsegment⟩ := h.exists_segment_of_comment hc
  rw [Linker.key_eq_of_hookMarker hedge hedge' hmarker] at hkey
  exact hsegment hkey

theorem hasOneSegment (h : DividedInto code parts) (hkey : segmentsOf key parts = [body]) :
    HasOneSegment key body code := by
  have hmem : HookPart.segment key body ∈ parts := mem_segmentsOf.mp (hkey ▸ List.mem_cons_self)
  obtain ⟨front, back, rfl⟩ := List.append_of_mem hmem
  -- The other parts have no segment of the module.
  have hnone : segmentsOf key front = [] ∧ segmentsOf key back = [] := by
    have hlength := congrArg List.length hkey
    rw [segmentsOf_append, segmentsOf, if_pos rfl, List.length_append, List.length_cons] at hlength
    have hsum : (segmentsOf key front).length + ((segmentsOf key back).length + 1) = 1 := hlength
    exact ⟨List.length_eq_zero_iff.mp (by omega), List.length_eq_zero_iff.mp (by omega)⟩
  have hpart {l : List HookPart} (hl : l ⊆ front ++ HookPart.segment key body :: back) :
      DividedInto (l.flatMap HookPart.code) l := ⟨rfl, fun p hp => h.plain p (hl hp)⟩
  have hfront := hpart (List.subset_append_left _ _)
  have hback := hpart (List.subset_append_of_subset_right _ (List.subset_cons_self _ _))
  refine ⟨front.flatMap HookPart.code, back.flatMap HookPart.code, ?_, fun edge hedge hc => ?_⟩
  · rw [h.code, List.flatMap_append, List.flatMap_cons, List.append_assoc]
  · rcases List.mem_append.mp hc with hc | hc
    · rcases List.mem_append.mp hc with hc | hc
      · exact hfront.marker_notMem hnone.1 hedge hc
      · cases h.plain _ hmem _ hc
    · exact hback.marker_notMem hnone.2 hedge hc

end DividedInto

namespace ModuleCache

variable {settings : Settings} {sources : List ProgramSource} {cache : ModuleCache}

/-- The modules of a cache are divided if no key begins with white space. -/
theorem CompiledFrom.divided (h : cache.CompiledFrom settings sources)
    (hhooks : settings.includeEventHooks = true) (hblank : ∀ s ∈ sources, dropBlanks s.key = s.key)
    (source : ProgramSource) :
    Context.Divided { source, catalogue := .builtin, modules := cache, settings } := by
  induction h generalizing source with
  | empty => exact ⟨ModuleCache.CompiledFrom.empty.sound source, hhooks, nofun, nofun⟩
  | @publish sources used all cache earlier source' n hcache hearlier hall hsub hn hnew ih ihearlier =>
    have h := ModuleCache.CompiledFrom.publish hcache hearlier hall hsub hn hnew
    refine ⟨h.sound source, hhooks, fun {m} hm => ?_, fun {m} hm => ?_⟩
    · rw [get?_publish] at hm
      split at hm
      · cases hm
        have hctx := ihearlier (fun s hs => hblank s ((hall s).mpr (Or.inr (Or.inl hs)))) source'
        obtain ⟨e, he, -, hprogram, hnested, -⟩ := Context.exists_of_linkable hctx.sound.toSane hn
        exact he.divided hctx hprogram hnested
      · exact (ih (fun s hs => hblank s ((hall s).mpr (Or.inr (Or.inr hs)))) source).divided hm
    · obtain ⟨s, hs, hkey, -⟩ := h.exists_source hm
      rw [← hkey]
      exact hblank s hs

end ModuleCache

namespace Batch

variable {settings : Settings} {sources : List ProgramSource} {ctx : Context}

theorem IsContext.divided (h : IsContext settings sources ctx)
    (hhooks : settings.includeEventHooks = true) (hblank : ∀ s ∈ sources, dropBlanks s.key = s.key) :
    ctx.Divided := by
  cases h with
  | intro _ hused hcache =>
    exact hcache.divided hhooks (fun s hs => hblank s (of_get?_byKey (hused s hs)).1) _

/-! ### A module in a module -/

/-- A module that logs a text at the start. -/
def loggingModule (key : String) : ProgramSource where
  key := key
  data := { events := [
    { trigger := .builtin "Start" [], actions := [.primitive "debug_log" [.constant (.str "hi")]] },
    { trigger := .custom "run" [] }] }
  interface? := some { entries := [.ofCustomEvent "run" "run" []] }

/-- A module that calls another one. -/
def callingModule (key : String) : ProgramSource where
  key := "a"
  data := { events := [
    { trigger := .custom "run" [], actions := [{ action := .moduleEntry key "run" none }] }] }
  interface? := some { entries := [.ofCustomEvent "run" "run" []] }

/-- A program that calls the module which calls the logging one. -/
def nestedCaller : ProgramSource where
  key := "c"
  data := { events := [
    { trigger := .custom "go" [], actions := [{ action := .moduleEntry "a" "run" none }] }] }

/-- The batch of the three, with a key for the module that logs. -/
def nestedBatch (key : String) : List ProgramSource :=
  [loggingModule key, callingModule key, nestedCaller]

theorem inOrder_nestedBatch {key : String} (hkeys : ((nestedBatch key).map ProgramSource.key).Nodup) :
    InOrder (nestedBatch key) (nestedBatch key) := by
  refine ⟨fun _ h => h, hkeys, fun before s after horder d hd _ => ?_⟩
  -- No interface lists modules, so the actions tell what a program needs.
  have hcalled : d ∈ s.calledModules := by
    refine (mem_dependencies.mp hd).1.resolve_left ?_
    have hs : s ∈ nestedBatch key := by
      rw [horder]
      exact List.mem_append_right _ List.mem_cons_self
    rcases List.mem_cons.mp hs with rfl | hs
    · exact List.not_mem_nil
    · rcases List.mem_cons.mp hs with rfl | hs
      · exact List.not_mem_nil
      · rw [List.mem_singleton.mp hs]
        exact List.not_mem_nil
  rcases before with - | ⟨first, - | ⟨second, - | ⟨third, before⟩⟩⟩
  · cases horder
    cases hcalled
  · cases horder
    exact ⟨_, List.mem_cons_self, (List.mem_singleton.mp hcalled).symm⟩
  · cases horder
    exact ⟨_, List.mem_cons_of_mem _ List.mem_cons_self, (List.mem_singleton.mp hcalled).symm⟩
  · have hlength := congrArg List.length horder
    rw [List.length_append, List.length_cons, List.length_cons, List.length_cons, List.length_cons]
      at hlength
    exact absurd (show 3 = _ from hlength) (by omega)

/-- The number of segments of a module in the start method. -/
def startSegments (key : String) (q : Program) : Nat :=
  (q.methods.codeOf "_start").count (.comment (Linker.hookMarker Linker.hookBegin key))

/-- What a batch yields for the program that calls the modules. -/
theorem exists_report_nestedBatch {key : String} {count : Nat}
    (hkeys : ((nestedBatch key).map ProgramSource.key).Nodup)
    (h : ((compileInOrder .builtin {} .empty (nestedBatch key)).1[2]?.map fun o =>
      (o.compiled.isSuccess, o.compiled.finished.map (startSegments key))) = some (true, some count)) :
    ∃ compiled q, (compileBatch (nestedBatch key) {} .builtin).programs.get? "c" = some compiled ∧
      compiled.isSuccess = true ∧ compiled.finished = some q ∧ startSegments key q = count := by
  obtain ⟨o, ho, heq⟩ := Option.map_eq_some_iff.mp h
  obtain ⟨hok, hfinished⟩ := Prod.mk.inj heq
  obtain ⟨q, hq, hcount⟩ := Option.map_eq_some_iff.mp hfinished
  exact ⟨o.compiled, q,
    report_of_inOrder hkeys (inOrder_nestedBatch hkeys) (s := nestedCaller) rfl ho none 1, hok, hq, hcount⟩

/-- The module that logs has a start method in every context of the batch. -/
theorem hasMethod_start_of_nestedBatch {m : Linkable} (hctx : IsContext {} (nestedBatch "k") ctx)
    (hm : ctx.modules.get? "k" = some m) : m.HasMethod "_start" := by
  have hstart : (compileProgram (loggingModule "k") .builtin .empty {}).linkable.map
      (fun m => m.program.methods.contains "_start") = some true := by decide +kernel
  cases hctx with
  | intro _ hused hcache =>
    obtain ⟨s, hs, hkey, used, earlier, -, hlinkable⟩ := hcache.exists_source hm
    have hlogging : (byKey (nestedBatch "k")).get? "k" = some (loggingModule "k") :=
      (get?_byKey (by decide)).mpr ⟨List.mem_cons_self, rfl⟩
    have hget := hused s hs
    rw [hkey, hlogging] at hget
    cases hget
    have hsame : compileProgram (loggingModule "k") .builtin earlier {} =
        compileProgram (loggingModule "k") .builtin .empty {} :=
      Context.compile_congr ⟨rfl, rfl, rfl, rfl, nofun⟩ fun n ⟨_, hcalled, _⟩ => nomatch hcalled
    rw [← hsame, hlinkable] at hstart
    exact Option.some.inj hstart

/-! ### Segments of merged modules -/

/-- **Merged modules run once.** In a batch whose keys do not begin with white space, a program that
compiles has merged every module that it calls, directly or through other modules. Each method of such a
module that the machine calls has exactly one segment in the program's method of that name. Between its
markers stands the code that is left of the module's method without the segments of the modules nested in
the module, under the names of the program and with the addresses filled in. -/
theorem merged_hook_once {available : Nat} {caller key : String} {compiled : CompiledProgram}
    (hblank : ∀ s ∈ sources, dropBlanks s.key = s.key) (hhooks : settings.includeEventHooks = true)
    (hreport : (compileBatch sources settings .builtin available).programs.get? caller = some compiled)
    (hok : compiled.isSuccess = true) (hcalls : TransGen (Calls sources) caller key) :
    ∃ (ctx : Context) (q : Program) (m : Linkable) (t : Renaming), IsContext settings sources ctx ∧
      ctx.source.key = caller ∧ ctx.compile.compiled = compiled ∧ compiled.finished = some q ∧
      m.key = key ∧ ctx.emitted.Carries ctx m t ∧
      ∀ x, Renaming.isEventHook x = true → m.HasMethod x → ∃ parts, m.HookParts x parts ∧
        HasOneSegment key
          (((ownCode parts).map t.instruction).map
            (Instruction.fillIn (ctx.emitted.program.finalAddress ctx.source.data.sync settings)))
          (q.methods.codeOf x) := by
  obtain ⟨ctx, hctx, rfl, rfl⟩ := exists_context hreport hok
  have hsettings : ctx.settings = settings := by
    cases hctx
    rfl
  have hdivided := hctx.divided hhooks hblank
  obtain ⟨e, report, q, he, hfinish, -, hcompiled⟩ :=
    Context.exists_of_isSuccess hctx.sound.toSane hok
  obtain ⟨m, t, hm, rfl⟩ := hctx.exists_carries he hcalls
  have hstate : ctx.emitted = e := congrArg Prod.snd he.run
  refine ⟨ctx, q, m, t, hctx, rfl, rfl, by rw [hcompiled]; rfl, rfl, hstate ▸ hm, fun x hx hhas => ?_⟩
  obtain ⟨parts, hparts⟩ := he.moves.hooked hdivided hx
  obtain ⟨own, hown⟩ := hdivided.divided hm.cached hx
  obtain ⟨before, behind, hcode, hplain⟩ :=
    Program.exists_code_of_finish he.orderly.consistent.toGrounded hfinish x
  refine ⟨own, hown, ?_⟩
  rw [hstate, ← hsettings]
  generalize e.program.finalAddress ctx.source.data.sync ctx.settings = address at hcode ⊢
  have hfinished : DividedInto (q.methods.codeOf x) (before.map .own ++
      parts.map (HookPart.map (Instruction.fillIn address)) ++ behind.map .own) := by
    rw [hcode]
    refine ((DividedInto.own fun i hi => hplain i (List.mem_append_left _ hi)).append
      (hparts.divided.map (fun _ => rfl) fun i hi => ?_)).append
        (.own fun i hi => hplain i (List.mem_append_right _ hi))
    rw [Program.isComment_fillIn, hi]
  refine hfinished.hasOneSegment ?_
  rw [segmentsOf_append, segmentsOf_append, segmentsOf_map_own, segmentsOf_map_own, segmentsOf_map,
    hparts.segment hm hhas hown.divided]
  rfl

/-- The start method of the caller has one segment of the module that it calls through another one. -/
theorem merged_hook_once_nestedBatch :
    TransGen (Calls (nestedBatch "k")) "c" "k" ∧ ∃ compiled q body,
      (compileBatch (nestedBatch "k") {} .builtin).programs.get? "c" = some compiled ∧
      compiled.isSuccess = true ∧ compiled.finished = some q ∧
      HasOneSegment "k" body (q.methods.codeOf "_start") := by
  have hkeys : ((nestedBatch "k").map ProgramSource.key).Nodup := by decide
  have hcalls : TransGen (Calls (nestedBatch "k")) "c" "k" := by
    refine .tail (.single ⟨nestedCaller, (get?_byKey hkeys).mpr ⟨?_, rfl⟩, List.mem_cons_self⟩)
      ⟨callingModule "k", (get?_byKey hkeys).mpr ⟨?_, rfl⟩, List.mem_cons_self⟩
    · exact List.mem_cons_of_mem _ (List.mem_cons_of_mem _ List.mem_cons_self)
    · exact List.mem_cons_of_mem _ List.mem_cons_self
  obtain ⟨compiled, _, hreport, hok, -⟩ := exists_report_nestedBatch hkeys (by decide +kernel :
    ((compileInOrder .builtin {} .empty (nestedBatch "k")).1[2]?.map fun o =>
      (o.compiled.isSuccess, o.compiled.finished.map (startSegments "k"))) = some (true, some 1))
  obtain ⟨ctx, q, m, t, hctx, -, -, hq, hkey, hm, hsegment⟩ :=
    merged_hook_once (by decide) rfl hreport hok hcalls
  have hstart := hasMethod_start_of_nestedBatch hctx (hkey ▸ hm.cached)
  obtain ⟨parts, -, hone⟩ := hsegment "_start" (by decide) hstart
  exact ⟨hcalls, compiled, q, _, hreport, hok, hq, hone⟩

/-- A key that begins with white space: the start method of the caller has two segments of the module. -/
theorem nestedBatch_start_twice :
    ∃ compiled q, (compileBatch (nestedBatch " k") {} .builtin).programs.get? "c" = some compiled ∧
      compiled.isSuccess = true ∧ compiled.finished = some q ∧
      (q.methods.codeOf "_start").count (.comment "hook begin  k") = 2 :=
  exists_report_nestedBatch (by decide) (by decide +kernel)

end Batch

end TriggerCompiler
