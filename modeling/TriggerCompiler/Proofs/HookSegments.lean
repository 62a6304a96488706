import TriggerCompiler.Proofs.CompiledModules
import TriggerCompiler.Proofs.ProgramSteps

/-! The methods that the machine calls, divided into the code of the program's own and the segments of the
modules merged into it. A merge adds one segment to each such method of the module, with the module's own
code in it; so every merged module has exactly one segment, provided that no key begins with white space,
which the markers of segments do not keep. -/

namespace TriggerCompiler

open Text

/-- A part of a method that the machine calls: an instruction of the program's own, or the segment of a
module. -/
inductive HookPart
  | own (i : Instruction)
  | segment (key : String) (code : List Instruction)

namespace HookPart

/-- The code of a part; a segment stands between its markers. -/
def code : HookPart → List Instruction
  | own i => [i]
  | segment key code =>
      .comment (Linker.hookMarker Linker.hookBegin key) ::
        (code ++ [.comment (Linker.hookMarker Linker.hookEnd key)])

/-- No part holds comments beside its markers. -/
def Plain : HookPart → Prop
  | own i => i.isComment = false
  | segment _ code => ∀ i ∈ code, i.isComment = false

/-- The instructions that belong to no segment. -/
def ownCode : List HookPart → List Instruction
  | [] => []
  | own i :: rest => i :: ownCode rest
  | segment _ _ :: rest => ownCode rest

/-- The code of the segments of a module. -/
def segmentsOf (key : String) : List HookPart → List (List Instruction)
  | [] => []
  | own _ :: rest => segmentsOf key rest
  | segment k code :: rest => if k = key then code :: segmentsOf key rest else segmentsOf key rest

/-- A part with its instructions changed. -/
def map (f : Instruction → Instruction) : HookPart → HookPart
  | own i => own (f i)
  | segment key code => segment key (code.map f)

variable {key : String} {parts parts' : List HookPart} {code : List Instruction}

theorem segmentsOf_append :
    segmentsOf key (parts ++ parts') = segmentsOf key parts ++ segmentsOf key parts' := by
  induction parts with
  | nil => rfl
  | cons p parts ih =>
    cases p with
    | own i => exact ih
    | segment k code =>
      rw [List.cons_append, segmentsOf, segmentsOf, ih]
      split
      · rfl
      · rfl

theorem mem_segmentsOf : code ∈ segmentsOf key parts ↔ segment key code ∈ parts := by
  induction parts with
  | nil => simp [segmentsOf]
  | cons p parts ih =>
    cases p with
    | own i => simp [segmentsOf, ih]
    | segment k code' =>
      rw [segmentsOf, List.mem_cons, segment.injEq]
      split
      · rename_i heq
        rw [List.mem_cons, ih, and_iff_right heq.symm]
      · rename_i hne
        rw [ih, or_iff_right fun h => hne h.1.symm]

theorem segmentsOf_map_own (code : List Instruction) : segmentsOf key (code.map own) = [] := by
  induction code with
  | nil => rfl
  | cons i code ih => exact ih

theorem segmentsOf_map (f : Instruction → Instruction) :
    segmentsOf key (parts.map (map f)) = (segmentsOf key parts).map (List.map f) := by
  induction parts with
  | nil => rfl
  | cons p parts ih =>
    cases p with
    | own i => exact ih
    | segment k code =>
      rw [List.map_cons, map, segmentsOf, segmentsOf, ih]
      split
      · rfl
      · rfl

end HookPart

theorem Renaming.isComment_instruction (t : Renaming) (i : Instruction) :
    (t.instruction i).isComment = i.isComment := by
  cases i with
  | jump target => cases target <;> rfl
  | jumpIfFalse target => cases target <;> rfl
  | _ => rfl

open HookPart

/-- Code is divided into parts. -/
structure DividedInto (code : List Instruction) (parts : List HookPart) : Prop where
  code : code = parts.flatMap HookPart.code
  plain : ∀ p ∈ parts, p.Plain

theorem Linker.hookMarker_inj {edge key key' : String} :
    Linker.hookMarker edge key = Linker.hookMarker edge key' ↔ key = key' := append_right_cancel_iff

namespace DividedInto

variable {code code' : List Instruction} {parts parts' : List HookPart}

theorem nil : DividedInto [] [] := ⟨rfl, nofun⟩

theorem append (h : DividedInto code parts) (h' : DividedInto code' parts') :
    DividedInto (code ++ code') (parts ++ parts') := by
  refine ⟨?_, fun p hp => ?_⟩
  · rw [List.flatMap_append, ← h.code, ← h'.code]
  · exact (List.mem_append.mp hp).elim (h.plain p) (h'.plain p)

/-- Code without comments belongs to no segment. -/
theorem own (h : ∀ i ∈ code, i.isComment = false) : DividedInto code (code.map HookPart.own) := by
  refine ⟨?_, fun p hp => ?_⟩
  · induction code with
    | nil => rfl
    | cons i code ih =>
      rw [List.map_cons, List.flatMap_cons,
        ← ih fun j hj => h j (List.mem_cons_of_mem _ hj)]
      rfl
  · obtain ⟨i, hi, rfl⟩ := List.mem_map.mp hp
    exact h i hi

theorem segment {key : String} (h : ∀ i ∈ code, i.isComment = false) :
    DividedInto (HookPart.segment key code).code [HookPart.segment key code] := by
  refine ⟨(List.append_nil _).symm, fun p hp => ?_⟩
  rw [List.mem_singleton.mp hp]
  exact h

/-- A change that leaves the comments alone. -/
theorem map (h : DividedInto code parts) {f : Instruction → Instruction}
    (hcomment : ∀ c, f (.comment c) = .comment c)
    (hplain : ∀ i, i.isComment = false → (f i).isComment = false) :
    DividedInto (code.map f) (parts.map (HookPart.map f)) := by
  refine ⟨?_, fun p hp => ?_⟩
  · rw [h.code, List.map_flatMap, List.flatMap_map]
    refine List.flatMap_congr fun p _ => ?_
    cases p with
    | own i => rfl
    | segment key code => simp [HookPart.map, HookPart.code, hcomment]
  · obtain ⟨p, hmem, rfl⟩ := List.mem_map.mp hp
    have hp := h.plain p hmem
    cases p with
    | own i => exact hplain i hp
    | segment key code =>
      intro i hi
      obtain ⟨j, hj, rfl⟩ := List.mem_map.mp hi
      exact hplain j (hp j hj)

theorem ownCode_plain (h : DividedInto code parts) : ∀ i ∈ ownCode parts, i.isComment = false := by
  have hplain := h.plain
  clear h
  induction parts with
  | nil => exact nofun
  | cons p parts ih =>
    obtain ⟨hp, hrest⟩ := List.forall_mem_cons.mp hplain
    cases p with
    | own i => exact List.forall_mem_cons.mpr ⟨hp, ih hrest⟩
    | segment key inner => exact ih hrest

theorem tail {p : HookPart} (h : DividedInto code (p :: parts)) :
    DividedInto (parts.flatMap HookPart.code) parts :=
  ⟨rfl, fun q hq => h.plain q (List.mem_cons_of_mem _ hq)⟩

/-- Code is divided in one way only. -/
theorem unique (h : DividedInto code parts) (h' : DividedInto code parts') : parts = parts' := by
  have hcomment {key : String} {inner : List Instruction} (hp : (HookPart.segment key inner).Plain)
      (c : String) : Instruction.comment c ∉ inner := fun hc => nomatch hp _ hc
  induction parts generalizing code parts' with
  | nil =>
    cases parts' with
    | nil => rfl
    | cons p' parts' =>
      have hcode := h'.code
      rw [h.code] at hcode
      cases p' with
      | own i => cases hcode
      | segment key inner => cases hcode
  | cons p parts ih =>
    cases parts' with
    | nil =>
      have hcode := h.code
      rw [h'.code] at hcode
      cases p with
      | own i => cases hcode
      | segment key inner => cases hcode
    | cons p' parts' =>
      have hcode := h.code.symm.trans h'.code
      have hp := h.plain p List.mem_cons_self
      have hp' := h'.plain p' List.mem_cons_self
      have hsame (heq : parts.flatMap HookPart.code = parts'.flatMap HookPart.code) : parts = parts' :=
        ih h.tail (heq ▸ h'.tail)
      rw [List.flatMap_cons, List.flatMap_cons] at hcode
      cases p with
      | own i =>
        cases p' with
        | own j =>
          obtain ⟨rfl, hbehind⟩ := List.cons.inj hcode
          rw [hsame hbehind]
        | segment key inner =>
          obtain ⟨rfl, -⟩ := List.cons.inj hcode
          cases hp
      | segment key inner =>
        cases p' with
        | own j =>
          obtain ⟨rfl, -⟩ := List.cons.inj hcode
          cases hp'
        | segment key' inner' =>
          obtain ⟨hbegin, hbehind⟩ := List.cons.inj hcode
          obtain rfl := Linker.hookMarker_inj.mp (Instruction.comment.inj hbegin)
          change inner ++ [_] ++ _ = inner' ++ [_] ++ _ at hbehind
          rw [List.append_assoc, List.append_assoc] at hbehind
          obtain ⟨rfl, hlater⟩ :=
            append_separator_inj (hcomment hp _) (hcomment hp' _) hbehind
          rw [hsame hlater]

end DividedInto

namespace Linker

variable {keys : List String} {code rest : List Instruction} {parts : List HookPart}

theorem beginsHook?_eq_none {i : Instruction} (h : i.isComment = false) : beginsHook? keys i = none := by
  cases i with
  | comment c => cases h
  | _ => rfl

/-- A key that does not begin with white space is read back from its marker. -/
theorem beginsHook?_marker {key : String} (hmem : key ∈ keys) (hkey : dropBlanks key = key) :
    beginsHook? keys (.comment (hookMarker hookBegin key)) = some key := by
  have hstart : withoutStart? hookBegin (hookMarker hookBegin key) = some (" " ++ key) := by
    rw [withoutStart?_eq_some_iff, hookMarker, String.append_assoc]
  have hblank : dropBlanks (" " ++ key) = key := by
    rw [dropBlanks, String.toList_append]
    exact hkey
  rw [beginsHook?, hstart, Option.map_some, hblank]
  exact if_pos hmem

/-- The rest of a segment is dropped. -/
theorem stripHooks_segment {ending : String} (h : ∀ i ∈ code, i.isComment = false) :
    stripHooks keys (some ending) (code ++ .comment ending :: rest) = stripHooks keys none rest := by
  induction code with
  | nil => rw [List.nil_append, stripHooks, if_pos rfl]
  | cons i code ih =>
    have hne : i ≠ .comment ending := by
      rintro rfl
      cases h _ List.mem_cons_self
    rw [List.cons_append, stripHooks, if_neg hne, ih fun j hj => h j (List.mem_cons_of_mem _ hj)]

/-- Exactly the segments are dropped, if their modules are those to be dropped and no key begins with white
space. -/
theorem stripHooks_eq_ownCode (h : DividedInto code parts)
    (hkeys : ∀ key, segmentsOf key parts ≠ [] → key ∈ keys ∧ dropBlanks key = key) :
    stripHooks keys none code = ownCode parts := by
  induction parts generalizing code with
  | nil => rw [h.code, List.flatMap_nil, stripHooks, ownCode]
  | cons p parts ih =>
    have hp := h.plain p List.mem_cons_self
    rw [h.code, List.flatMap_cons]
    cases p with
    | own i =>
      rw [HookPart.code, List.singleton_append, stripHooks, beginsHook?_eq_none hp]
      exact congrArg (i :: ·) (ih h.tail hkeys)
    | segment key inner =>
      obtain ⟨hmem, hkey⟩ := hkeys key (by rw [segmentsOf, if_pos rfl]; exact List.cons_ne_nil _ _)
      rw [HookPart.code, List.cons_append, stripHooks, beginsHook?_marker hmem hkey]
      dsimp only
      rw [List.append_assoc, List.singleton_append, stripHooks_segment hp]
      refine ih h.tail fun k hk => hkeys k ?_
      rw [segmentsOf]
      split
      · exact List.cons_ne_nil _ _
      · exact hk

/-- The code of a module in a method that the machine calls is one segment. -/
theorem renamedCode_hook {m : Linkable} {t : Renaming} {method : Method}
    (h : DividedInto method.code parts) (hkeys : ∀ key, segmentsOf key parts ≠ [] →
      key ∈ m.nested.map (fun n => n.2.key) ∧ dropBlanks key = key) :
    Merging.renamedCode m t method true =
      (HookPart.segment m.key ((ownCode parts).map t.instruction)).code := by
  rw [Merging.renamedCode, if_pos rfl, stripHooks_eq_ownCode h hkeys]
  rfl

end Linker

/-! ### Segments of merged modules -/

/-- The parts of a method of a module that the machine calls: one segment of each nested module that has
such a method, no other segments, and the module's own code. -/
structure Linkable.HookParts (m : Linkable) (x : String) (parts : List HookPart) : Prop where
  divided : DividedInto (m.program.methods.codeOf x) parts
  nested {key : String} : segmentsOf key parts ≠ [] → ∃ n, m.Nests n ∧ n.key = key
  segment {n : Linkable} : m.Nests n → n.HasMethod x → ∃ code, segmentsOf n.key parts = [code]

/-- All methods of a module that the machine calls have these parts. -/
def Linkable.Divided (m : Linkable) : Prop :=
  ∀ ⦃x⦄, Renaming.isEventHook x = true → ∃ parts, m.HookParts x parts

/-- The modules that can be called are divided, and their keys do not begin with white space. -/
structure Context.Divided (ctx : Context) : Prop where
  sound : ctx.Sound
  includes : ctx.settings.includeEventHooks = true
  divided {m : Linkable} : ctx.modules.get? m.key = some m → m.Divided
  keys {m : Linkable} : ctx.modules.get? m.key = some m → dropBlanks m.key = m.key

namespace Emission

variable {ctx : Context} {e e' : Emission} {x : String} {parts : List HookPart}

/-- A method of a program that the machine calls, divided into parts: every merged module that has such a
method has one segment, with the module's own code in it, and no other module has one. -/
structure Hooked (ctx : Context) (e : Emission) (x : String) (parts : List HookPart) : Prop where
  divided : DividedInto (e.program.methods.codeOf x) parts
  merged {key : String} : segmentsOf key parts ≠ [] →
    ∃ m t, e.Carries ctx m t ∧ m.key = key ∧ m.HasMethod x
  segment {m : Linkable} {t : Renaming} {own : List HookPart} : e.Carries ctx m t →
    m.HasMethod x → DividedInto (m.program.methods.codeOf x) own →
    segmentsOf m.key parts = [(ownCode own).map t.instruction]

/-- A step that merges no module and appends code without comments. -/
theorem Hooked.of_own (h : e.Hooked ctx x parts)
    (hmerged : e'.linker.merged = e.linker.merged) {code : List Instruction}
    (hplain : ∀ i ∈ code, i.isComment = false)
    (hcode : e'.program.methods.codeOf x = e.program.methods.codeOf x ++ code) :
    e'.Hooked ctx x (parts ++ code.map .own) := by
  have hcarries {m : Linkable} {t : Renaming} :
      e'.Carries ctx m t ↔ e.Carries ctx m t :=
    ⟨fun hm => ⟨hm.cached, hmerged ▸ hm.merged⟩, fun hm => ⟨hm.cached, hmerged ▸ hm.merged⟩⟩
  have hsegments (key : String) :
      segmentsOf key (parts ++ code.map .own) = segmentsOf key parts := by
    rw [segmentsOf_append, segmentsOf_map_own, List.append_nil]
  refine ⟨?_, fun {key} hkey => ?_, fun {m t own} hm hx hown => ?_⟩
  · rw [hcode]
    exact h.divided.append (.own hplain)
  · rw [hsegments] at hkey
    obtain ⟨m, t, hm, hname, hx⟩ := h.merged hkey
    exact ⟨m, t, hcarries.mpr hm, hname, hx⟩
  · rw [hsegments]
    exact h.segment (hcarries.mp hm) hx hown

section Merge

variable {m : Linkable} {aliases : List Renaming.Alias} {s : Linker.Merging}
  (hm : ctx.modules.get? m.key = some m) (hnew : e.linker.merged.get? m.key = none)
  (hmerge : IsMerge ctx m aliases s e e')

include hm hnew hmerge

/-- A merge that adds the segment of the module. -/
theorem Hooked.of_segment (h : e.Hooked ctx x parts) (hhas : m.HasMethod x) {own : List HookPart}
    (hown : DividedInto (m.program.methods.codeOf x) own)
    (hcode : e'.program.methods.codeOf x = e.program.methods.codeOf x ++
      (HookPart.segment m.key ((ownCode own).map s.names.instruction)).code) :
    e'.Hooked ctx x (parts ++ [.segment m.key ((ownCode own).map s.names.instruction)]) := by
  -- A module that has not been merged has no segment yet.
  have hnone : segmentsOf m.key parts = [] := by
    by_contra hsome
    obtain ⟨n, t, hn, hkey, -⟩ := h.merged hsome
    have hmerged := hn.merged
    rw [hkey, hnew] at hmerged
    cases hmerged
  have hplain : ∀ i ∈ (ownCode own).map s.names.instruction, i.isComment = false := by
    intro i hi
    obtain ⟨j, hj, rfl⟩ := List.mem_map.mp hi
    rw [Renaming.isComment_instruction]
    exact hown.ownCode_plain j hj
  have hsegments (key : String) : segmentsOf key (parts ++
      [.segment m.key ((ownCode own).map s.names.instruction)]) = segmentsOf key parts ++
        if m.key = key then [(ownCode own).map s.names.instruction] else [] := segmentsOf_append
  refine ⟨?_, fun {key} hkey => ?_, fun {n t own'} hn hnx hown' => ?_⟩
  · rw [hcode]
    exact h.divided.append (.segment hplain)
  · by_cases hkm : m.key = key
    · exact ⟨m, _, hmerge.carries hm, hkm, hhas⟩
    · rw [hsegments, if_neg hkm, List.append_nil] at hkey
      obtain ⟨n, t, hn, hname, hnx⟩ := h.merged hkey
      exact ⟨n, t, hmerge.carries_of hnew hn, hname, hnx⟩
  · rw [hsegments]
    rcases hmerge.carries_cases hm hn with ⟨rfl, rfl⟩ | ⟨hold, hne⟩
    · rw [hnone, if_pos rfl, List.nil_append, hown'.unique hown]
    · rw [if_neg (Ne.symm hne), List.append_nil]
      exact h.segment hold hnx hown'

/-- A merge of a module without the method. -/
theorem Hooked.of_absent (h : e.Hooked ctx x parts) (hhas : ¬m.HasMethod x)
    (hcode : e'.program.methods.codeOf x = e.program.methods.codeOf x) :
    e'.Hooked ctx x parts := by
  refine ⟨?_, fun {key} hkey => ?_, fun {n t own} hn hnx hown => ?_⟩
  · rw [hcode]
    exact h.divided
  · obtain ⟨n, t, hn, hname, hnx⟩ := h.merged hkey
    exact ⟨n, t, hmerge.carries_of hnew hn, hname, hnx⟩
  · rcases hmerge.carries_cases hm hn with ⟨rfl, -⟩ | ⟨hold, -⟩
    · exact absurd hnx hhas
    · exact h.segment hold hnx hown

theorem Hooked.of_merge (h : e.Hooked ctx x parts) (hctx : ctx.Divided)
    (hx : Renaming.isEventHook x = true) (hshared : x ∉ s.names.shared) :
    ∃ parts', e'.Hooked ctx x parts' := by
  have hhook : (ctx.settings.includeEventHooks && Renaming.isEventHook x) = true := by
    rw [hctx.includes, hx]
    rfl
  by_cases hhas : m.HasMethod x
  · obtain ⟨method, hmethod, rfl, hcode⟩ := MethodTable.exists_mem_toList hhas
    obtain ⟨own, hown⟩ := hctx.divided hm hx
    have hkeys (key : String) (hkey : segmentsOf key own ≠ []) :
        key ∈ m.nested.map (fun n => n.2.key) ∧ dropBlanks key = key := by
      obtain ⟨n, ⟨start, hn⟩, rfl⟩ := hown.nested hkey
      exact ⟨List.mem_map_of_mem hn, hctx.keys (hctx.sound.nested hm ⟨start, hn⟩)⟩
    refine ⟨_, h.of_segment hm hnew hmerge hhas hown.divided ?_⟩
    rw [hmerge.program, ← Linker.renamedCode_hook (hcode ▸ hown.divided) hkeys]
    exact hmerge.outcome.codeOf_hook rfl (fun _ => (hctx.sound.modules hm).not_isCopyName) hmethod
      hshared hhook
  · refine ⟨parts, h.of_absent hm hnew hmerge hhas ?_⟩
    rw [hmerge.program]
    exact hmerge.outcome.codeOf_otherHook rfl hx hhas

end Merge

theorem Hooked.of_codeOf (h : e.Hooked ctx x parts)
    (hmerged : e'.linker.merged = e.linker.merged)
    (hcode : e'.program.methods.codeOf x = e.program.methods.codeOf x) :
    ∃ parts', e'.Hooked ctx x parts' :=
  ⟨_, @Hooked.of_own ctx e e' x parts h hmerged [] nofun (by rw [hcode, List.append_nil])⟩

theorem Advance.hooked (h : Move ctx e e') (hctx : ctx.Divided) (hn : e.Named) (ht : e.Tidy ctx)
    (hx : Renaming.isEventHook x = true) (he : e.Hooked ctx x parts) :
    ∃ parts', e'.Hooked ctx x parts' := by
  have ht' := h.tidy hctx.sound hn ht
  cases h with
  | altered h =>
    cases h with
    | @emitted y code _ hcode _ =>
      have hplain : ∀ i ∈ if y = x then code else [], i.isComment = false := by
        intro i hi
        split at hi
        · simpa using List.all_eq_true.mp hcode i hi
        · cases hi
      refine ⟨_, he.of_own ?_ hplain ?_⟩
      · rfl
      · exact MethodTable.codeOf_update fun _ => rfl
    | touched _ _ _ _ _ =>
      refine he.of_codeOf ?_ ?_
      · rfl
      · exact MethodTable.codeOf_update_eq fun _ => rfl
    | discarded event _ =>
      have hbegins : Begins "ev" s!"ev{event}__unreachable" := by
        rw [show s!"ev{event}__unreachable" = "ev" ++ toString event ++ "__unreachable" from rfl,
          String.append_assoc]
        exact begins_append _ _
      refine he.of_codeOf ?_ ?_
      · rfl
      · exact MethodTable.codeOf_remove ((begins_of_isEventHook hx).1.ne hbegins (by decide))
    | _ => exact he.of_codeOf rfl rfl
  | @merged m aliases hadmits hnew =>
    have hm := hctx.sound.admits hadmits
    rcases hn.merge_cases hctx.sound.toSane hm aliases with hsame | ⟨s, hmerge⟩
    · rw [hsame]
      exact ⟨parts, he⟩
    · obtain ⟨_, _, hrecord⟩ := ht'.linked.record_of (hmerge.carries hm)
      exact he.of_merge hm (hnew rfl).1 hmerge hctx hx
        (hrecord.notMem_shared hctx.sound (unmerged_of_isEventHook hx))

theorem hooked_start (ctx : Context) (x : String) : (Emission.start ctx.source).Hooked ctx x [] where
  divided := .nil
  merged h := absurd rfl h
  segment h := by cases h.merged

/-- Every method of a program that the machine calls has the segments that it should have. -/
theorem Advances.hooked (h : Moves ctx (.start ctx.source) e) (hctx : ctx.Divided)
    (hx : Renaming.isEventHook x = true) : ∃ parts, e.Hooked ctx x parts :=
  h.keeps_tidy (P := fun e => ∃ parts, e.Hooked ctx x parts) hctx.sound
    (fun _ _ hmove hn ht ⟨_, he⟩ => hmove.hooked hctx hn ht hx he) ⟨[], hooked_start ctx x⟩

/-- A module is divided if the modules that it could call are. -/
theorem Complete.divided (he : e.Complete ctx) (hctx : ctx.Divided) {m : Linkable}
    (hprogram : m.program = e.program)
    (hnested : m.nested = e.linker.nestedModules ctx.modules) : m.Divided := by
  intro x hx
  obtain ⟨parts, hparts⟩ := he.moves.hooked hctx hx
  have hlinked := (he.moves.tidy hctx.sound).2.linked
  refine ⟨parts, hprogram ▸ hparts.divided, fun {key} hkey => ?_, fun {n} ⟨start, hn⟩ hnx => ?_⟩
  · obtain ⟨n, t, hn, hname, -⟩ := hparts.merged hkey
    refine ⟨n, ⟨t.namePrefix, ?_⟩, hname⟩
    rw [hnested]
    exact hlinked.mem_nestedModules.mpr ⟨t, hn, rfl⟩
  · rw [hnested] at hn
    obtain ⟨t, hcarries, -⟩ := hlinked.mem_nestedModules.mp hn
    obtain ⟨own, hown⟩ := hctx.divided hcarries.cached hx
    exact ⟨_, hparts.segment hcarries hnx hown.divided⟩

end Emission

end TriggerCompiler
