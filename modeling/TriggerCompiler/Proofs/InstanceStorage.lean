import TriggerCompiler.Proofs.CaptureFree
import TriggerCompiler.Proofs.ControlFlow
import TriggerCompiler.Proofs.InstanceSlots

/-! The storage of the instances of a module in a program that calls it. Every instance has variables of
its own, which no other instance, no variable of the module and no variable of the program shares, and the
methods that surround a call copy them to the variables that the code of the module uses and back. Only a
variable of the module with the name of an instance's variable stands in the way. -/

namespace TriggerCompiler

open Text

/-! ### Copying -/

namespace ControlFlow

/-- Whether code copies variables to other ones, all at once: it runs to its end, every second variable
holds what the first one held before, and nothing else has changed. The marks behind synced variables do
nothing. -/
def CopiesAll (code : List Instruction) (pairs : List (String × String)) : Prop :=
  ∀ (V : Type) (M : Interpretation V) (heap : Heap V),
    let items := (code.filter (· ≠ .sentinel)).map Item.instruction
    ∃ n final, Runs M items n ⟨items, [], heap⟩ [] final ∧
      (∀ p ∈ pairs, final p.2 = heap p.1) ∧ ∀ y, y ∉ pairs.map Prod.snd → final y = heap y

/-- The code that copies variables one after another. -/
def copyCode (pairs : List (String × String)) : List Instruction :=
  pairs.flatMap fun p => [.push p.1, .push p.2, .copy]

/-- Copying variables one after another comes to an end and changes only the variables copied to. It
copies them all at once, if none is written twice and none is read that is written. -/
theorem exists_runs_copyCode {V : Type} (M : Interpretation V) (program : List Item)
    (pairs : List (String × String)) (heap : Heap V) :
    ∃ n final, Runs M program n ⟨(copyCode pairs).map Item.instruction, [], heap⟩ [] final ∧
      (∀ y, y ∉ pairs.map Prod.snd → final y = heap y) ∧
      ((pairs.map Prod.snd).Nodup → (∀ p ∈ pairs, p.1 ∉ pairs.map Prod.snd) →
        ∀ p ∈ pairs, final p.2 = heap p.1) := by
  induction pairs generalizing heap with
  | nil => exact ⟨0, heap, .ended heap, fun _ _ => rfl, fun _ _ p hp => by cases hp⟩
  | cons p pairs ih =>
    obtain ⟨n, final, hruns, hsame, hcopied⟩ := ih (Function.update heap p.2 (heap p.1))
    refine ⟨n + 3, final, runs_copy.mpr ⟨n, rfl, hruns⟩, fun y hy => ?_, fun hnodup hread q hq => ?_⟩
    · rw [List.map_cons, List.mem_cons, not_or] at hy
      rw [hsame y hy.2, Function.update_of_ne hy.1]
    · rw [List.map_cons, List.nodup_cons] at hnodup
      simp only [List.map_cons, List.mem_cons, not_or] at hread
      rcases List.mem_cons.mp hq with rfl | hq
      · rw [hsame _ hnodup.1, Function.update_self]
      · rw [hcopied hnodup.2 (fun r hr => (hread r (Or.inr hr)).2) q hq,
          Function.update_of_ne (hread q (Or.inr hq)).1]

theorem copiesAll_of_filter_eq {code : List Instruction} {xs : List String} {f g : String → String}
    (hcode : code.filter (· ≠ .sentinel) = copyCode (xs.map fun x => (f x, g x))) (hnodup : xs.Nodup)
    (hinj : ∀ x x', g x = g x' → x = x') (hne : ∀ x ∈ xs, ∀ x' ∈ xs, f x ≠ g x') :
    CopiesAll code (xs.map fun x => (f x, g x)) := by
  intro V M heap
  rw [hcode]
  obtain ⟨n, final, hruns, hsame, hcopied⟩ := exists_runs_copyCode M
    ((copyCode (xs.map fun x => (f x, g x))).map Item.instruction) (xs.map fun x => (f x, g x)) heap
  refine ⟨n, final, hruns, hcopied ?_ fun p hp hmem => ?_, hsame⟩
  · rw [List.map_map]
    exact hnodup.map hinj
  · obtain ⟨x, hx, rfl⟩ := List.mem_map.mp hp
    rw [List.map_map] at hmem
    obtain ⟨x', hx', heq⟩ := List.mem_map.mp hmem
    exact hne x hx x' hx' heq.symm

end ControlFlow

/-! ### The instances that a program uses -/

/-- A program uses no instance of a module twice. -/
theorem ProgramSource.nodup_instances (source : ProgramSource) {key : String} {guids : List Guid}
    (h : source.instances.get? key = some guids) : guids.Nodup := by
  revert key guids
  refine List.foldlRecOn (motive := fun all : OrderedMap String (List Guid) =>
    ∀ {key guids}, all.get? key = some guids → guids.Nodup) source.data.allActions _
    (fun hget => by cases hget) fun all hall a _ key guids hget => ?_
  dsimp only at hget
  split at hget
  · rename_i called _ guid _
    have hknown : ((all.get? called).getD []).Nodup := by
      cases hcalled : all.get? called with
      | none => exact List.nodup_nil
      | some known => exact hall hcalled
    rw [OrderedMap.get?_insert] at hget
    split at hget
    · cases hget
      split
      · exact hknown
      · rename_i hnot
        exact (List.nodup_cons.mpr ⟨hnot, hknown⟩).perm (List.perm_append_singleton _ _).symm
    · exact hall hget
  · exact hall hget

namespace Emission

variable {ctx : Context} {tracked : Bool} {e e' : Emission}

/-- The instances that a program uses stay the same while it is compiled. -/
theorem Advance.instances (h : Advance ctx tracked e e') : e'.linker.instances = e.linker.instances := by
  cases h with
  | altered h => rw [Stays.linker (.of_step h)]
  | @merged m aliases _ _ =>
    rcases Linker.run_mergeOwn m ctx.settings.includeEventHooks aliases e.linkage with
      ⟨failure, -, hown⟩ | ⟨-, hown⟩
    · rw [hown]
      rfl
    · rw [hown]
      rfl

theorem Advances.instances (h : Advances ctx tracked e e') :
    e'.linker.instances = e.linker.instances := by
  induction h with
  | refl => rfl
  | tail _ hlast ih => exact hlast.instances.trans ih

end Emission

/-- Only a variable of a module with the rest of a name gets a name with the module's beginning. -/
theorem Emission.eq_of_symbols_own {ctx : Context} {e : Emission} {m : Linkable} {t : Renaming}
    (hctx : ctx.Sound) (hl : Linked ctx e) (hn : e.Named) (ht : e.Carries ctx m t) {x y : String}
    (h : t.symbols.get? y = some (t.namePrefix ++ x)) :
    y = x ∧ m.HasOwnVariable ctx.settings.includeEventHooks x := by
  obtain ⟨ordinal, aliases, hrecord⟩ := hl.record_of ht
  have hbegins : Begins "__m" (t.namePrefix ++ x) := by
    rw [hrecord.namePrefix]
    exact begins_mergedPrefix ordinal x
  rcases image_symbols hctx hl ht h with himage | himage
  · cases himage with
    | stems hstems =>
      obtain rfl := hstems.inj hctx hl ht (.own (P := fun _ _ => True) trivial rfl)
      obtain ⟨id, v, hv, rfl⟩ := hrecord.known h
      refine ⟨rfl, id, v, hv, rfl, ?_⟩
      rw [Bool.eq_false_iff]
      intro hparam
      have hkind : v.kind = .eventParam := by simpa using (Bool.and_eq_true_iff.mp hparam).1
      have hkept : (naming ctx ordinal aliases).variableName? v = some (v.name, false) := by
        rw [Renaming.Naming.variableName?_of_kind_ne (by simp [hkind]) (by simp [hkind])]
        exact if_pos hparam
      rw [hrecord.symbols hv (by simp [hkind]), hkept, hrecord.namePrefix] at h
      exact mergedPrefix_append_ne (Option.some.inj h).symm
    | kept hy hmerged _ => exact absurd (hy ▸ hbegins) hmerged
  · obtain ⟨_, _, _, _, _, j, hj, hname⟩ := himage.constant
    have hconstant := begins_nameOf hn hj
    rw [← hname] at hconstant
    exact absurd hbegins (hconstant.not_begins (by decide) (by decide))

/-! ### The storage of instances -/

/-- The storage of the instances of a merged module. For every variable of which each instance has its
own there is one variable for each instance, and one that the code of the module uses. -/
structure InstanceStorage (m : Linkable) (t : Renaming) (program : Program)
    (own : Nat → String → VarId) (shared : String → VarId) : Prop where
  /-- The variables are like that of the module, except that the one which the code uses is not synced. -/
  like {x : String} : x ∈ Linker.duplicated m t → ∃ v, m.program.symbols.byName? x = some v ∧
    (∃ c, program.symbols.get? (shared x) = some c ∧ t.symbols.get? x = some c.name ∧
      c.type = v.type ∧ c.default = v.default ∧ c.sync = .notSynced) ∧
    ∀ k < t.instances.length, ∃ w, program.symbols.get? (own k x) = some w ∧
      w.type = v.type ∧ w.default = v.default ∧ w.sync = v.sync
  /-- No variable serves two instances, or two variables of the module. -/
  distinct {k k' : Nat} {x x' : String} : k < t.instances.length → k' < t.instances.length →
    x ∈ Linker.duplicated m t → x' ∈ Linker.duplicated m t → own k x = own k' x' → k = k' ∧ x = x'
  /-- No other variable has the name of an instance's variable. -/
  named {k : Nat} {x : String} {id : VarId} : k < t.instances.length → x ∈ Linker.duplicated m t →
    program.symbols.nameOf id = program.symbols.nameOf (own k x) → id = own k x
  /-- No variable of the module has become an instance's variable. -/
  apart {k : Nat} {x y z : String} : k < t.instances.length → x ∈ Linker.duplicated m t →
    t.symbols.get? y = some z → program.symbols.idOfName? z ≠ some (own k x)
  /-- Before a call the variables of the instance are copied to those that the code uses. -/
  copyIn {k : Nat} {c : InstanceCopies} : t.instances[k]? = some c →
    ControlFlow.CopiesAll (program.methods.codeOf c.copyIn) ((Linker.duplicated m t).map fun x =>
      (program.symbols.nameOf (own k x), program.symbols.nameOf (shared x)))
  /-- After a call the variables that the code uses are copied back. -/
  copyOut {k : Nat} {c : InstanceCopies} : t.instances[k]? = some c →
    ControlFlow.CopiesAll (program.methods.codeOf c.copyOut) ((Linker.duplicated m t).map fun x =>
      (program.symbols.nameOf (shared x), program.symbols.nameOf (own k x)))

namespace Linker.Merging

variable {m : Linkable} {t : Renaming} {vars : List Variable}

/-- The code that copies the variables of an instance to those that the code of the module uses. -/
theorem filter_load (k : Nat) (hvars : ∀ v ∈ vars, m.program.symbols.byName? v.name = some v ∧
      t.symbols.get? v.name = some (t.namePrefix ++ v.name)) :
    ((slots m (vars.map Variable.name) t k).flatMap fun (own, shared, _) =>
      [Instruction.push own, .push shared, .copy]).filter (· ≠ .sentinel) =
        ControlFlow.copyCode ((vars.map Variable.name).map fun x =>
          (instanceSlot t.namePrefix k x, t.namePrefix ++ x)) := by
  rw [slots_eq k hvars, ControlFlow.copyCode, List.filter_flatMap, List.map_map, List.flatMap_map,
    List.flatMap_map]
  rfl

/-- The code that copies the variables that the code of the module uses to those of an instance. -/
theorem filter_store (k : Nat) (hvars : ∀ v ∈ vars, m.program.symbols.byName? v.name = some v ∧
      t.symbols.get? v.name = some (t.namePrefix ++ v.name)) :
    ((slots m (vars.map Variable.name) t k).flatMap fun (own, shared, v) =>
      [Instruction.push shared, .push own, .copy] ++
        if v.sync.isSynced then [.sentinel] else []).filter (· ≠ .sentinel) =
        ControlFlow.copyCode ((vars.map Variable.name).map fun x =>
          (t.namePrefix ++ x, instanceSlot t.namePrefix k x)) := by
  rw [slots_eq k hvars, ControlFlow.copyCode, List.filter_flatMap, List.map_map, List.flatMap_map,
    List.flatMap_map]
  refine List.flatMap_congr fun v _ => ?_
  dsimp only
  split
  · rfl
  · rfl

end Linker.Merging

variable {c : InstanceCopies} {k ordinal : Nat}

namespace Linker

open Merging

/-- The variable that an instance has of its own for a variable of the module. -/
def ownId (t : Renaming) (heap : SymbolTable) (k : Nat) (x : String) : VarId :=
  (heap.idOfName? (instanceSlot t.namePrefix k x)).getD 0

/-- The variable that the code of the module uses. -/
def sharedId (t : Renaming) (heap : SymbolTable) (x : String) : VarId :=
  (heap.idOfName? (t.namePrefix ++ x)).getD 0

section

variable {m : Linkable} {t : Renaming} {before heap : SymbolTable} {count : Nat} {v : Variable}

theorem Stored.get?_ownId (h : Stored before heap t count v) (hp : heap.Proper)
    (hk : k < count) : before.get? (ownId t heap k v.name) = none ∧
      heap.get? (ownId t heap k v.name) =
        some (v.importedAs (instanceSlot t.namePrefix k v.name)) := by
  obtain ⟨id, hnone, hid⟩ := h.own hk
  have hfound : ownId t heap k v.name = id := congrArg (Option.getD · 0) (hp.unique hid)
  rw [hfound]
  exact ⟨hnone, hid⟩

theorem Stored.nameOf_ownId (h : Stored before heap t count v) (hp : heap.Proper)
    (hk : k < count) :
    heap.nameOf (ownId t heap k v.name) = instanceSlot t.namePrefix k v.name := by
  rw [SymbolTable.nameOf, (h.get?_ownId hp hk).2]
  rfl

theorem Stored.get?_sharedId (h : Stored before heap t count v) (hp : heap.Proper) :
    ∃ c, heap.get? (sharedId t heap v.name) = some c ∧ c.name = t.namePrefix ++ v.name ∧
      c.type = v.type ∧ c.default = v.default ∧ c.sync = .notSynced := by
  obtain ⟨id, c, hid, hname, hdata⟩ := h.shared
  have hunique := hp.unique hid
  rw [hname] at hunique
  have hfound : sharedId t heap v.name = id := congrArg (Option.getD · 0) hunique
  rw [hfound]
  exact ⟨c, hid, hname, hdata⟩

theorem Stored.nameOf_sharedId (h : Stored before heap t count v) (hp : heap.Proper) :
    heap.nameOf (sharedId t heap v.name) = t.namePrefix ++ v.name := by
  obtain ⟨c, hc, hname, -⟩ := h.get?_sharedId hp
  rw [SymbolTable.nameOf, hc]
  exact hname

end

section

variable {m : Linkable} {n : Renaming.Naming} {instances : List Guid} {program : Program} {s : Merging}
  (hout : Outcome m n instances program s)

include hout

theorem Outcome.length_instances : s.names.instances.length = instances.length := by
  rw [hout.copies, List.length_map, List.length_zipIdx]

theorem Outcome.exists_instance (hc : s.names.instances[k]? = some c) :
    ∃ guid, (guid, k) ∈ instances.zipIdx ∧ c = copyMethods s.names k guid := by
  rw [hout.copies, List.getElem?_map, List.getElem?_zipIdx, Option.map_map] at hc
  obtain ⟨guid, hguid, rfl⟩ := Option.map_eq_some_iff.mp hc
  exact ⟨guid, List.mk_mem_zipIdx_iff_getElem?.mpr hguid, by simp⟩

theorem Outcome.exists_copied (hp : m.program.symbols.Proper) :
    ∃ vars : List Variable, duplicated m s.names = vars.map Variable.name ∧
      (vars.map Variable.name).Nodup ∧
      ∀ v ∈ vars, m.program.symbols.byName? v.name = some v ∧
        s.names.symbols.get? v.name = some (s.names.namePrefix ++ v.name) := by
  obtain ⟨vars, hvars, hnodup, -, hcopied⟩ := Linker.exists_copied hp
    (hout.adding.namePrefix.trans (Renaming.namePrefix_build _ _)) hout.adding.symbols
  exact ⟨vars, (duplicated_congr m hout.adding.shared).trans hvars, hnodup, hcopied⟩

/-- The code of the methods that copy the variables of an instance, in a caller that has no code under
the names of the module before. -/
theorem Outcome.filter_codeOf_copies (hp : m.program.symbols.Proper)
    (hbeginning : n.namePrefix = mergedPrefix ordinal) (hcopy : ∀ x, m.HasMethod x → ¬IsCopyName x)
    (hcode : ∀ x, program.methods.codeOf (s.names.namePrefix ++ x) = [])
    (hc : s.names.instances[k]? = some c) :
    (s.program.methods.codeOf c.copyIn).filter (· ≠ .sentinel) =
      ControlFlow.copyCode ((duplicated m s.names).map fun x =>
        (instanceSlot s.names.namePrefix k x, s.names.namePrefix ++ x)) ∧
    (s.program.methods.codeOf c.copyOut).filter (· ≠ .sentinel) =
      ControlFlow.copyCode ((duplicated m s.names).map fun x =>
        (s.names.namePrefix ++ x, instanceSlot s.names.namePrefix k x)) := by
  obtain ⟨guid, hguid, rfl⟩ := hout.exists_instance hc
  obtain ⟨vars, hvars, -, hcopied⟩ := hout.exists_copied hp
  have hchunk {chunk : Method}
      (hmem : chunk ∈ instanceChunks m (duplicated m s.names) s.names k guid)
      (hname : chunk.name = (copyMethods s.names k guid).copyIn ∨
        chunk.name = (copyMethods s.names k guid).copyOut) :
      s.program.methods.codeOf chunk.name = chunk.code := by
    obtain ⟨x, -, hx⟩ := isCopyName_copyMethods s.names k guid hname
    rw [duplicated_congr m hout.adding.shared] at hmem
    rw [hout.codeOf_copy hbeginning hcopy (List.mem_flatMap.mpr ⟨_, hguid, hmem⟩), hx, hcode,
      List.nil_append]
  have hload := hchunk (List.mem_cons_self) (Or.inl rfl)
  have hstore := hchunk (List.mem_cons_of_mem _ List.mem_cons_self) (Or.inr rfl)
  dsimp only at hload hstore
  rw [hload, hstore, hvars]
  exact ⟨filter_load k hcopied, filter_store k hcopied⟩

/-- The methods of an instance copy between its variables and those that the code of the module uses, if
no variable of the module has become an instance's variable. -/
theorem Outcome.copiesAll (hp : m.program.symbols.Proper)
    (hbeginning : n.namePrefix = mergedPrefix ordinal) (hcopy : ∀ x, m.HasMethod x → ¬IsCopyName x)
    (hapart : ∀ k < s.names.instances.length, ∀ x ∈ duplicated m s.names, ∀ y,
      s.names.symbols.get? y ≠ some (instanceSlot s.names.namePrefix k x))
    (hcode : ∀ x, program.methods.codeOf (s.names.namePrefix ++ x) = [])
    (hc : s.names.instances[k]? = some c) :
    ControlFlow.CopiesAll (s.program.methods.codeOf c.copyIn) ((duplicated m s.names).map fun x =>
      (instanceSlot s.names.namePrefix k x, s.names.namePrefix ++ x)) ∧
    ControlFlow.CopiesAll (s.program.methods.codeOf c.copyOut) ((duplicated m s.names).map fun x =>
      (s.names.namePrefix ++ x, instanceSlot s.names.namePrefix k x)) := by
  obtain ⟨vars, hvars, hnodup, hcopied⟩ := hout.exists_copied hp
  rw [← hvars] at hnodup
  have hne : ∀ x ∈ duplicated m s.names, ∀ x' ∈ duplicated m s.names,
      instanceSlot s.names.namePrefix k x ≠ s.names.namePrefix ++ x' := by
    intro x hx x' hx' heq
    rw [hvars] at hx'
    obtain ⟨v, hv, rfl⟩ := List.mem_map.mp hx'
    exact hapart k (List.getElem?_eq_some_iff.mp hc).1 x hx v.name (heq ▸ (hcopied v hv).2)
  obtain ⟨hload, hstore⟩ := hout.filter_codeOf_copies hp hbeginning hcopy hcode hc
  exact ⟨ControlFlow.copiesAll_of_filter_eq hload hnodup
      (fun x x' heq => append_right_cancel_iff.mp heq) hne,
    ControlFlow.copiesAll_of_filter_eq hstore hnodup
      (fun x x' heq => (instanceSlot_inj heq).2) fun x hx x' hx' => (hne x' hx' x hx).symm⟩

/-- What is stored for each variable, and the code that the merge has added, make up the storage of the
instances, if no variable of the module has become an instance's variable. -/
theorem instanceStorage_of_stored (hp : m.program.symbols.Proper)
    (hbeginning : n.namePrefix = mergedPrefix ordinal) (hcopy : ∀ x, m.HasMethod x → ¬IsCopyName x)
    (hstored : ∀ x ∈ duplicated m s.names, ∃ v, m.program.symbols.byName? x = some v ∧ v.name = x ∧
      Stored program.symbols s.program.symbols s.names s.names.instances.length v)
    (hapart : ∀ k < s.names.instances.length, ∀ x ∈ duplicated m s.names, ∀ y,
      s.names.symbols.get? y ≠ some (instanceSlot s.names.namePrefix k x))
    (hcode : ∀ x, program.methods.codeOf (s.names.namePrefix ++ x) = []) :
    InstanceStorage m s.names s.program (ownId s.names s.program.symbols)
      (sharedId s.names s.program.symbols) := by
  have hproper := hout.adding.imported.proper
  obtain ⟨vars, hvars, hnodup, hcopied⟩ := hout.exists_copied hp
  rw [← hvars] at hnodup
  have hsymbol {x : String} (hx : x ∈ duplicated m s.names) :
      s.names.symbols.get? x = some (s.names.namePrefix ++ x) := by
    rw [hvars] at hx
    obtain ⟨v, hv, rfl⟩ := List.mem_map.mp hx
    exact (hcopied v hv).2
  have hown {k : Nat} {x : String} (hk : k < s.names.instances.length)
      (hx : x ∈ duplicated m s.names) :
      s.program.symbols.nameOf (ownId s.names s.program.symbols k x) =
        instanceSlot s.names.namePrefix k x := by
    obtain ⟨v, -, rfl, hst⟩ := hstored x hx
    exact hst.nameOf_ownId hproper hk
  have hshared {x : String} (hx : x ∈ duplicated m s.names) :
      s.program.symbols.nameOf (sharedId s.names s.program.symbols x) = s.names.namePrefix ++ x := by
    obtain ⟨v, -, rfl, hst⟩ := hstored x hx
    exact hst.nameOf_sharedId hproper
  refine ⟨fun {x} hx => ?_, fun {k k' x x'} hk hk' hx hx' heq => ?_, fun {k x id} hk hx heq => ?_,
    fun {k x y z} hk hx hy hid => ?_, fun {k c} hc => ?_, fun {k c} hc => ?_⟩
  · obtain ⟨v, hv, rfl, hst⟩ := hstored x hx
    obtain ⟨c, hc, hcname, hdata⟩ := hst.get?_sharedId hproper
    refine ⟨v, hv, ⟨c, hc, by rw [hsymbol hx, hcname], hdata⟩, fun k hk => ?_⟩
    exact ⟨_, (hst.get?_ownId hproper hk).2, rfl, rfl, rfl⟩
  · have hnames : instanceSlot s.names.namePrefix k x = instanceSlot s.names.namePrefix k' x' := by
      rw [← hown hk hx, ← hown hk' hx', heq]
    exact instanceSlot_inj hnames
  · obtain ⟨v, -, rfl, hst⟩ := hstored x hx
    have hslot := (hst.get?_ownId hproper hk).2
    rw [hst.nameOf_ownId hproper hk, SymbolTable.nameOf] at heq
    cases hid : s.program.symbols.get? id with
    | none =>
      have hbegins := begins_mergedPrefix ordinal (instanceName k v.name)
      rw [hid, instanceSlot_eq, hout.adding.namePrefix, Renaming.namePrefix_build, hbeginning] at heq
      rw [← heq] at hbegins
      exact absurd hbegins (by decide)
    | some w =>
      have hunique := hproper.unique hid
      rw [hid] at heq
      rw [show w.name = _ from heq] at hunique
      exact Option.some.inj (hunique.symm.trans (hproper.unique hslot))
  · obtain ⟨v, -, rfl, hst⟩ := hstored x hx
    obtain ⟨w, hw, hname⟩ := hout.adding.imported.consistent.names hid
    rw [(hst.get?_ownId hproper hk).2] at hw
    cases hw
    exact hapart k hk v.name hx y (hy.trans (congrArg some hname.symm))
  · have hk := (List.getElem?_eq_some_iff.mp hc).1
    rw [List.map_congr_left fun x hx => by rw [hown hk hx, hshared hx]]
    exact (hout.copiesAll hp hbeginning hcopy hapart hcode hc).1
  · have hk := (List.getElem?_eq_some_iff.mp hc).1
    rw [List.map_congr_left fun x hx => by rw [hown hk hx, hshared hx]]
    exact (hout.copiesAll hp hbeginning hcopy hapart hcode hc).2

end

end Linker

/-- A merge adds the module, with variables and methods for each instance, to a program that has the nested
modules. Only a variable of the module with the rest of a name gets a name with the module's beginning, and
no code stands under such a name before. -/
theorem Emission.exists_outcome_of_merge {ctx : Context} (hctx : ctx.Sound) {e : Emission}
    (hbefore : Moves ctx (.start ctx.source) e) {m : Linkable} (hm : ctx.modules.get? m.key = some m)
    (hnew : e.linker.merged.get? m.key = none) {t : Renaming} {s : Linkage}
    (hmerge : (Linker.merge ctx.settings.includeEventHooks m).run e.linkage = (.ok t, s)) :
    ∃ aliases mid, Moves ctx e (e.withLinkage mid) ∧
      (Linker.mergeNested ctx.settings.includeEventHooks m.nested).run e.linkage = (.ok aliases, mid) ∧
      Linker.addModule m ((ctx.source.instances.get? m.key).getD []) mid.program
        (Renaming.build m (naming ctx mid.linker.nextOrdinal aliases)) = ⟨s.program, t⟩ ∧
      Linker.Outcome m (naming ctx mid.linker.nextOrdinal aliases)
        ((ctx.source.instances.get? m.key).getD []) mid.program ⟨s.program, t⟩ ∧
      (∀ x y, t.symbols.get? y = some (t.namePrefix ++ x) →
        y = x ∧ m.HasOwnVariable ctx.settings.includeEventHooks x) ∧
      ∀ x, mid.program.methods.codeOf (t.namePrefix ++ x) = [] := by
  have hsane := hctx.toSane
  obtain ⟨aliases, mid, hnested, hrun, hadded⟩ := exists_addModule_of_run_merge hsane hm hnew hmerge
  have hmid := hbefore.trans hnested
  obtain ⟨homid, htmid⟩ := hmid.tidy hctx
  rw [show mid.linker.instances = ctx.source.instances from hmid.instances] at hadded
  have hout : Linker.Outcome m (naming ctx mid.linker.nextOrdinal aliases)
      ((ctx.source.instances.get? m.key).getD []) mid.program ⟨s.program, t⟩ := by
    rw [← hadded]
    exact homid.toNamed.outcome hsane hm ctx.settings.includeEventHooks aliases _
  refine ⟨aliases, mid, hnested, hrun, hadded, hout, fun x y hy => ?_, fun x => ?_⟩
  · obtain ⟨ho, ht⟩ := (hbefore.trans (moves_merge hsane hm hmerge)).tidy hctx
    have hmerged := Linker.get?_merge (congrArg Prod.fst hmerge)
    rw [hmerge] at hmerged
    exact eq_of_symbols_own hctx ht.linked ho.toNamed ⟨hm, hmerged⟩ hy
  · refine MethodTable.codeOf_of_not_contains (Bool.eq_false_iff.mpr fun hcontains => ?_)
    rw [show t.namePrefix = mergedPrefix mid.linker.nextOrdinal from
      hout.adding.namePrefix.trans (Renaming.namePrefix_build _ _)] at hcontains
    exact htmid.not_uses hctx homid.toNamed (Nat.le_refl _) x (.method hcontains)

/-- Merging a compiled module at any point of a compilation separates the instances that the program
uses, if no variable of the module has the name of an instance's variable. The variables of the instances
are in the program neither before the merge nor after the merge of the modules nested in the module. -/
theorem instances_separate {settings : Settings} {cache : ModuleCache} (hcache : cache.Compiled settings)
    {source : ProgramSource} {point : Point} {e : Emission}
    (he : Context.Reaches { source, catalogue := .builtin, modules := cache, settings } point e)
    {m : Linkable} (hm : cache.get? m.key = some m) (hnew : e.linker.merged.get? m.key = none)
    {t : Renaming} {s : Linkage}
    (hmerge : (Linker.merge settings.includeEventHooks m).run e.linkage = (.ok t, s))
    (hclear : ∀ k < t.instances.length, ∀ x ∈ Linker.duplicated m t,
      ¬m.HasOwnVariable settings.includeEventHooks (Linker.Merging.instanceName k x)) :
    t.instances.map InstanceCopies.guid = (source.instances.get? m.key).getD [] ∧
    (t.instances.map InstanceCopies.guid).Nodup ∧
    ∃ own shared, InstanceStorage m t s.program own shared ∧
      ∀ k < t.instances.length, ∀ x ∈ Linker.duplicated m t,
        e.program.symbols.get? (own k x) = none ∧ ∀ aliases mid,
          (Linker.mergeNested settings.includeEventHooks m.nested).run e.linkage =
            (.ok aliases, mid) → mid.program.symbols.get? (own k x) = none := by
  have hctx := hcache.sound source
  have hsane := hctx.toSane
  obtain ⟨hbefore, -⟩ := he.moves hsane
  obtain ⟨aliases, mid, hnested, hrun, hadded, hout, hnames, hcode⟩ :=
    Emission.exists_outcome_of_merge hctx hbefore hm hnew hmerge
  have hn := ((hbefore.trans hnested).tidy hctx).1.toNamed
  have hlength : t.instances.length = ((source.instances.get? m.key).getD []).length :=
    hout.length_instances
  have hdup := Linker.Merging.duplicated_congr m hout.adding.shared
  dsimp only at hdup
  have hstored : ∀ x ∈ Linker.duplicated m t, ∃ v, m.program.symbols.byName? x = some v ∧
      v.name = x ∧ Linker.Stored mid.program.symbols s.program.symbols t t.instances.length v := by
    intro x hx
    obtain ⟨v, hv, hname, hst⟩ := Linker.stored_addModule (hctx.heap hm).proper rfl
      hn.consistent hn.proper hn.unmerged _ (by rwa [← hlength, ← hdup]) (hdup ▸ hx)
    rw [show (e.withLinkage mid).program = mid.program from rfl, hadded, ← hlength] at hst
    exact ⟨v, hv, hname, hst⟩
  have hapart : ∀ k < t.instances.length, ∀ x ∈ Linker.duplicated m t, ∀ y,
      t.symbols.get? y ≠ some (Linker.Merging.instanceSlot t.namePrefix k x) := by
    intro k hk x hx y hy
    rw [Linker.Merging.instanceSlot_eq] at hy
    exact hclear k hk x hx (hnames _ y hy).2
  have hguids : t.instances.map InstanceCopies.guid = (source.instances.get? m.key).getD [] := by
    have hcopies := hout.copies
    dsimp only at hcopies
    rw [hcopies, List.map_map]
    exact List.zipIdx_map_fst 0 _
  have hproper : s.program.symbols.Proper := hout.adding.imported.proper
  refine ⟨hguids, ?_, _, _, Linker.instanceStorage_of_stored hout (hctx.heap hm).proper rfl
    (fun _ => (hctx.modules hm).not_isCopyName) hstored hapart hcode, fun k hk x hx => ?_⟩
  · rw [hguids]
    cases hsource : source.instances.get? m.key with
    | none => exact List.nodup_nil
    | some guids => exact source.nodup_instances hsource
  · obtain ⟨v, -, rfl, hst⟩ := hstored x hx
    have hfresh := (hst.get?_ownId hproper hk).1
    refine ⟨?_, fun aliases' mid' hmid' => ?_⟩
    · rw [Option.eq_none_iff_forall_ne_some]
      intro w hw
      have hconsistent := (hbefore.orderly hsane (Emission.orderly_start _)).consistent
      obtain ⟨w', hw', -⟩ := (hnested.evolves hconsistent).heap.keeps.vars hw
      rw [show (e.withLinkage mid).program = mid.program from rfl, hfresh] at hw'
      cases hw'
    · rw [hrun] at hmid'
      cases hmid'
      exact hfresh

/-- A module with instances and two variables, one of them synced. -/
def sampleStore (name : String) : ProgramSource where
  key := "store"
  data :=
    { vars := [{ guid := sampleGuid 1, name := "x", type := .int, default := some (.int 7), sync := .synced },
        { guid := sampleGuid 2, name, type := .int, default := some (.int 8) }]
      events := [{ trigger := .custom "run" [] }] }
  interface? := some { entries := [.ofCustomEvent "run" "run" []], multiInstance := true }

def sampleStoreCache (name : String) : ModuleCache :=
  (compileInOrder .builtin {} .empty [sampleStore name]).2

def sampleStoreModule (name : String) : Linkable := ((sampleStoreCache name).get? "store").getD default

/-- A program that calls instances of the module. -/
def sampleCaller (instances : List Guid) : ProgramSource where
  key := "caller"
  data :=
    { events := [{ trigger := .custom "run" []
                   actions := instances.map fun guid =>
                     { action := .moduleEntry "store" "run" (some guid) } }] }

/-- The state of the program before its first event. -/
def sampleCallerState (instances : List Guid) : Emission :=
  (((sampleCaller instances).data.vars.forM
    (Emit.declareVariable (sampleCaller instances).data.sync) : Emit Unit)
      (.start (sampleCaller instances))).2

/-- A merge that has been evaluated. -/
theorem exists_merge_of_eval (m : Linkable) (s : Linkage) (names : List String) (count : Nat)
    (heval : ((Linker.merge true m).run s).1.toOption.map (fun t =>
      (Linker.duplicated m t, t.instances.length)) = some (names, count))
    (hnames : ∀ k < count, ∀ x ∈ names,
      Linker.Merging.instanceName k x ∉ m.program.symbols.toList.map (·.2.name)) :
    ∃ t s', (Linker.merge true m).run s = (.ok t, s') ∧ Linker.duplicated m t = names ∧
      t.instances.length = count ∧ ∀ k < t.instances.length, ∀ x ∈ Linker.duplicated m t,
        ¬m.HasOwnVariable true (Linker.Merging.instanceName k x) := by
  rcases hrun : (Linker.merge true m).run s with ⟨result, s'⟩
  rw [hrun] at heval
  cases result with
  | error failure => cases heval
  | ok t =>
      simp only [Except.toOption, Option.map_some, Option.some.injEq, Prod.mk.injEq] at heval
      obtain ⟨rfl, rfl⟩ := heval
      refine ⟨t, s', rfl, rfl, rfl, ?_⟩
      rintro k hk x hx ⟨id, v, hv, hname, -⟩
      exact hnames k hk x hx (List.mem_map.mpr ⟨(id, v), OrderedMap.get?_eq_some_iff.mp hv, hname⟩)

/-- Two instances of a module with two variables have four variables of their own. -/
theorem instances_separate_sampleStore :
    ∃ t s, (Linker.merge true (sampleStoreModule "y")).run
        (sampleCallerState [sampleGuid 3, sampleGuid 4]).linkage = (.ok t, s) ∧
      Linker.duplicated (sampleStoreModule "y") t = ["x", "y"] ∧
      t.instances.map InstanceCopies.guid = [sampleGuid 3, sampleGuid 4] ∧
      ∃ own shared, InstanceStorage (sampleStoreModule "y") t s.program own shared := by
  have hcache : (sampleStoreCache "y").Compiled {} := by
    rw [sampleStoreCache]
    exact ModuleCache.compiled_empty.compileInOrder (by decide) fun _ _ => rfl
  have hm : (sampleStoreCache "y").get? (sampleStoreModule "y").key =
      some (sampleStoreModule "y") := by
    have hkey : (sampleStoreModule "y").key = "store" := by decide +kernel
    have hsome : ((sampleStoreCache "y").get? "store").isSome = true := by decide +kernel
    rw [hkey, ← Option.some_get hsome, sampleStoreModule, Option.get_eq_getD]
  have hnew : (sampleCallerState [sampleGuid 3, sampleGuid 4]).linker.merged.get?
      (sampleStoreModule "y").key = none := by decide +kernel
  have hguids : ((sampleCaller [sampleGuid 3, sampleGuid 4]).instances.get?
      (sampleStoreModule "y").key).getD [] = [sampleGuid 3, sampleGuid 4] := by decide +kernel
  obtain ⟨t, s, hrun, hdup, -, hclear⟩ := exists_merge_of_eval (sampleStoreModule "y")
    (sampleCallerState [sampleGuid 3, sampleGuid 4]).linkage ["x", "y"] 2 (by decide +kernel)
    (by decide +kernel)
  obtain ⟨hinstances, -, own, shared, hstorage, -⟩ := instances_separate hcache .start hm hnew hrun hclear
  exact ⟨t, s, hrun, hdup, hinstances.trans hguids, own, shared, hstorage⟩

/-- A variable with the name of an instance's variable stands in the way: the instance gets no synced
variable of its own. -/
theorem sampleStore_not_separate :
    ∃ t s, (Linker.merge true (sampleStoreModule "i0_x")).run
        (sampleCallerState [sampleGuid 3]).linkage = (.ok t, s) ∧
      t.symbols.get? "i0_x" = some (Linker.Merging.instanceSlot t.namePrefix 0 "x") ∧
      ¬∃ own shared, InstanceStorage (sampleStoreModule "i0_x") t s.program own shared := by
  have hresult : ((Linker.merge true (sampleStoreModule "i0_x")).run
      (sampleCallerState [sampleGuid 3]).linkage).1.toOption.map (fun t =>
        (Linker.duplicated (sampleStoreModule "i0_x") t, t.instances.length,
          t.symbols.get? "i0_x", Linker.Merging.instanceSlot t.namePrefix 0 "x")) =
      some (["x", "i0_x"], 1, some "__m0_i0_x", "__m0_i0_x") := by decide +kernel
  have hheap : ((Linker.merge true (sampleStoreModule "i0_x")).run
      (sampleCallerState [sampleGuid 3]).linkage).2.program.symbols.toList.all
        (fun e => e.2.sync = .notSynced) = true := by decide +kernel
  have hsynced : ((sampleStoreModule "i0_x").program.symbols.byName? "x").map Variable.sync =
      some .synced := by decide +kernel
  rcases hrun : (Linker.merge true (sampleStoreModule "i0_x")).run
    (sampleCallerState [sampleGuid 3]).linkage with ⟨result, s⟩
  rw [hrun] at hresult hheap
  cases result with
  | error failure => cases hresult
  | ok t =>
      simp only [Except.toOption, Option.map_some, Option.some.injEq, Prod.mk.injEq] at hresult
      obtain ⟨hdup, hlength, hsymbol, hslot⟩ := hresult
      refine ⟨t, s, rfl, hsymbol.trans (congrArg some hslot.symm), ?_⟩
      rintro ⟨own, shared, hstorage⟩
      obtain ⟨v, hv, -, hown⟩ := hstorage.like (x := "x") (by rw [hdup]; decide)
      obtain ⟨w, hw, -, -, hsync⟩ := hown 0 (by rw [hlength]; decide)
      rw [hv, Option.map_some, Option.some.injEq] at hsynced
      have hquiet := List.all_eq_true.mp hheap _ (OrderedMap.get?_eq_some_iff.mp hw)
      rw [decide_eq_true_eq, hsync, hsynced] at hquiet
      cases hquiet

end TriggerCompiler
