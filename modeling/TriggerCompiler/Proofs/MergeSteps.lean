import TriggerCompiler.Proofs.MergedModules

/-! What the merge of a module adds to a program, and what later stays of it. The methods of the module get
its beginning of names and their code is renamed instruction by instruction; a later merge has another
number, so it touches none of them. -/

open Relation

namespace TriggerCompiler

open Text

/-! ### What the merge of a module adds -/

theorem filter_eq_singleton_of_nodup {α β : Type} [DecidableEq β] {f : α → β} {l : List α} {a : α}
    (hnodup : (l.map f).Nodup) (ha : a ∈ l) : (l.filter fun b => f b = f a) = [a] := by
  induction l with
  | nil => cases ha
  | cons b l ih =>
    rw [List.map_cons, List.nodup_cons] at hnodup
    have hrest : ∀ c ∈ l, f c ≠ f b := fun c hc heq => hnodup.1 (heq ▸ List.mem_map_of_mem hc)
    rcases List.mem_cons.mp ha with rfl | ha
    · rw [List.filter_cons, if_pos (by simp), List.filter_eq_nil_iff.mpr]
      simpa using hrest
    · rw [List.filter_cons, if_neg (by simpa using (hrest a ha).symm), ih hnodup.2 ha]

namespace MethodTable

variable {t : MethodTable} {x y : String}

theorem nodup_names (t : MethodTable) : (t.toList.map Method.name).Nodup := by
  have hnames : t.toList.map Method.name = t.bodies.keys := by
    rw [toList, List.map_map]
    rfl
  rw [hnames]
  exact t.bodies.nodup

theorem get?_remove (t : MethodTable) (x y : String) :
    (t.remove x).bodies.get? y = if x = y then none else t.bodies.get? y := t.bodies.get?_erase x y

theorem codeOf_remove (h : y ≠ x) : (t.remove x).codeOf y = t.codeOf y := by
  rw [codeOf, get?_remove, if_neg h.symm]
  rfl

theorem contains_remove : (t.remove x).contains y = true ↔ y ≠ x ∧ t.contains y = true := by
  rw [contains_iff, contains_iff, get?_remove]
  by_cases hxy : x = y
  · simp [hxy]
  · simp [hxy, Ne.symm hxy]

theorem placed_remove {l : String} (h : l ∈ (t.remove x).placed) : l ∈ t.placed := by
  obtain ⟨y, hy⟩ := mem_placed.mp h
  refine mem_placed.mpr ⟨y, ?_⟩
  by_cases hyx : y = x
  · subst hyx
    rw [codeOf, get?_remove, if_pos rfl] at hy
    cases hy
  · rwa [codeOf_remove hyx] at hy

end MethodTable

variable {ordinal : Nat} {x y : String}

namespace Linker

open Merging

variable {m : Linkable} {n : Renaming.Naming} {instances : List Guid} {program : Program}
  {s : Merging} {c : Method}

theorem stripHooks_sublist (keys : List String) (state : Option String) (code : List Instruction) :
    (stripHooks keys state code).Sublist code := by
  induction code generalizing state with
  | nil => rw [stripHooks]
  | cons i code ih =>
    cases state with
    | some ending =>
      rw [stripHooks]
      split
      · exact (ih _).cons _
      · exact (ih _).cons _
    | none =>
      rw [stripHooks]
      split
      · exact (ih _).cons _
      · exact (ih _).cons_cons _

/-- Whether a method is one that the merge of a module adds: a method that belongs to no nested module,
under its name in the caller, or one that copies the variables of an instance. The machine may call those
that it calls in the module, and those that variables name. -/
inductive IsChunk (m : Linkable) (n : Renaming.Naming) (named : List String) (t : Renaming)
    (c : Method) : Prop
  | hook {method : Method} (hmethod : method ∈ m.program.methods.toList)
      (hhook : (n.includeHooks && Renaming.isEventHook method.name) = true)
      (hname : c.name = method.name) (hcode : c.code = renamedCode m t method true)
  | own {method : Method} (hmethod : method ∈ m.program.methods.toList)
      (hhook : (n.includeHooks && Renaming.isEventHook method.name) = false)
      (hown : Renaming.aliased? n.aliases Renaming.methods method.name = none)
      (hshared : method.name ∉ t.shared) (hname : c.name = n.namePrefix ++ method.name)
      (hcode : c.code = method.code.map t.instruction) (hexported : c.exported = true → c.name ∈ named)
  | copy {x : String} (hx : IsCopyName x) (hname : c.name = n.namePrefix ++ x)
      (hcode : placedIn c.code = []) (hexported : c.exported = false)

theorem isCopyName_copyMethods (t : Renaming) (k : Nat) (guid : Guid)
    (h : y = (copyMethods t k guid).copyIn ∨ y = (copyMethods t k guid).copyOut) :
    ∃ x, IsCopyName x ∧ y = t.namePrefix ++ x := by
  rcases h with rfl | rfl
  · refine ⟨_, ⟨k, _, List.mem_cons_self, rfl⟩, ?_⟩
    show t.namePrefix ++ "i" ++ toString k ++ "__copy_in" = _
    simp only [String.append_assoc]
    rfl
  · refine ⟨_, ⟨k, _, List.mem_cons_of_mem _ List.mem_cons_self, rfl⟩, ?_⟩
    show t.namePrefix ++ "i" ++ toString k ++ "__copy_out" = _
    simp only [String.append_assoc]
    rfl

theorem placedIn_flatMap_eq_nil {α : Type} {l : List α} {f : α → List Instruction}
    (h : ∀ a, placedIn (f a) = []) : placedIn (l.flatMap f) = [] := by
  induction l with
  | nil => rfl
  | cons a l ih => rw [List.flatMap_cons, placedIn_append, h, ih, List.nil_append]

theorem Outcome.isChunk (h : Outcome m n instances program s)
    (hbeginning : n.namePrefix = mergedPrefix ordinal) {named : List String}
    (hc : c ∈ chunks m named (Renaming.build m n) s.names instances) : IsChunk m n named s.names c := by
  rcases List.mem_append.mp hc with hc | hc
  · obtain ⟨method, hmethod, hchunk⟩ := List.mem_filterMap.mp hc
    obtain ⟨hmethod, hshared⟩ := List.mem_filter.mp hmethod
    have hshared : method.name ∉ s.names.shared := by simpa [Renaming.isShared] using hshared
    have hcontains := MethodTable.contains_of_mem hmethod
    rw [methodChunk, h.adding.methods, Renaming.methods_build, if_pos hcontains, Option.map_some]
      at hchunk
    cases hchunk
    by_cases hhook : (n.includeHooks && Renaming.isEventHook method.name) = true
    · have hname : (n.method method.name).1 = method.name := by
        rw [Renaming.Naming.method, if_pos hhook]
      refine .hook hmethod hhook hname ?_
      simp only [hname, decide_true]
    · cases haliased : Renaming.aliased? n.aliases Renaming.methods method.name with
      | some y =>
        refine absurd ?_ hshared
        rw [h.adding.shared]
        refine Renaming.mem_shared_build.mpr (Or.inl ⟨hcontains, ?_⟩)
        rw [Renaming.Naming.method, if_neg hhook, haliased]
      | none =>
        have hname : (n.method method.name).1 = n.namePrefix ++ method.name := by
          rw [Renaming.Naming.method, if_neg hhook, haliased]
        have hne : n.namePrefix ++ method.name ≠ method.name := by
          rw [hbeginning]
          exact mergedPrefix_append_ne
        refine .own hmethod (by simpa using hhook) haliased hshared hname ?_ ?_
        · simp only [hname, hne, decide_false]
          rfl
        · simp [hname, hne]
  · obtain ⟨⟨guid, k⟩, -, hc⟩ := List.mem_flatMap.mp hc
    rcases List.mem_cons.mp hc with rfl | hc
    · obtain ⟨x, hx, hname⟩ := isCopyName_copyMethods s.names k guid (Or.inl rfl)
      rw [h.adding.namePrefix, Renaming.namePrefix_build] at hname
      exact .copy hx hname (placedIn_flatMap_eq_nil fun _ => rfl) rfl
    · rw [List.mem_singleton.mp hc]
      obtain ⟨x, hx, hname⟩ := isCopyName_copyMethods s.names k guid (Or.inr rfl)
      rw [h.adding.namePrefix, Renaming.namePrefix_build] at hname
      refine .copy hx hname (placedIn_flatMap_eq_nil fun slot => ?_) rfl
      rw [placedIn_append]
      split
      · rfl
      · rfl

theorem Outcome.name_method (h : Outcome m n instances program s) (hx : m.HasMethod x)
    (hshared : x ∉ s.names.shared) : (n.method x).1 =
      if (n.includeHooks && Renaming.isEventHook x) = true then x else n.namePrefix ++ x := by
  rw [Renaming.Naming.method]
  split
  · rfl
  · rename_i hnot
    cases haliased : Renaming.aliased? n.aliases Renaming.methods x with
    | none => rfl
    | some z =>
      refine absurd ?_ hshared
      rw [h.adding.shared]
      refine Renaming.mem_shared_build.mpr (Or.inl ⟨hx, ?_⟩)
      rw [Renaming.Naming.method, if_neg hnot, haliased]

/-- A method that the machine calls has a single leading underscore. -/
theorem isEventHook_ne_mergedPrefix
    (hx : Renaming.isEventHook x = true) : x ≠ mergedPrefix ordinal ++ y := by
  rintro rfl
  exact (begins_of_isEventHook hx).2
    ((by decide : Begins "__" "__m").trans (begins_mergedPrefix ordinal _))

/-- The methods of a module that belong to no nested module have different names in the caller. -/
theorem Outcome.name_method_inj (h : Outcome m n instances program s)
    (hbeginning : n.namePrefix = mergedPrefix ordinal) (hx : m.HasMethod x)
    (hy : m.HasMethod y) (hxshared : x ∉ s.names.shared) (hyshared : y ∉ s.names.shared)
    (heq : (n.method x).1 = (n.method y).1) : x = y := by
  rw [h.name_method hx hxshared, h.name_method hy hyshared, hbeginning] at heq
  split at heq
  · rename_i hhook
    simp only [Bool.and_eq_true] at hhook
    split at heq
    · exact heq
    · exact absurd heq (isEventHook_ne_mergedPrefix hhook.2)
  · split at heq
    · rename_i hhook
      simp only [Bool.and_eq_true] at hhook
      exact absurd heq.symm (isEventHook_ne_mergedPrefix hhook.2)
    · exact append_right_cancel_iff.mp heq

/-- The methods that copy the variables of an instance have names that no method of the module gets. -/
theorem Outcome.name_copy_ne (h : Outcome m n instances program s)
    (hbeginning : n.namePrefix = mergedPrefix ordinal) (hcopy : ∀ x, m.HasMethod x → ¬IsCopyName x)
    (hx : m.HasMethod x) (hshared : x ∉ s.names.shared) {copies : List String} {k : Nat}
    {guid : Guid} {c : Method} (hc : c ∈ instanceChunks m copies s.names k guid) :
    c.name ≠ (n.method x).1 := by
  have hcname : c.name = (copyMethods s.names k guid).copyIn ∨
      c.name = (copyMethods s.names k guid).copyOut := by
    rcases List.mem_cons.mp hc with rfl | hc
    · exact Or.inl rfl
    · rw [List.mem_singleton.mp hc]
      exact Or.inr rfl
  obtain ⟨y, hy, hyname⟩ := isCopyName_copyMethods s.names k guid hcname
  rw [h.adding.namePrefix, Renaming.namePrefix_build] at hyname
  rw [hyname, h.name_method hx hshared]
  split
  · rename_i hhook
    simp only [Bool.and_eq_true] at hhook
    rw [hbeginning]
    exact (isEventHook_ne_mergedPrefix hhook.2).symm
  · intro heq
    exact hcopy _ hx (append_right_cancel_iff.mp heq ▸ hy)

/-- The code that the merge of a module adds to the method that a method of the module becomes. -/
theorem Outcome.codeOf_method (h : Outcome m n instances program s)
    (hbeginning : n.namePrefix = mergedPrefix ordinal) (hcopy : ∀ x, m.HasMethod x → ¬IsCopyName x)
    {method : Method} (hmethod : method ∈ m.program.methods.toList)
    (hshared : method.name ∉ s.names.shared) :
    s.program.methods.contains (n.method method.name).1 = true ∧
      s.program.methods.codeOf (n.method method.name).1 =
        program.methods.codeOf (n.method method.name).1 ++
          renamedCode m s.names method ((n.method method.name).1 = method.name) := by
  obtain ⟨heap, -, hmethods⟩ := h.methods
  generalize heap.namedMethods = named at hmethods
  have hx : m.HasMethod method.name := MethodTable.contains_of_mem hmethod
  -- The methods of the module that belong to no nested module, as the caller gets them.
  let chunk (μ : Method) : Method :=
    { name := (n.method μ.name).1
      exported := (n.method μ.name).1 = μ.name || (n.method μ.name).1 ∈ named
      code := renamedCode m s.names μ ((n.method μ.name).1 = μ.name) }
  have hchunks : (m.program.methods.toList.filter fun μ => !s.names.isShared μ.name).filterMap
      (methodChunk m named s.names) =
        (m.program.methods.toList.filter fun μ => !s.names.isShared μ.name).map chunk := by
    rw [← List.filterMap_eq_map]
    refine List.filterMap_congr fun μ hμ => ?_
    have hcontains := MethodTable.contains_of_mem (List.mem_filter.mp hμ).1
    rw [methodChunk, h.adding.methods, Renaming.methods_build, if_pos hcontains]
    rfl
  have hmem : method ∈ m.program.methods.toList.filter fun μ => !s.names.isShared μ.name :=
    List.mem_filter.mpr ⟨hmethod, by simpa [Renaming.isShared] using hshared⟩
  have honly : (m.program.methods.toList.filter fun μ => !s.names.isShared μ.name).filter
      (fun μ => (chunk μ).name = (n.method method.name).1) = [method] := by
    rw [← filter_eq_singleton_of_nodup (f := Method.name)
      (m.program.methods.nodup_names.sublist ((List.filter_sublist).map _)) hmem]
    refine List.filter_congr fun μ hμ => ?_
    obtain ⟨hμ, hμshared⟩ := List.mem_filter.mp hμ
    rw [decide_eq_decide]
    refine ⟨fun heq => ?_, fun heq => congrArg (fun x => (n.method x).1) heq⟩
    exact h.name_method_inj hbeginning (MethodTable.contains_of_mem hμ) hx
      (by simpa [Renaming.isShared] using hμshared) hshared heq
  have hinstances : (instances.zipIdx.flatMap fun e => instanceChunks m
      (duplicated m (Renaming.build m n)) s.names e.2 e.1).filter
        (fun c => c.name = (n.method method.name).1) = [] := by
    rw [List.filter_eq_nil_iff]
    intro c hc
    obtain ⟨⟨guid, k⟩, -, hc⟩ := List.mem_flatMap.mp hc
    rw [decide_eq_true_eq]
    exact h.name_copy_ne hbeginning hcopy hx hshared hc
  rw [hmethods, chunks, hchunks]
  refine ⟨MethodTable.contains_foldl_merge.mpr (Or.inr ⟨chunk method, ?_, rfl⟩), ?_⟩
  · exact List.mem_append_left _ (List.mem_map_of_mem hmem)
  · rw [MethodTable.codeOf_foldl_merge, List.filter_append, hinstances, List.append_nil,
      List.filter_map, List.flatMap_map, show ((fun c : Method => decide (c.name =
        (n.method method.name).1)) ∘ chunk) =
          fun μ => decide ((chunk μ).name = (n.method method.name).1) from rfl,
      honly, List.flatMap_singleton]

/-- The code that the merge of a module adds to the method that an own method of the module becomes. -/
theorem Outcome.codeOf_own (h : Outcome m n instances program s)
    (hbeginning : n.namePrefix = mergedPrefix ordinal) (hcopy : ∀ x, m.HasMethod x → ¬IsCopyName x)
    (hx : m.HasMethod x) (hshared : x ∉ s.names.shared)
    (hhook : (n.includeHooks && Renaming.isEventHook x) = false) :
    s.program.methods.contains (n.namePrefix ++ x) = true ∧
      s.program.methods.codeOf (n.namePrefix ++ x) =
        program.methods.codeOf (n.namePrefix ++ x) ++
          (m.program.methods.codeOf x).map s.names.instruction := by
  obtain ⟨method, hmethod, rfl, hcode⟩ := MethodTable.exists_mem_toList hx
  have hadded := h.codeOf_method hbeginning hcopy hmethod hshared
  have hne : (n.namePrefix ++ method.name = method.name) = False := by
    rw [hbeginning]
    exact eq_false mergedPrefix_append_ne
  rw [h.name_method hx hshared, hhook, if_neg Bool.false_ne_true] at hadded
  simp only [hne, decide_false] at hadded
  rw [← hcode]
  exact hadded

/-- The code that the merge of a module adds to a method that the machine calls. -/
theorem Outcome.codeOf_hook (h : Outcome m n instances program s)
    (hbeginning : n.namePrefix = mergedPrefix ordinal) (hcopy : ∀ x, m.HasMethod x → ¬IsCopyName x)
    {method : Method} (hmethod : method ∈ m.program.methods.toList)
    (hshared : method.name ∉ s.names.shared)
    (hhook : (n.includeHooks && Renaming.isEventHook method.name) = true) :
    s.program.methods.codeOf method.name = program.methods.codeOf method.name ++
      renamedCode m s.names method true := by
  have hadded := (h.codeOf_method hbeginning hcopy hmethod hshared).2
  rw [h.name_method (MethodTable.contains_of_mem hmethod) hshared, if_pos hhook] at hadded
  simpa only [decide_true] using hadded

/-- A merge adds no code to a method that the machine calls if the module has no such method. -/
theorem Outcome.codeOf_otherHook (h : Outcome m n instances program s)
    (hbeginning : n.namePrefix = mergedPrefix ordinal)
    (hhook : Renaming.isEventHook x = true) (hx : ¬m.HasMethod x) :
    s.program.methods.codeOf x = program.methods.codeOf x := by
  obtain ⟨heap, -, hmethods⟩ := h.methods
  rw [hmethods, MethodTable.codeOf_foldl_merge, List.filter_eq_nil_iff.mpr, List.flatMap_nil,
    List.append_nil]
  intro c hc
  rw [decide_eq_true_eq]
  rintro rfl
  cases h.isChunk hbeginning hc with
  | hook hmethod _ hname _ => exact hx (hname ▸ MethodTable.contains_of_mem hmethod)
  | own _ _ _ _ hname _ _ =>
    rw [hbeginning] at hname
    exact isEventHook_ne_mergedPrefix hhook hname
  | copy _ hname _ _ =>
    rw [hbeginning] at hname
    exact isEventHook_ne_mergedPrefix hhook hname

end Linker

/-! ### What stays of a merge -/

namespace Emission

variable {ctx : Context} {e e' : Emission} {m : Linkable} {ordinal : Nat}
  {aliases : List Renaming.Alias} {t : Renaming}

/-- A later state: modules stay merged under their names, variables stay, and so does the code of the
methods that merges have added. -/
structure Grows (e e' : Emission) : Prop where
  linker {key : String} {t : Renaming} : e.linker.merged.get? key = some t →
    e'.linker.merged.get? key = some t
  ordinal : e.linker.nextOrdinal ≤ e'.linker.nextOrdinal
  heap : e.program.symbols.Extends e'.program.symbols
  code {k : Nat} {x : String} : k < e.linker.nextOrdinal →
    e.program.methods.contains (mergedPrefix k ++ x) = true →
    e'.program.methods.contains (mergedPrefix k ++ x) = true ∧
      e'.program.methods.codeOf (mergedPrefix k ++ x) =
        e.program.methods.codeOf (mergedPrefix k ++ x)

theorem Grows.carries (h : e.Grows e') (ht : e.Carries ctx m t) : e'.Carries ctx m t :=
  ⟨ht.cached, h.linker ht.merged⟩

theorem Grows.merges (h : e.Grows e') {P : Linkable → String → Prop}
    (hy : e.Merges ctx P y) : e'.Merges ctx P y := by
  obtain ⟨n, t, b, ht, hy, hP⟩ := hy
  exact ⟨n, t, b, h.carries ht, hy, hP⟩

theorem Record.grow (h : Record ctx e m ordinal aliases t) (hgrows : e.Grows e')
    (hc : e.program.symbols.Consistent) : Record ctx e' m ordinal aliases t := by
  refine ⟨h.cached, h.valid, Nat.lt_of_lt_of_le h.ordinal_lt hgrows.ordinal, h.key, ?_, h.methods, h.labels,
    h.shared, h.namePrefix, h.copies, h.symbols, h.known, fun hv hshared => ?_,
    fun {x} hx hshared hhook => ?_⟩
  · exact h.nested.imp fun _ _ ha => ⟨ha.1, hgrows.linker ha.2⟩
  · exact (h.has hv hshared).mono rfl rfl hc hgrows.heap
  · have hcode := h.code hx hshared hhook
    rw [h.namePrefix] at hcode ⊢
    have hlater := hgrows.code h.ordinal_lt hcode.1
    exact ⟨hlater.1, hlater.2.trans hcode.2⟩

theorem Linked.grow (h : Linked ctx e) (hgrows : e.Grows e') (hc : e.program.symbols.Consistent)
    (hlinker : e'.linker.merged = e.linker.merged) : Linked ctx e' := by
  refine ⟨fun ht => ?_, fun ht ht' hbeginning => ?_⟩
  · rw [hlinker] at ht
    obtain ⟨m, ordinal, aliases, hkey, hrecord⟩ := h.record ht
    exact ⟨m, ordinal, aliases, hkey, hrecord.grow hgrows hc⟩
  · rw [hlinker] at ht ht'
    exact h.distinct ht ht' hbeginning

/-- The state after a module has been merged: the module is recorded with a number of its own. -/
structure IsMerge (ctx : Context) (m : Linkable) (aliases : List Renaming.Alias) (s : Linker.Merging)
    (e e' : Emission) : Prop where
  valid : (Renaming.build m (naming ctx e.linker.nextOrdinal aliases)).validate m = .ok ()
  outcome : Linker.Outcome m (naming ctx e.linker.nextOrdinal aliases)
    ((e.linker.instances.get? m.key).getD []) e.program s
  key : s.names.key = m.key
  program : e'.program = s.program
  merged : e'.linker.merged = e.linker.merged.insert m.key s.names
  nextOrdinal : e'.linker.nextOrdinal = e.linker.nextOrdinal + 1

/-- A merge leaves the program as it is, or adds the module. -/
theorem Named.merge_cases (h : e.Named) (hsane : ctx.Sane) (hm : ctx.modules.get? m.key = some m)
    (aliases : List Renaming.Alias) :
    e.withLinkage ((Linker.mergeOwn m ctx.settings.includeEventHooks aliases).run e.linkage).2 = e ∨
    ∃ s, IsMerge ctx m aliases s e (e.withLinkage
      ((Linker.mergeOwn m ctx.settings.includeEventHooks aliases).run e.linkage).2) := by
  rcases Linker.run_mergeOwn m ctx.settings.includeEventHooks aliases e.linkage with
    ⟨failure, -, hrun⟩ | ⟨hvalid, hrun⟩
  · rw [hrun]
    exact Or.inl rfl
  · rw [hrun]
    refine Or.inr ⟨_, hvalid, h.outcome hsane hm ctx.settings.includeEventHooks aliases _, ?_, rfl, rfl, rfl⟩
    rw [Linker.key_addModule, Renaming.key_build]

namespace IsMerge

variable {s : Linker.Merging}

theorem carries (h : IsMerge ctx m aliases s e e') (hm : ctx.modules.get? m.key = some m) :
    e'.Carries ctx m s.names := by
  refine ⟨hm, ?_⟩
  rw [h.merged, OrderedMap.get?_insert, if_pos rfl]

/-- The modules that have been merged behind a merge: the new one and those of before. -/
theorem carries_cases (h : IsMerge ctx m aliases s e e') (hm : ctx.modules.get? m.key = some m)
    {n : Linkable} (hn : e'.Carries ctx n t) :
    n = m ∧ t = s.names ∨ e.Carries ctx n t ∧ n.key ≠ m.key := by
  have hget := hn.merged
  rw [h.merged, OrderedMap.get?_insert] at hget
  split at hget
  · rename_i heq
    have hcached := hn.cached
    rw [← heq, hm] at hcached
    exact Or.inl ⟨(Option.some.inj hcached).symm, (Option.some.inj hget).symm⟩
  · rename_i hne
    exact Or.inr ⟨⟨hn.cached, hget⟩, Ne.symm hne⟩

theorem carries_of (h : IsMerge ctx m aliases s e e')
    (hnew : e.linker.merged.get? m.key = none) {n : Linkable} (hn : e.Carries ctx n t) :
    e'.Carries ctx n t := by
  refine ⟨hn.cached, ?_⟩
  rw [h.merged, OrderedMap.get?_insert, if_neg, hn.merged]
  intro heq
  have hmerged := hn.merged
  rw [← heq, hnew] at hmerged
  cases hmerged

theorem namePrefix (h : IsMerge ctx m aliases s e e') :
    s.names.namePrefix = mergedPrefix e.linker.nextOrdinal :=
  h.outcome.adding.namePrefix.trans (Renaming.namePrefix_build _ _)

/-- The record of a module that has just been merged. -/
theorem record (h : IsMerge ctx m aliases s e e') (hm : ctx.modules.get? m.key = some m)
    (haliases : e'.linker.Aliases m.nested aliases) (hcopy : ∀ x, m.HasMethod x → ¬IsCopyName x)
    (hfree : ∀ x, e.program.methods.contains (mergedPrefix e.linker.nextOrdinal ++ x) = false) :
    Record ctx e' m e.linker.nextOrdinal aliases s.names := by
  have hadding := h.outcome.adding
  refine ⟨hm, h.valid, ?_, h.key, haliases, hadding.methods, hadding.labels, hadding.shared, h.namePrefix,
    fun c hc => ?_, hadding.symbols, hadding.known, fun hv hshared => ?_, fun {x} hx hshared hhook => ?_⟩
  · rw [h.nextOrdinal]
    exact Nat.lt_succ_self _
  · rw [h.outcome.copies] at hc
    obtain ⟨⟨guid, k⟩, -, rfl⟩ := List.mem_map.mp hc
    exact ⟨k, rfl⟩
  · rw [h.program]
    exact h.outcome.has hv (hadding.shared ▸ hshared)
  · have hcode := h.outcome.codeOf_own rfl hcopy hx hshared hhook
    rw [h.program, h.namePrefix]
    refine ⟨hcode.1, hcode.2.trans ?_⟩
    rw [show e.program.methods.codeOf ((naming ctx e.linker.nextOrdinal aliases).namePrefix ++ x) = []
      from MethodTable.codeOf_of_not_contains (hfree x), List.nil_append]

/-- After the merge of a module, every merged module has its record. -/
theorem linked (h : IsMerge ctx m aliases s e e') (hl : Linked ctx e)
    (hc : e.program.symbols.Consistent) (hgrows : e.Grows e')
    (hrecord : Record ctx e' m e.linker.nextOrdinal aliases s.names) : Linked ctx e' := by
  -- An older merge has a smaller number.
  have hother {key : String} {t : Renaming} (ht : e.linker.merged.get? key = some t) :
      t.namePrefix ≠ s.names.namePrefix := by
    obtain ⟨m', ordinal, aliases', -, hold⟩ := hl.record ht
    rw [hold.namePrefix, h.namePrefix]
    intro heq
    have hlt := hold.ordinal_lt
    rw [mergedPrefix_inj heq] at hlt
    exact Nat.lt_irrefl _ hlt
  have hcases {key : String} {t : Renaming} (ht : e'.linker.merged.get? key = some t) :
      key = m.key ∧ t = s.names ∨ e.linker.merged.get? key = some t := by
    rw [h.merged, OrderedMap.get?_insert] at ht
    split at ht
    · rename_i heq
      exact Or.inl ⟨heq.symm, (Option.some.inj ht).symm⟩
    · exact Or.inr ht
  refine ⟨fun {key t} ht => ?_, fun {key key' t t'} ht ht' hbeginning => ?_⟩
  · rcases hcases ht with ⟨rfl, rfl⟩ | ht
    · exact ⟨m, _, aliases, rfl, hrecord⟩
    · obtain ⟨m', ordinal, aliases', hkey, hold⟩ := hl.record ht
      exact ⟨m', ordinal, aliases', hkey, hold.grow hgrows hc⟩
  · rcases hcases ht with ⟨rfl, rfl⟩ | ht
    · rcases hcases ht' with ⟨rfl, -⟩ | ht'
      · rfl
      · exact absurd hbeginning.symm (hother ht')
    · rcases hcases ht' with ⟨rfl, rfl⟩ | ht'
      · exact absurd hbeginning (hother ht)
      · exact hl.distinct ht ht' hbeginning

end IsMerge

end Emission

end TriggerCompiler
