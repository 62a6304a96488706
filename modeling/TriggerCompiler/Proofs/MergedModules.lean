import TriggerCompiler.Proofs.ModuleNames

/-! The modules that a program has merged. The names of each follow from the number of its merge and from
the names of the modules nested in it, and the methods that it has added stay as they are. -/

open Relation

namespace TriggerCompiler

open Text

/-- A usual context whose modules are sound. -/
structure Context.Sound (ctx : Context) : Prop extends ctx.Sane where
  modules {key : String} {m : Linkable} : ctx.modules.get? key = some m →
    m.Sound ctx.settings.includeEventHooks

variable {l start x : String}

namespace Emission

variable {ctx : Context} {e e' : Emission} {m n : Linkable} {ordinal : Nat}
  {aliases : List Renaming.Alias} {t u : Renaming}

/-- A module of the context that a program has merged, with the names that it has there. -/
structure Carries (ctx : Context) (e : Emission) (m : Linkable) (t : Renaming) : Prop where
  cached : ctx.modules.get? m.key = some m
  merged : e.linker.merged.get? m.key = some t

/-- A name that a merged module has brought, behind the beginning of its names. -/
def Merges (ctx : Context) (e : Emission) (P : Linkable → String → Prop) (y : String) : Prop :=
  ∃ n t b, e.Carries ctx n t ∧ y = t.namePrefix ++ b ∧ P n b

/-- What the names of the merge with a number depend on. -/
def naming (ctx : Context) (ordinal : Nat) (aliases : List Renaming.Alias) : Renaming.Naming :=
  ⟨mergedPrefix ordinal, ctx.settings.includeEventHooks, aliases⟩

/-- The names of a module in a program that has merged it, the variables that the program has for those
of the module, and the code that it has for the methods which the merge has added. -/
structure Record (ctx : Context) (e : Emission) (m : Linkable) (ordinal : Nat)
    (aliases : List Renaming.Alias) (t : Renaming) : Prop where
  cached : ctx.modules.get? m.key = some m
  valid : (Renaming.build m (naming ctx ordinal aliases)).validate m = .ok ()
  ordinal_lt : ordinal < e.linker.nextOrdinal
  key : t.key = m.key
  nested : e.linker.Aliases m.nested aliases
  methods : t.methods = (Renaming.build m (naming ctx ordinal aliases)).methods
  labels : t.labels = (Renaming.build m (naming ctx ordinal aliases)).labels
  shared : t.shared = (Renaming.build m (naming ctx ordinal aliases)).shared
  namePrefix : t.namePrefix = mergedPrefix ordinal
  copies : ∀ c ∈ t.instances, ∃ k, c = Linker.Merging.copyMethods t k c.guid
  symbols {id : VarId} {v : Variable} : m.program.symbols.get? id = some v → v.kind ≠ .constant →
    t.symbols.get? v.name = ((naming ctx ordinal aliases).variableName? v).map Prod.fst
  known {x y : String} : t.symbols.get? x = some y → m.HasVariable x
  has {id : VarId} {v : Variable} : m.program.symbols.get? id = some v →
    v.name ∉ t.shared → Linker.Merging.Has ⟨e.program, t⟩ v
  code {x : String} : m.HasMethod x → x ∉ t.shared →
    (ctx.settings.includeEventHooks && Renaming.isEventHook x) = false →
    e.program.methods.contains (t.namePrefix ++ x) = true ∧
      e.program.methods.codeOf (t.namePrefix ++ x) =
        (m.program.methods.codeOf x).map t.instruction

/-- Every module that has been merged has a record, and no two merges have the same number. -/
structure Linked (ctx : Context) (e : Emission) : Prop where
  record {key : String} {t : Renaming} : e.linker.merged.get? key = some t →
    ∃ m ordinal aliases, m.key = key ∧ Record ctx e m ordinal aliases t
  distinct {key key' : String} {t t' : Renaming} : e.linker.merged.get? key = some t →
    e.linker.merged.get? key' = some t' → t.namePrefix = t'.namePrefix → key = key'

theorem Linked.record_of (hl : Linked ctx e) (h : e.Carries ctx m t) :
    ∃ ordinal aliases, Record ctx e m ordinal aliases t := by
  obtain ⟨m', ordinal, aliases, hkey, hrecord⟩ := hl.record h.merged
  have hcached := hrecord.cached
  rw [hkey, h.cached] at hcached
  cases hcached
  exact ⟨ordinal, aliases, hrecord⟩

theorem Linked.eq_of_namePrefix (hl : Linked ctx e) (h : e.Carries ctx m t) (h' : e.Carries ctx n u)
    (heq : t.namePrefix = u.namePrefix) : m = n := by
  have hkey := hl.distinct h.merged h'.merged heq
  have hcached := h.cached
  rw [hkey, h'.cached] at hcached
  exact (Option.some.inj hcached).symm

/-! ### The names of one module -/

namespace Record

/-- The names that a nested module has in the caller. -/
theorem exists_alias (h : Record ctx e m ordinal aliases t) (hn : (start, n) ∈ m.nested) :
    ∃ names, (start, names) ∈ aliases ∧ e.linker.merged.get? n.key = some names := by
  obtain ⟨i, hi⟩ := List.mem_iff_get.mp hn
  have hall := List.forall₂_iff_get.mp h.nested
  have hlt : i.1 < aliases.length := by rw [hall.1]; exact i.2
  have hpair := hall.2 i.1 hlt i.2
  rw [show m.nested.get ⟨i.1, i.2⟩ = (start, n) from hi] at hpair
  refine ⟨(aliases.get ⟨i.1, hlt⟩).2, ?_, hpair.2⟩
  rw [show start = (aliases.get ⟨i.1, hlt⟩).1 from hpair.1.symm]
  exact List.get_mem _ _

theorem exists_nested (h : Record ctx e m ordinal aliases t) {names : Renaming}
    (ha : (start, names) ∈ aliases) :
    ∃ n, (start, n) ∈ m.nested ∧ e.linker.merged.get? n.key = some names := by
  obtain ⟨i, hi⟩ := List.mem_iff_get.mp ha
  have hall := List.forall₂_iff_get.mp h.nested
  have hlt : i.1 < m.nested.length := by rw [← hall.1]; exact i.2
  have hpair := hall.2 i.1 i.2 hlt
  rw [show aliases.get ⟨i.1, i.2⟩ = (start, names) from hi] at hpair
  refine ⟨(m.nested.get ⟨i.1, hlt⟩).2, ?_, hpair.2⟩
  rw [show start = (m.nested.get ⟨i.1, hlt⟩).1 from hpair.1]
  exact List.get_mem _ _

theorem carries_nested (h : Record ctx e m ordinal aliases t) (hctx : ctx.Sane)
    (hn : (start, n) ∈ m.nested) : ∃ names, e.Carries ctx n names := by
  obtain ⟨names, -, hnames⟩ := h.exists_alias hn
  exact ⟨names, hctx.nested h.cached ⟨start, hn⟩, hnames⟩

theorem map_fst_aliases (h : Record ctx e m ordinal aliases t) :
    aliases.map Prod.fst = m.nested.map Prod.fst := by
  refine List.forall₂_eq_eq_eq ▸ List.forall₂_map_left_iff.mpr (List.forall₂_map_right_iff.mpr ?_)
  exact h.nested.imp fun _ _ hname => hname.1

theorem regular (h : Record ctx e m ordinal aliases t) (hctx : ctx.Sound) :
    (naming ctx ordinal aliases).Regular := by
  have hsound := hctx.modules h.cached
  refine ⟨⟨ordinal, rfl⟩, fun a ha => ?_, ?_⟩
  · obtain ⟨n, hn, -⟩ := h.exists_nested ha
    exact hsound.starts _ hn
  · rw [show (naming ctx ordinal aliases).aliases = aliases from rfl, h.map_fst_aliases]
    exact hsound.nodup

/-- A name of a nested module is looked up in the names that the nested module has in the caller. -/
theorem aliased?_eq (h : Record ctx e m ordinal aliases t) (hctx : ctx.Sound)
    (hn : (start, n) ∈ m.nested) (hu : e.Carries ctx n u)
    (table : Renaming → OrderedMap String String) (b : String) :
    Renaming.aliased? aliases table (start ++ b) = (table u).get? b := by
  obtain ⟨names, ha, hget⟩ := h.exists_alias hn
  rw [hu.merged] at hget
  cases hget
  exact Renaming.aliased?_of_mem (h.regular hctx).nested (h.regular hctx).nodup ha b

theorem exists_of_aliased? (h : Record ctx e m ordinal aliases t) (hctx : ctx.Sane)
    {table : Renaming → OrderedMap String String} {y : String}
    (hy : Renaming.aliased? aliases table x = some y) :
    ∃ start n u b, (start, n) ∈ m.nested ∧ e.Carries ctx n u ∧ x = start ++ b ∧
      (table u).get? b = some y := by
  obtain ⟨start, names, b, ha, hx, hb⟩ := Renaming.exists_of_aliased? hy
  obtain ⟨n, hn, hnames⟩ := h.exists_nested ha
  exact ⟨start, n, names, b, hn, ⟨hctx.nested h.cached ⟨start, hn⟩, hnames⟩, hx, hb⟩

theorem methods_get? (h : Record ctx e m ordinal aliases t) (hx : m.HasMethod x) :
    t.methods.get? x = some ((naming ctx ordinal aliases).method x).1 := by
  rw [h.methods, Renaming.methods_build]
  exact if_pos hx

theorem hasMethod {y : String} (h : Record ctx e m ordinal aliases t)
    (hx : t.methods.get? x = some y) : m.HasMethod x := by
  rw [h.methods, Renaming.methods_build] at hx
  split at hx
  · assumption
  · cases hx

theorem labels_get? (h : Record ctx e m ordinal aliases t) (hl : m.HasLabel l) :
    t.labels.get? l = some ((naming ctx ordinal aliases).label l) := by
  rw [h.labels, Renaming.labels_build]
  exact if_pos hl

theorem hasLabel {y : String} (h : Record ctx e m ordinal aliases t)
    (hy : t.labels.get? l = some y) : m.HasLabel l := by
  rw [h.labels, Renaming.labels_build] at hy
  split at hy
  · assumption
  · cases hy

end Record

/-- A name of a module and the name that it gets in a caller: it is an own name of the module, or of a
module nested in it, and has the beginning that this module has in the caller. -/
inductive Stems (ctx : Context) (e : Emission) (P : Linkable → String → Prop) (m : Linkable)
    (t : Renaming) (x y : String) : Prop
  | own (h : P m x) (hy : y = t.namePrefix ++ x)
  | nested {start : String} {n : Linkable} {u : Renaming} {b : String}
      (hn : (start, n) ∈ m.nested) (hu : e.Carries ctx n u) (hx : x = start ++ b) (h : P n b)
      (hy : y = u.namePrefix ++ b)

namespace Stems

variable {P Q : Linkable → String → Prop} {x x' y : String}

theorem mono (h : Stems ctx e P m t x y) (hPQ : ∀ n b, P n b → Q n b) : Stems ctx e Q m t x y := by
  cases h with
  | own h hy => exact .own (hPQ _ _ h) hy
  | nested hn hu hx h hy => exact .nested hn hu hx (hPQ _ _ h) hy

theorem merges (h : Stems ctx e P m t x y) (ht : e.Carries ctx m t) : e.Merges ctx P y := by
  cases h with
  | own h hy => exact ⟨m, t, x, ht, hy, h⟩
  | nested _ hu _ h hy => exact ⟨_, _, _, hu, hy, h⟩

/-- Two names that become one are the same name. -/
theorem inj (hctx : ctx.Sound) (hl : Linked ctx e) (ht : e.Carries ctx m t)
    (h : Stems ctx e P m t x y) (h' : Stems ctx e Q m t x' y) : x = x' := by
  have hsplit {n n' : Linkable} {u u' : Renaming} {b b' : String} (hu : e.Carries ctx n u)
      (hu' : e.Carries ctx n' u') (heq : u.namePrefix ++ b = u'.namePrefix ++ b') :
      n = n' ∧ b = b' := by
    obtain ⟨k, _, hk⟩ := hl.record_of hu
    obtain ⟨j, _, hj⟩ := hl.record_of hu'
    rw [hk.namePrefix, hj.namePrefix] at heq
    obtain ⟨hkj, hb⟩ := mergedPrefix_append_inj heq
    refine ⟨hl.eq_of_namePrefix hu hu' ?_, hb⟩
    rw [hk.namePrefix, hj.namePrefix, hkj]
  have hother {start : String} {n : Linkable} (hn : (start, n) ∈ m.nested) : n ≠ m := by
    rintro rfl
    exact hctx.key_ne ht.cached (.single ⟨start, hn⟩) rfl
  cases h with
  | own h hy =>
    cases h' with
    | own h' hy' => exact (hsplit ht ht (hy.symm.trans hy')).2
    | nested hn' hu' _ _ hy' => exact absurd (hsplit ht hu' (hy.symm.trans hy')).1.symm (hother hn')
  | nested hn hu hx _ hy =>
    cases h' with
    | own h' hy' => exact absurd (hsplit hu ht (hy.symm.trans hy')).1 (hother hn)
    | nested hn' hu' hx' _ hy' =>
      obtain ⟨rfl, rfl⟩ := hsplit hu hu' (hy.symm.trans hy')
      rw [hx, hx', (hctx.modules ht.cached).keys hn hn' rfl]

end Stems

/-- A name that is not reserved has the beginning of the module, unless the caller shares it. -/
theorem Record.symbols_own (h : Record ctx e m ordinal aliases t) {id : VarId} {v : Variable}
    (hv : m.program.symbols.get? id = some v) (hconstant : v.kind ≠ .constant)
    (hsystem : v.kind ≠ .system)
    (hparam : (v.kind = .eventParam && ctx.settings.includeEventHooks) = false)
    (hnone : Renaming.aliased? aliases Renaming.symbols v.name = none) :
    t.symbols.get? v.name = some (t.namePrefix ++ v.name) := by
  rw [h.symbols hv hconstant, Renaming.Naming.variableName?_of_kind_ne hconstant hsystem,
    show (naming ctx ordinal aliases).includeHooks = ctx.settings.includeEventHooks from rfl, hparam,
    if_neg Bool.false_ne_true, show (naming ctx ordinal aliases).aliases = aliases from rfl, hnone,
    h.namePrefix]
  rfl

section

variable (hctx : ctx.Sound) (hl : Linked ctx e)
include hctx hl

/-- An own method of a module gets the beginning of the module. -/
theorem Carries.methods_own (h : e.Carries ctx m t) (hx : m.OwnMethod ctx.settings.includeEventHooks x) :
    t.methods.get? x = some (t.namePrefix ++ x) := by
  obtain ⟨ordinal, aliases, hrecord⟩ := hl.record_of h
  rw [hrecord.methods_get? hx.has, Renaming.Naming.method, show (naming ctx ordinal aliases).includeHooks
    = ctx.settings.includeEventHooks from rfl, hx.hook, if_neg Bool.false_ne_true]
  cases haliased : Renaming.aliased? (naming ctx ordinal aliases).aliases Renaming.methods x with
  | none => rw [hrecord.namePrefix]; rfl
  | some y =>
    obtain ⟨start, n, u, b, hn, hu, rfl, hb⟩ := hrecord.exists_of_aliased? hctx.toSane haliased
    obtain ⟨_, _, hrecord'⟩ := hl.record_of hu
    exact absurd ⟨start, n, b, hn, rfl, hrecord'.hasMethod hb⟩ hx.own

/-- The name of a method: a method that the machine calls keeps its name, and every other one has the
beginning of the module that it stems from. -/
theorem Carries.methods_cases (h : e.Carries ctx m t) (hx : m.HasMethod x) :
    (ctx.settings.includeEventHooks && Renaming.isEventHook x) = true ∧
      t.methods.get? x = some x ∨ ∃ y, t.methods.get? x = some y ∧
      Stems ctx e (Linkable.OwnMethod ctx.settings.includeEventHooks) m t x y := by
  obtain ⟨ordinal, aliases, hrecord⟩ := hl.record_of h
  have hsound := hctx.modules h.cached
  by_cases hhook : (ctx.settings.includeEventHooks && Renaming.isEventHook x) = true
  · refine Or.inl ⟨hhook, ?_⟩
    rw [hrecord.methods_get? hx, Renaming.Naming.method, show (naming ctx ordinal aliases).includeHooks
      = ctx.settings.includeEventHooks from rfl, if_pos hhook]
  · refine Or.inr ?_
    rw [Bool.not_eq_true] at hhook
    by_cases hlent : m.Lends Linkable.HasMethod x
    · obtain ⟨start, n, b, hn, rfl, hb⟩ := hlent
      obtain ⟨u, hu⟩ := hrecord.carries_nested hctx.toSane hn
      have hown := hsound.ownMethod_of_mem hn (hctx.modules hu.cached) hx hb
      refine ⟨u.namePrefix ++ b, ?_, .nested hn hu rfl hown rfl⟩
      rw [hrecord.methods_get? hx, Renaming.Naming.method, show (naming ctx ordinal aliases).includeHooks
        = ctx.settings.includeEventHooks from rfl, hhook, if_neg Bool.false_ne_true,
        show (naming ctx ordinal aliases).aliases = aliases from rfl, hrecord.aliased?_eq hctx hn hu,
        hu.methods_own hctx hl hown]
    · have hown : m.OwnMethod ctx.settings.includeEventHooks x := ⟨hx, hlent, hhook⟩
      exact ⟨_, h.methods_own hctx hl hown, .own hown rfl⟩

/-- An own label of a module gets the beginning of the module. -/
theorem Carries.labels_own (h : e.Carries ctx m t) (hown : m.OwnLabel l) :
    t.labels.get? l = some (t.namePrefix ++ l) := by
  obtain ⟨ordinal, aliases, hrecord⟩ := hl.record_of h
  rw [hrecord.labels_get? hown.has, Renaming.Naming.label,
    (hrecord.regular hctx).aliased?_eq_none hown.own.not_begins, hrecord.namePrefix]
  rfl

theorem Carries.labels_cases (h : e.Carries ctx m t) (hlabel : m.HasLabel l) :
    ∃ y, t.labels.get? l = some y ∧ Stems ctx e Linkable.OwnLabel m t l y := by
  obtain ⟨ordinal, aliases, hrecord⟩ := hl.record_of h
  rcases (hctx.modules h.cached).labels hlabel with hname | ⟨start, n, b, hn, rfl, hown⟩
  · exact ⟨_, h.labels_own hctx hl ⟨hlabel, hname⟩, .own ⟨hlabel, hname⟩ rfl⟩
  · obtain ⟨u, hu⟩ := hrecord.carries_nested hctx.toSane hn
    refine ⟨u.namePrefix ++ b, ?_, .nested hn hu rfl hown rfl⟩
    rw [hrecord.labels_get? hlabel, Renaming.Naming.label,
      show (naming ctx ordinal aliases).aliases = aliases from rfl, hrecord.aliased?_eq hctx hn hu,
      hu.labels_own hctx hl hown]
    rfl

/-- A variable that the merge of a nested module has added to the module. -/
theorem Carries.symbols_added (h : e.Carries ctx m t) (hx : m.HasVariable x)
    (hadds : m.AddsVariable ctx.settings.includeEventHooks x) :
    t.symbols.get? x = some (t.namePrefix ++ x) := by
  obtain ⟨ordinal, aliases, hrecord⟩ := hl.record_of h
  have hsound := hctx.modules h.cached
  cases hadds with
  | own hown =>
    obtain ⟨id, v, hv, rfl, hconstant, hsystem, hparam⟩ := hown.has
    refine hrecord.symbols_own hv hconstant hsystem hparam ?_
    rw [Option.eq_none_iff_forall_ne_some]
    intro y hy
    obtain ⟨start, n, u, b, hn, hu, hname, hb⟩ := hrecord.exists_of_aliased? hctx.toSane hy
    obtain ⟨_, _, hrecord'⟩ := hl.record_of hu
    exact hown.own ⟨start, n, b, hn, hname, hrecord'.known hb⟩
  | slot hslot =>
    -- A variable of the module with the name of a slot is one that its author has named.
    obtain ⟨id, v, hv, rfl⟩ := hx
    obtain ⟨-, k, hname⟩ := hslot
    have hbegins : Begins "i" v.name := by
      rw [hname, String.append_assoc, String.append_assoc]
      exact begins_append _ _
    have hfits := hsound.proper.fits hv
    have hreserved : ∀ start, Begins "__" start → ¬Begins start v.name := fun start hstart hs => by
      rcases (hstart.trans hs).or hbegins with hor | hor
      · exact absurd hor (by decide)
      · exact absurd hor (by decide)
    refine hrecord.symbols_own hv (fun hkind => ?_) (fun hkind => ?_) ?_ ?_
    · rw [hkind] at hfits
      exact hreserved _ (by decide) (Numbered.begins hfits)
    · rw [hkind] at hfits
      obtain ⟨which, hwhich⟩ := hfits
      refine hreserved which.name (by cases which <;> decide) ?_
      rw [hwhich]
      exact List.prefix_refl _
    · rw [Bool.and_eq_false_iff, decide_eq_false_iff_not]
      refine Or.inl fun hkind => ?_
      rcases hbegins.or (hsound.storage hv hkind) with hor | hor
      · exact absurd hor (by decide)
      · exact absurd hor (by decide)
    · exact (hrecord.regular hctx).aliased?_eq_none (hreserved _ (by decide)) _

/-- The name of a variable that is no constant: a system variable and the storage of a parameter of an
event keep their names, and every other one has the beginning of the module that it stems from. -/
theorem Carries.symbols_cases (h : e.Carries ctx m t) {id : VarId} {v : Variable}
    (hv : m.program.symbols.get? id = some v) (hconstant : v.kind ≠ .constant) :
    (v.kind = .system ∨ (v.kind = .eventParam && ctx.settings.includeEventHooks) = true) ∧
      t.symbols.get? v.name = some v.name ∨
    ∃ y, t.symbols.get? v.name = some y ∧ Stems ctx e Linkable.HasVariable m t v.name y := by
  obtain ⟨ordinal, aliases, hrecord⟩ := hl.record_of h
  have hsound := hctx.modules h.cached
  by_cases hsystem : v.kind = .system
  · refine Or.inl ⟨Or.inl hsystem, ?_⟩
    rw [hrecord.symbols hv hconstant, Renaming.Naming.variableName?, hsystem]
    rfl
  by_cases hparam : (v.kind = .eventParam && ctx.settings.includeEventHooks) = true
  · refine Or.inl ⟨Or.inr hparam, ?_⟩
    rw [hrecord.symbols hv hconstant, Renaming.Naming.variableName?_of_kind_ne hconstant hsystem,
      show (naming ctx ordinal aliases).includeHooks = ctx.settings.includeEventHooks from rfl,
      if_pos hparam]
    rfl
  refine Or.inr ?_
  rw [Bool.not_eq_true] at hparam
  cases haliased : Renaming.aliased? aliases Renaming.symbols v.name with
  | none =>
    exact ⟨_, hrecord.symbols_own hv hconstant hsystem hparam haliased, .own ⟨id, v, hv, rfl⟩ rfl⟩
  | some y =>
    obtain ⟨start, n, u, b, hn, hu, hname, hb⟩ := hrecord.exists_of_aliased? hctx.toSane haliased
    obtain ⟨_, _, hrecord'⟩ := hl.record_of hu
    have hadds := (hsound.addsVariable_of_mem hn hv hname).2
    have hb' := hu.symbols_added hctx hl (hrecord'.known hb) hadds
    refine ⟨u.namePrefix ++ b, ?_, .nested hn hu hname (hrecord'.known hb) rfl⟩
    rw [hrecord.symbols hv hconstant, Renaming.Naming.variableName?_of_kind_ne hconstant hsystem,
      show (naming ctx ordinal aliases).includeHooks = ctx.settings.includeEventHooks from rfl,
      hparam, if_neg Bool.false_ne_true,
      show (naming ctx ordinal aliases).aliases = aliases from rfl, haliased]
    rw [hb] at hb'
    cases hb'
    rfl

omit hl in
/-- The names that are shared with nested modules have their beginnings. -/
theorem Record.notMem_shared (h : Record ctx e m ordinal aliases t)
    (hx : ¬Begins "__m" x) : x ∉ t.shared := by
  have hnone := (h.regular hctx).aliased?_eq_none hx
  rw [h.shared, Renaming.mem_shared_build]
  rintro (⟨-, htrue⟩ | ⟨j, v, hv, rfl, y, hy⟩)
  · rw [Renaming.Naming.method, hnone] at htrue
    split at htrue
    · cases htrue
    · cases htrue
  · rw [Renaming.Naming.variableName?] at hy
    split at hy
    · cases hy
    · cases hy
    · rw [hnone] at hy
      split at hy
      · cases hy
      · cases hy

/-- Every variable of a merged module has a name in the caller. -/
theorem Carries.exists_symbol (h : e.Carries ctx m t) (hx : m.HasVariable x) :
    ∃ y, t.symbols.get? x = some y := by
  obtain ⟨id, v, hv, rfl⟩ := hx
  by_cases hconstant : v.kind = .constant
  · obtain ⟨_, _, hrecord⟩ := hl.record_of h
    have hfits := (hctx.modules h.cached).proper.fits hv
    rw [hconstant] at hfits
    have hbegins : ¬Begins "__m" v.name := (Numbered.begins hfits).not_begins (by decide) (by decide)
    obtain ⟨y, hy, -⟩ := (hrecord.has hv (hrecord.notMem_shared hctx hbegins)).named
    exact ⟨y, hy⟩
  · rcases h.symbols_cases hctx hl hv hconstant with ⟨-, hy⟩ | ⟨y, hy, -⟩
    · exact ⟨_, hy⟩
    · exact ⟨y, hy⟩

end

end Emission

end TriggerCompiler
