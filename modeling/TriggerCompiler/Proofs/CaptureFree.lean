import TriggerCompiler.Proofs.CompilationPoints
import TriggerCompiler.Proofs.CompiledModules
import TriggerCompiler.Proofs.ConstantPool

/-! Merging is a renaming without capture. The names of a module in a caller determine its own names, its
code is renamed instruction by instruction, and its own names are new in the caller. -/

namespace TriggerCompiler

open Text

/-! ### Modules that pass the check -/

theorem forM_eq_ok {α ε : Type} {f : α → Except ε Unit} {l : List α} (h : l.forM f = .ok ()) {a : α}
    (ha : a ∈ l) : f a = .ok () := by
  induction l with
  | nil => cases ha
  | cons b l ih =>
    replace h : (f b >>= fun _ => l.forM f) = .ok () := h
    cases hb : f b with
    | error failure =>
      rw [hb] at h
      cases h
    | ok u =>
      rw [hb] at h
      rcases List.mem_cons.mp ha with rfl | ha
      · exact hb
      · exact ih h ha

variable {i : Instruction}

namespace Renaming

variable {t : Renaming} {m : Linkable}

/-- The code of a module that passes the check names variables that the module has and jumps to labels
that have a name. -/
theorem checkCode_eq_ok (h : t.checkCode m = .ok ()) {method : Method}
    (hmethod : method ∈ m.program.methods.toList) (hi : i ∈ method.code) :
    (∀ s, i.symbol? = some s → t.symbols.contains s = true ∨ m.HasVariable s) ∧
      ∀ l, i.targetLabel? = some l → t.knowsLabel l = true := by
  have hstep := forM_eq_ok (forM_eq_ok h hmethod) hi
  cases hsymbol : i.symbol? with
  | some s =>
    rw [hsymbol] at hstep
    have htarget : i.targetLabel? = none := by
      cases i <;> cases hsymbol <;> rfl
    refine ⟨fun s' hs' => ?_, fun l hl => by rw [htarget] at hl; cases hl⟩
    cases hs'
    by_cases hknown : (t.symbols.contains s || ((m.program.symbols.toList.map Prod.snd).filter
        (·.kind = .constant)).any (·.name = s)) = true
    · rw [Bool.or_eq_true, List.any_eq_true] at hknown
      refine hknown.imp_right fun ⟨v, hv, hname⟩ => ?_
      obtain ⟨id, hid⟩ := SymbolTable.mem_variables.mp (List.mem_filter.mp hv).1
      exact ⟨id, v, hid, of_decide_eq_true hname⟩
    · dsimp only at hstep
      rw [if_neg hknown] at hstep
      cases hstep
  | none =>
    refine ⟨nofun, fun l hl => ?_⟩
    rw [hsymbol, hl] at hstep
    by_cases hknown : t.knowsLabel l = true
    · exact hknown
    · dsimp only at hstep
      rw [if_neg hknown] at hstep
      cases hstep

theorem validate_eq_ok (h : t.validate m = .ok ()) : t.checkInterface m = .ok () ∧ t.checkCode m = .ok () := by
  rw [validate] at h
  cases hinterface : t.checkInterface m with
  | error failure =>
    rw [hinterface] at h
    cases h
  | ok u =>
    rw [hinterface] at h
    exact ⟨rfl, h⟩

/-- The labels that a jump may name, and what they become: a label of the code, or the entry of a
method, which follows the name of the method. -/
inductive RenamesTarget (t : Renaming) : String → String → Prop
  | placed {l l' : String} (h : t.labels.get? l = some l') : RenamesTarget t l l'
  | entry {x y : String} (h : t.methods.get? x = some y) :
      RenamesTarget t (entryLabel x) (entryLabel y)

/-- The image of an instruction: every name in it is renamed, and all else stays. -/
inductive Renames (t : Renaming) : Instruction → Instruction → Prop
  | push {s s' : String} (h : t.symbols.get? s = some s') : Renames t (.push s) (.push s')
  | jumpIndirect {s s' : String} (h : t.symbols.get? s = some s') :
      Renames t (.jumpIndirect s) (.jumpIndirect s')
  | jump {l l' : String} (h : t.RenamesTarget l l') :
      Renames t (.jump (.label l)) (.jump (.label l'))
  | jumpIfFalse {l l' : String} (h : t.RenamesTarget l l') :
      Renames t (.jumpIfFalse (.label l)) (.jumpIfFalse (.label l'))
  | label {l l' : String} (h : t.labels.get? l = some l') : Renames t (.label l) (.label l')
  | other {i : Instruction} (hsymbol : i.symbol? = none) (htarget : i.targetLabel? = none)
      (hplaced : i.placedLabel? = none) : Renames t i i

theorem renamesTarget_label {l : String} (h : t.knowsLabel l = true) :
    t.RenamesTarget l (t.label l) := by
  rw [label]
  cases hlabel : t.labels.get? l with
  | some l' => exact .placed hlabel
  | none =>
    rw [knowsLabel, OrderedMap.contains, hlabel, Option.isSome_none, Bool.false_or,
      Option.isSome_iff_exists] at h
    obtain ⟨y, hy⟩ := h
    rw [hy]
    obtain ⟨x, hx, hmethod⟩ := Option.bind_eq_some_iff.mp hy
    rw [withoutEnd?_eq_some_iff.mp hx]
    exact .entry hmethod

/-- An instruction whose names are all known becomes its image. -/
theorem renames_instruction
    (hsymbol : ∀ s, i.symbol? = some s → ∃ s', t.symbols.get? s = some s')
    (htarget : ∀ l, i.targetLabel? = some l → t.knowsLabel l = true)
    (hplaced : ∀ l, i.placedLabel? = some l → ∃ l', t.labels.get? l = some l') :
    t.Renames i (t.instruction i) := by
  cases i with
  | push s =>
    obtain ⟨s', hs⟩ := hsymbol s rfl
    rw [instruction, symbol, hs]
    exact .push hs
  | jumpIndirect s =>
    obtain ⟨s', hs⟩ := hsymbol s rfl
    rw [instruction, symbol, hs]
    exact .jumpIndirect hs
  | jump target =>
    cases target with
    | label l => exact .jump (renamesTarget_label (htarget l rfl))
    | address _ => exact .other rfl rfl rfl
  | jumpIfFalse target =>
    cases target with
    | label l => exact .jumpIfFalse (renamesTarget_label (htarget l rfl))
    | address _ => exact .other rfl rfl rfl
  | label l =>
    obtain ⟨l', hl⟩ := hplaced l rfl
    rw [instruction, Renaming.label, hl]
    exact .label hl
  | nop | sentinel | pop | copy | invoke _ | comment _ => exact .other rfl rfl rfl

/-- A name of the module and the name that it has in the caller, of whichever sort. -/
def Maps (t : Renaming) (x y : String) : Prop :=
  t.methods.get? x = some y ∨ t.symbols.get? x = some y ∨ t.labels.get? x = some y

/-- If no two names become one, every name can be found from the one that it has become. -/
theorem baseName?_eq (hinj : ∀ x x' y, t.Maps x y → t.Maps x' y → x = x') {x y : String}
    (h : t.Maps x y) : t.baseName? y = some x := by
  have hmem {p : String × String} :
      p ∈ t.labels.entries ++ t.symbols.entries ++ t.methods.entries ↔ t.Maps p.1 p.2 := by
    rw [List.mem_append, List.mem_append, Maps, OrderedMap.get?_eq_some_iff,
      OrderedMap.get?_eq_some_iff, OrderedMap.get?_eq_some_iff]
    tauto
  rw [baseName?]
  cases hfind : (t.labels.entries ++ t.symbols.entries ++ t.methods.entries).find?
      (fun p => decide (p.2 = y)) with
  | none => exact absurd (decide_eq_true rfl) (List.find?_eq_none.mp hfind (x, y) (hmem.mpr h))
  | some p =>
    have hy : p.2 = y := by simpa using List.find?_some hfind
    have hp := hmem.mp (List.mem_of_find?_eq_some hfind)
    rw [hy] at hp
    rw [Option.map_some, hinj _ _ _ hp h]

end Renaming

/-! ### The names of a module in a caller -/

/-- The names that the merge of a module brings to a caller. Left out are the names of nested modules,
and the methods and variables that all programs share. -/
inductive Linkable.Brings (includeHooks : Bool) (m : Linkable) (t : Renaming) : String → Prop
  | method {x y : String} (h : t.methods.get? x = some y) (hshared : t.isShared x = false)
      (hhook : (includeHooks && Renaming.isEventHook x) = false) : Brings includeHooks m t y
  | slot {id : VarId} {v : Variable} {y : String} (hv : m.program.symbols.get? id = some v)
      (hconstant : v.kind ≠ .constant) (hsystem : v.kind ≠ .system)
      (hparam : (v.kind = .eventParam && includeHooks) = false) (hshared : t.isShared v.name = false)
      (h : t.symbols.get? v.name = some y) : Brings includeHooks m t y
  | label {l y : String} (h : t.labels.get? l = some y) (hown : ¬m.Lends Linkable.HasLabel l) :
      Brings includeHooks m t y

/-- The names that stand for something in a program: its methods with their entries, its variables, its
labels, and all names that merged modules have there. -/
inductive Linkage.Uses (s : Linkage) : String → Prop
  | method {x : String} (h : s.program.methods.contains x = true) : Uses s x
  | entry {x : String} (h : s.program.methods.contains x = true) : Uses s (entryLabel x)
  | slot {id : VarId} {v : Variable} (h : s.program.symbols.get? id = some v) : Uses s v.name
  | label {l : String} (h : l ∈ s.program.methods.placed) : Uses s l
  | merged {key x y : String} {t : Renaming} (ht : s.linker.merged.get? key = some t)
      (h : t.Maps x y) : Uses s y

namespace Emission

variable {ctx : Context} {e : Emission} {m : Linkable} {t : Renaming} {x x' y : String}

/-- A name of a module, constants apart, and the name in the caller: it has the beginning of the module
that the name stems from, or it is the same name. -/
inductive Image (ctx : Context) (e : Emission) (m : Linkable) (t : Renaming) (x y : String) : Prop
  | stems {P : Linkable → String → Prop} (h : Stems ctx e P m t x y)
  | kept (hy : y = x) (hmerged : ¬Begins "__m" x) (hconstant : ¬Begins "__const_" x)

/-- A constant of a module and the constant of the caller that holds the same. -/
structure PoolImage (e : Emission) (m : Linkable) (t : Renaming) (x y : String) : Prop where
  constant : ∃ id v, m.program.symbols.get? id = some v ∧ v.kind = .constant ∧ v.name = x ∧
    ∃ j, e.program.symbols.constants.get? ((t.value v.default).poolKey v.type) = some j ∧
      y = e.program.symbols.nameOf j

theorem Merges.begins (hl : Linked ctx e) {P : Linkable → String → Prop} (h : e.Merges ctx P y) :
    ∃ ordinal < e.linker.nextOrdinal, ∃ b, y = mergedPrefix ordinal ++ b := by
  obtain ⟨n, u, b, hu, rfl, -⟩ := h
  obtain ⟨ordinal, _, hrecord⟩ := hl.record_of hu
  exact ⟨ordinal, hrecord.ordinal_lt, b, by rw [hrecord.namePrefix]⟩

theorem begins_nameOf (hn : e.Named) {key : String} {j : VarId}
    (hj : e.program.symbols.constants.get? key = some j) :
    Begins "__const_" (e.program.symbols.nameOf j) := by
  obtain ⟨w, hw, hkind, -⟩ := hn.consistent.constants hj
  have hfits := hn.proper.fits hw
  rw [hkind] at hfits
  rw [SymbolTable.nameOf, hw]
  exact Numbered.begins hfits

section

variable (hctx : ctx.Sound) (hl : Linked ctx e) (ht : e.Carries ctx m t)
include hctx hl ht

theorem image_methods (h : t.methods.get? x = some y) : Image ctx e m t x y := by
  obtain ⟨_, _, hrecord⟩ := hl.record_of ht
  rcases ht.methods_cases hctx hl (hrecord.hasMethod h) with ⟨hhook, hname⟩ | ⟨z, hname, hstems⟩
  · rw [h] at hname
    cases hname
    simp only [Bool.and_eq_true] at hhook
    have hunder := (begins_of_isEventHook hhook.2).2
    exact .kept rfl (fun hb => hunder ((by decide : Begins "__" "__m").trans hb))
      fun hb => hunder ((by decide : Begins "__" "__const_").trans hb)
  · rw [h] at hname
    cases hname
    exact .stems hstems

theorem image_labels (h : t.labels.get? x = some y) : Image ctx e m t x y := by
  obtain ⟨_, _, hrecord⟩ := hl.record_of ht
  obtain ⟨z, hname, hstems⟩ := ht.labels_cases hctx hl (hrecord.hasLabel h)
  rw [h] at hname
  cases hname
  exact .stems hstems

theorem image_symbols (h : t.symbols.get? x = some y) :
    Image ctx e m t x y ∨ PoolImage e m t x y := by
  obtain ⟨_, _, hrecord⟩ := hl.record_of ht
  have hsound := hctx.modules ht.cached
  obtain ⟨id, v, hv, rfl⟩ := hrecord.known h
  by_cases hconstant : v.kind = .constant
  · have hfits := hsound.proper.fits hv
    rw [hconstant] at hfits
    have hbegins : ¬Begins "__m" v.name := (Numbered.begins hfits).not_begins (by decide) (by decide)
    obtain ⟨j, hj, hname⟩ := (hrecord.has hv (hrecord.notMem_shared hctx hbegins)).pooled hconstant
    rw [h] at hname
    exact Or.inr ⟨id, v, hv, hconstant, rfl, j, hj, Option.some.inj hname⟩
  · refine Or.inl ?_
    rcases ht.symbols_cases hctx hl hv hconstant with ⟨hkind, hname⟩ | ⟨z, hname, hstems⟩
    · rw [h] at hname
      cases hname
      rcases hkind with hsystem | hparam
      · have hfits := hsound.proper.fits hv
        rw [hsystem] at hfits
        obtain ⟨which, hwhich⟩ := hfits
        rw [hwhich]
        exact .kept rfl (by cases which <;> decide) (by cases which <;> decide)
      · simp only [Bool.and_eq_true, decide_eq_true_eq] at hparam
        have hstorage := hsound.storage hv hparam.1
        exact .kept rfl (hstorage.not_begins (by decide) (by decide))
          (hstorage.not_begins (by decide) (by decide))
    · rw [h] at hname
      cases hname
      exact .stems hstems

omit hctx in
theorem Image.begins (h : Image ctx e m t x y) : ¬Begins "__const_" y := by
  cases h with
  | stems h =>
    obtain ⟨ordinal, -, b, rfl⟩ := (h.merges ht).begins hl
    exact (begins_mergedPrefix ordinal b).not_begins (by decide) (by decide)
  | kept hy _ hconstant => exact hy ▸ hconstant

/-- Two names of a module that become one are the same name. -/
theorem Image.inj (h : Image ctx e m t x y) (h' : Image ctx e m t x' y) : x = x' := by
  have hbegins {P : Linkable → String → Prop} {z : String} (hz : Stems ctx e P m t z y) :
      Begins "__m" y := by
    obtain ⟨ordinal, -, b, rfl⟩ := (hz.merges ht).begins hl
    exact begins_mergedPrefix ordinal b
  cases h with
  | stems h =>
    cases h' with
    | stems h' => exact h.inj hctx hl ht h'
    | kept hy hmerged _ => exact absurd (hy ▸ hbegins h) hmerged
  | kept hy hmerged _ =>
    cases h' with
    | stems h' => exact absurd (hy ▸ hbegins h') hmerged
    | kept hy' _ _ => exact hy.symm.trans hy'

/-- Two constants of a module that hold the same in the caller are one. -/
theorem poolKey_inj {id id' : VarId} {v v' : Variable} (hv : m.program.symbols.get? id = some v)
    (hkind : v.kind = .constant) (hv' : m.program.symbols.get? id' = some v')
    (hkind' : v'.kind = .constant)
    (heq : (t.value v.default).poolKey v.type = (t.value v'.default).poolKey v'.type) : v = v' := by
  have hsound := hctx.modules ht.cached
  have hplain {type : VarType} {value : Value} (hvalue : value.isPlain = true) :
      (t.value value).poolKey type = value.poolKey type := by
    cases value with
    | label _ => cases hvalue
    | method _ => cases hvalue
    | _ => rfl
  have hlabel {l : String} (hl' : m.HasLabel l) : Image ctx e m t l (t.label l) := by
    obtain ⟨y, hy, hstems⟩ := ht.labels_cases hctx hl hl'
    rw [Renaming.label, hy]
    exact .stems hstems
  have hmethod {z : String} (hz : m.HasMethod z) :
      Image ctx e m t z ((t.methods.get? z).getD z) := by
    rcases ht.methods_cases hctx hl hz with ⟨-, hy⟩ | ⟨y, hy, -⟩
    · rw [hy]
      exact image_methods hctx hl ht hy
    · rw [hy]
      exact image_methods hctx hl ht hy
  have hkeys : v.default.poolKey v.type = v'.default.poolKey v'.type := by
    have hpools := hsound.constants hv hkind
    have hpools' := hsound.constants hv' hkind'
    generalize v.default = value at hpools heq ⊢
    generalize v'.default = value' at hpools' heq ⊢
    generalize v.type = type at hpools heq ⊢
    generalize v'.type = type' at hpools' heq ⊢
    cases hpools with
    | plain hvalue =>
      rw [hplain hvalue] at heq
      cases hpools' with
      | plain hvalue' => rwa [hplain hvalue'] at heq
      | label _ => exact absurd heq (Value.poolKey_ne_of_isPlain hvalue rfl)
      | method _ _ => exact absurd heq (Value.poolKey_ne_of_isPlain hvalue rfl)
    | @label l hl₁ =>
      cases hpools' with
      | plain hvalue' =>
        rw [hplain hvalue'] at heq
        exact absurd heq.symm (Value.poolKey_ne_of_isPlain hvalue' rfl)
      | @label l' hl₂ =>
        have himage := hlabel hl₁
        rw [Value.label.inj (Value.eq_of_poolKey heq rfl)] at himage
        rw [himage.inj hctx hl ht (hlabel hl₂)]
      | method _ _ => cases Value.eq_of_poolKey heq rfl
    | @method z hz _ =>
      cases hpools' with
      | plain hvalue' =>
        rw [hplain hvalue'] at heq
        exact absurd heq.symm (Value.poolKey_ne_of_isPlain hvalue' rfl)
      | label _ => cases Value.eq_of_poolKey heq rfl
      | @method z' hz' _ =>
        have himage := hmethod hz
        rw [Value.method.inj (Value.eq_of_poolKey heq rfl)] at himage
        rw [himage.inj hctx hl ht (hmethod hz')]
  have hid := hsound.pooled hv hkind
  rw [hkeys, hsound.pooled hv' hkind'] at hid
  cases hid
  rw [hv] at hv'
  exact Option.some.inj hv'

theorem image_inj (hn : e.Named) (h : Image ctx e m t x y ∨ PoolImage e m t x y)
    (h' : Image ctx e m t x' y ∨ PoolImage e m t x' y) : x = x' := by
  have hdisjoint {z z' : String} (hz : Image ctx e m t z y) (hz' : PoolImage e m t z' y) : False := by
    obtain ⟨_, _, _, _, _, j, hj, rfl⟩ := hz'.constant
    exact hz.begins hl ht (begins_nameOf hn hj)
  rcases h with h | h
  · rcases h' with h' | h'
    · exact h.inj hctx hl ht h'
    · exact (hdisjoint h h').elim
  · rcases h' with h' | h'
    · exact (hdisjoint h' h).elim
    · obtain ⟨id, v, hv, hkind, rfl, j, hj, hy⟩ := h.constant
      obtain ⟨id', v', hv', hkind', rfl, j', hj', hy'⟩ := h'.constant
      obtain ⟨w, hw, -, hkey⟩ := hn.consistent.constants hj
      obtain ⟨w', hw', -, hkey'⟩ := hn.consistent.constants hj'
      have hname : w.name = w'.name := by
        rw [SymbolTable.nameOf, hw] at hy
        rw [SymbolTable.nameOf, hw'] at hy'
        exact hy.symm.trans hy'
      have hsame := hn.proper.eq_of_name hw hw' hname
      subst hsame
      rw [poolKey_inj hctx hl ht hv hkind hv' hkind' (hkey.symm.trans hkey')]

theorem image_of_maps (h : t.Maps x y) : Image ctx e m t x y ∨ PoolImage e m t x y := by
  rcases h with h | h | h
  · exact Or.inl (image_methods hctx hl ht h)
  · exact image_symbols hctx hl ht h
  · exact Or.inl (image_labels hctx hl ht h)

/-- No two names of a merged module become one, even if they are of different sorts. -/
theorem maps_inj (hn : e.Named) (h : t.Maps x y) (h' : t.Maps x' y) : x = x' :=
  image_inj hctx hl ht hn (image_of_maps hctx hl ht h) (image_of_maps hctx hl ht h')

/-- The code of a module that has been merged has an image. -/
theorem renames_code {x : String} (hx : m.HasMethod x)
    (hi : i ∈ m.program.methods.codeOf x) : t.Renames i (t.instruction i) := by
  obtain ⟨ordinal, aliases, hrecord⟩ := hl.record_of ht
  obtain ⟨method, hmethod, rfl, hcode⟩ := MethodTable.exists_mem_toList hx
  rw [← hcode] at hi
  obtain ⟨hsymbol, htarget⟩ :=
    Renaming.checkCode_eq_ok (Renaming.validate_eq_ok hrecord.valid).2 hmethod hi
  refine Renaming.renames_instruction (fun s hs => ht.exists_symbol hctx hl ?_) (fun l hl' => ?_)
    fun l hl' => ?_
  · rcases hsymbol s hs with hknown | hknown
    · obtain ⟨y, hy⟩ := Option.isSome_iff_exists.mp hknown
      exact Renaming.exists_of_symbols_build hy
    · exact hknown
  · have hknown := htarget l hl'
    rw [Renaming.knowsLabel] at hknown ⊢
    rwa [hrecord.labels, hrecord.methods]
  · have hlabel : m.HasLabel l := MethodTable.mem_placed.mpr
      ⟨method.name, List.mem_filterMap.mpr ⟨i, hcode ▸ hi, hl'⟩⟩
    obtain ⟨y, hy, -⟩ := ht.labels_cases hctx hl hlabel
    exact ⟨y, hy⟩

/-- The name of a method that belongs to the module alone has the beginning of the module. -/
theorem methods_unshared (hy : t.methods.get? x = some y) (hshared : t.isShared x = false)
    (hhook : (ctx.settings.includeEventHooks && Renaming.isEventHook x) = false) :
    y = t.namePrefix ++ x := by
  obtain ⟨ordinal, aliases, hrecord⟩ := hl.record_of ht
  have hx := hrecord.hasMethod hy
  rcases ht.methods_cases hctx hl hx with ⟨htrue, -⟩ | ⟨z, hz, hstems⟩
  · rw [hhook] at htrue
    cases htrue
  · rw [hy] at hz
    cases hz
    cases hstems with
    | own _ hy => exact hy
    | @nested start n u b hn hu hxb hown _ =>
      subst hxb
      refine absurd ?_ (of_decide_eq_false hshared : start ++ b ∉ t.shared)
      rw [hrecord.shared, Renaming.mem_shared_build]
      refine Or.inl ⟨hx, ?_⟩
      rw [Renaming.Naming.method, show (naming ctx ordinal aliases).includeHooks =
        ctx.settings.includeEventHooks from rfl, hhook, if_neg Bool.false_ne_true,
        show (naming ctx ordinal aliases).aliases = aliases from rfl,
        hrecord.aliased?_eq hctx hn hu, hu.methods_own hctx hl hown]

/-- A method that a module brings has the image of the method's code. -/
theorem forall₂_renames (hy : t.methods.get? x = some y) (hshared : t.isShared x = false)
    (hhook : (ctx.settings.includeEventHooks && Renaming.isEventHook x) = false) :
    e.program.methods.contains y = true ∧
      List.Forall₂ t.Renames (m.program.methods.codeOf x) (e.program.methods.codeOf y) := by
  obtain ⟨ordinal, aliases, hrecord⟩ := hl.record_of ht
  have hx := hrecord.hasMethod hy
  obtain ⟨hcontains, hcode⟩ := hrecord.code hx (of_decide_eq_false hshared) hhook
  rw [methods_unshared hctx hl ht hy hshared hhook]
  refine ⟨hcontains, ?_⟩
  rw [hcode, List.forall₂_map_right_iff, List.forall₂_same]
  exact fun i hi => renames_code hctx hl ht hx hi

/-- The names that a module brings have its beginning. -/
theorem exists_of_brings (h : m.Brings ctx.settings.includeEventHooks t y) :
    ∃ b, y = t.namePrefix ++ b := by
  obtain ⟨ordinal, aliases, hrecord⟩ := hl.record_of ht
  cases h with
  | @method x y hy hshared hhook => exact ⟨x, methods_unshared hctx hl ht hy hshared hhook⟩
  | @slot id v y hv hconstant hsystem hparam hshared hy =>
    rcases ht.symbols_cases hctx hl hv hconstant with ⟨hkept, -⟩ | ⟨z, hz, hstems⟩
    · rcases hkept with hkept | hkept
      · exact absurd hkept hsystem
      · rw [hparam] at hkept
        cases hkept
    · rw [hy] at hz
      cases hz
      cases hstems with
      | own _ hy => exact ⟨v.name, hy⟩
      | @nested start n u b hn hu hxb hhas _ =>
        refine absurd ?_ (of_decide_eq_false hshared : v.name ∉ t.shared)
        obtain ⟨z, hz⟩ := hu.exists_symbol hctx hl hhas
        rw [hrecord.shared, Renaming.mem_shared_build]
        refine Or.inr ⟨id, v, hv, rfl, z, ?_⟩
        rw [Renaming.Naming.variableName?_of_kind_ne hconstant hsystem,
          show (naming ctx ordinal aliases).includeHooks = ctx.settings.includeEventHooks from rfl,
          hparam, if_neg Bool.false_ne_true,
          show (naming ctx ordinal aliases).aliases = aliases from rfl, hxb,
          hrecord.aliased?_eq hctx hn hu, hz]
  | @label l y hy hown =>
    obtain ⟨z, hz, hstems⟩ := ht.labels_cases hctx hl (hrecord.hasLabel hy)
    rw [hy] at hz
    cases hz
    cases hstems with
    | own _ hy => exact ⟨l, hy⟩
    | @nested start n u b hn hu hxb hhas _ => exact absurd ⟨start, n, b, hn, hxb, hhas.has⟩ hown

end

end Emission

/-- The entry of a method has no beginning of a module unless the name of the method has. -/
theorem not_begins_entryLabel {x : String} (hx : ¬Begins "__m" x) : ¬Begins "__m" (entryLabel x) := by
  have hlist : "__m".toList = ['_', '_', 'm'] := rfl
  rw [Begins, hlist] at hx ⊢
  rw [entryLabel, String.toList_append]
  generalize x.toList = name at hx ⊢
  rcases name with - | ⟨a, - | ⟨b, - | ⟨c, rest⟩⟩⟩
  · decide
  · simp [List.cons_prefix_cons]
  · simp [List.cons_prefix_cons]
  · simpa [List.cons_prefix_cons] using hx

variable {m : Linkable} {s : Linkage}

namespace Emission

variable {ctx : Context} {e : Emission}

/-- No name begins like those of a module that is still to be merged. -/
theorem Tidy.not_uses (h : e.Tidy ctx) (hctx : ctx.Sound) (hn : e.Named) {k : Nat}
    (hk : e.linker.nextOrdinal ≤ k) (b : String) :
    ¬e.linkage.Uses (mergedPrefix k ++ b) := by
  have hbegins := begins_mergedPrefix k b
  have hmerges {P : Linkable → String → Prop} {c : String} :
      ¬e.Merges ctx P (mergedPrefix k ++ c) := by
    intro hP
    obtain ⟨j, hj, b', heq⟩ := Merges.begins h.linked hP
    have := (mergedPrefix_append_inj heq).1
    omega
  generalize hy : mergedPrefix k ++ b = y
  intro huses
  cases huses with
  | method hx =>
    rcases h.methods hx with hown | hP
    · exact hown.unmerged (hy ▸ hbegins)
    · exact hmerges (hy ▸ hP)
  | @entry x hx =>
    rcases h.methods hx with hown | hP
    · exact not_begins_entryLabel hown.unmerged (hy ▸ hbegins)
    · obtain ⟨j, hj, b', rfl⟩ := Merges.begins h.linked hP
      rw [entryLabel, String.append_assoc] at hy
      have := (mergedPrefix_append_inj hy).1
      omega
  | slot hv =>
    have hstart : "__m" ∈ VariableKind.imported.starts := List.mem_singleton_self _
    have hkind := (hn.proper.fits hv).eq_of_begins hstart (hy ▸ hbegins)
    exact hmerges (hy ▸ h.imported hv hkind)
  | label hl =>
    rcases h.labels hl with hname | hP
    · exact hname.not_begins (hy ▸ hbegins)
    · exact hmerges (hy ▸ hP)
  | @merged key x y t ht hmaps =>
    obtain ⟨m, _, _, rfl, hrecord⟩ := h.linked.record ht
    have hcarries : e.Carries ctx m t := ⟨hrecord.cached, ht⟩
    rcases image_of_maps hctx h.linked hcarries hmaps with himage | himage
    · cases himage with
      | stems hstems => exact hmerges (hy ▸ hstems.merges hcarries)
      | kept hkept hmerged _ => exact hmerged (hkept ▸ hy ▸ hbegins)
    · obtain ⟨_, _, _, _, _, j, hj, hname⟩ := himage.constant
      have hconstant := begins_nameOf hn hj
      rw [← hname, ← hy] at hconstant
      exact hconstant.not_begins (by decide) (by decide) hbegins

/-- A merge is a sequence of moves. -/
theorem moves_merge (hsane : ctx.Sane) (hm : ctx.modules.get? m.key = some m)
    {result : Except Failure Renaming}
    (hmerge : (Linker.merge ctx.settings.includeEventHooks m).run e.linkage = (result, s)) :
    Moves ctx e (e.withLinkage s) := by
  have hmerged := (absorbs_merge (fun _ => hsane) m (fun _ hn => .cached rfl (hsane.part hm hn)) e
    e.linkage).advances
  rwa [hmerge] at hmerged

/-- A merge first merges the nested modules and then adds the module under names with the next number. -/
theorem exists_addModule_of_run_merge (hsane : ctx.Sane)
    (hm : ctx.modules.get? m.key = some m) (hnew : e.linker.merged.get? m.key = none)
    {t : Renaming}
    (hmerge : (Linker.merge ctx.settings.includeEventHooks m).run e.linkage = (.ok t, s)) :
    ∃ (aliases : List Renaming.Alias) (mid : Linkage), Moves ctx e (e.withLinkage mid) ∧
      (Linker.mergeNested ctx.settings.includeEventHooks m.nested).run e.linkage = (.ok aliases, mid) ∧
      Linker.addModule m ((mid.linker.instances.get? m.key).getD []) mid.program
        (Renaming.build m (naming ctx mid.linker.nextOrdinal aliases)) = ⟨s.program, t⟩ := by
  have hnested := (absorbs_mergeNested (fun _ => hsane) m.nested (fun start n h k hk =>
    .cached rfl (hsane.part (hsane.nested hm ⟨start, h⟩) hk)) e e.linkage).1.advances
  match m with
  | ⟨key, interface, program, nested⟩ =>
    rw [Linker.merge, Attempt.run_get_bind, show e.linkage.linker.merged.get? key = none from
      hnew] at hmerge
    dsimp only at hmerge
    rw [Attempt.run_bind] at hmerge
    rcases hrun : (Linker.mergeNested ctx.settings.includeEventHooks nested).run e.linkage with
      ⟨result, mid⟩
    rw [hrun] at hmerge hnested
    cases result with
    | error failure => cases hmerge
    | ok aliases =>
      refine ⟨aliases, mid, hnested, rfl, ?_⟩
      dsimp only at hmerge
      rcases Linker.run_mergeOwn ⟨key, interface, program, nested⟩
          ctx.settings.includeEventHooks aliases mid with
        ⟨failure, -, hown⟩ | ⟨-, hown⟩
      · rw [hown] at hmerge
        cases hmerge
      · rw [hown] at hmerge
        cases hmerge
        rfl

/-- A module that is merged gets the number that comes next when its nested modules have been merged. -/
theorem exists_of_run_merge (hsane : ctx.Sane) (he : e.Orderly)
    (hm : ctx.modules.get? m.key = some m) (hnew : e.linker.merged.get? m.key = none)
    {t : Renaming}
    (hmerge : (Linker.merge ctx.settings.includeEventHooks m).run e.linkage = (.ok t, s)) :
    ∃ (aliases : List Renaming.Alias) (mid : Linkage), Moves ctx e (e.withLinkage mid) ∧
      (Linker.mergeNested ctx.settings.includeEventHooks m.nested).run e.linkage = (.ok aliases, mid) ∧
      t.namePrefix = mergedPrefix mid.linker.nextOrdinal := by
  obtain ⟨aliases, mid, hmoves, hnested, hadded⟩ := exists_addModule_of_run_merge hsane hm hnew hmerge
  refine ⟨aliases, mid, hmoves, hnested, ?_⟩
  have hout := (hmoves.orderly hsane he).toNamed.outcome hsane hm ctx.settings.includeEventHooks aliases
    ((mid.linker.instances.get? m.key).getD [])
  rw [show t = (Linker.Merging.mk s.program t).names from rfl, ← hadded]
  exact hout.adding.namePrefix.trans (Renaming.namePrefix_build _ _)

end Emission

/-! ### Merging without capture -/

/-- Merging a compiled module at any point of a compilation renames without capture. Every method,
variable and label of the module has a name in the caller, no two have the same one, and each is found
from the name that it has there. The methods that the merge brings have the image of their code, and
the names that it brings stand for nothing else, neither before the merge nor after the merge of the
modules nested in the module. -/
theorem merge_captureFree {settings : Settings} {cache : ModuleCache} (hcache : cache.Compiled settings)
    {source : ProgramSource} {point : Point} {e : Emission}
    (he : Context.Reaches { source, catalogue := .builtin, modules := cache, settings } point e)
    {m : Linkable} (hm : cache.get? m.key = some m) {t : Renaming} {s : Linkage}
    (hmerge : (Linker.merge settings.includeEventHooks m).run e.linkage = (.ok t, s)) :
    (∀ x, (m.HasMethod x ↔ ∃ y, t.methods.get? x = some y) ∧
      (m.HasVariable x ↔ ∃ y, t.symbols.get? x = some y) ∧
      (m.HasLabel x ↔ ∃ y, t.labels.get? x = some y)) ∧
    (∀ x x' y, t.Maps x y → t.Maps x' y → x = x') ∧
    (∀ x y, t.Maps x y → t.baseName? y = some x) ∧
    (∀ x y, t.methods.get? x = some y → t.isShared x = false →
      (settings.includeEventHooks && Renaming.isEventHook x) = false →
      s.program.methods.contains y = true ∧
        List.Forall₂ t.Renames (m.program.methods.codeOf x) (s.program.methods.codeOf y)) ∧
    (e.linker.merged.get? m.key = none → ∀ y, m.Brings settings.includeEventHooks t y →
      ¬e.linkage.Uses y ∧ ∀ aliases mid,
        (Linker.mergeNested settings.includeEventHooks m.nested).run e.linkage = (.ok aliases, mid) →
          ¬mid.Uses y) := by
  have hctx := hcache.sound source
  have hsane := hctx.toSane
  obtain ⟨hbefore, -⟩ := he.moves hsane
  have hmoves := hbefore.trans (Emission.moves_merge hsane hm hmerge)
  obtain ⟨horderly, htidy⟩ := hmoves.tidy hctx
  have hn := horderly.toNamed
  have ht : Emission.Carries { source, catalogue := .builtin, modules := cache, settings }
      (e.withLinkage s) m t := ⟨hm, by
    have hget := Linker.get?_merge (congrArg Prod.fst hmerge)
    rwa [hmerge] at hget⟩
  obtain ⟨ordinal, aliases, hrecord⟩ := htidy.linked.record_of ht
  refine ⟨fun x => ⟨⟨fun hx => ⟨_, hrecord.methods_get? hx⟩, fun ⟨y, hy⟩ => hrecord.hasMethod hy⟩,
      ⟨ht.exists_symbol hctx htidy.linked, fun ⟨y, hy⟩ => hrecord.known hy⟩,
      ⟨fun hl => ⟨_, hrecord.labels_get? hl⟩, fun ⟨y, hy⟩ => hrecord.hasLabel hy⟩⟩,
    fun x x' y => Emission.maps_inj hctx htidy.linked ht hn,
    fun x y => Renaming.baseName?_eq fun x x' y => Emission.maps_inj hctx htidy.linked ht hn,
    fun x y hy hshared hhook => Emission.forall₂_renames hctx htidy.linked ht hy hshared hhook,
    fun hnew y hy => ?_⟩
  obtain ⟨b, rfl⟩ := Emission.exists_of_brings hctx htidy.linked ht hy
  obtain ⟨ho, hfirst⟩ := hbefore.tidy hctx
  obtain ⟨aliases, mid, hnested, hrun, hname⟩ :=
    Emission.exists_of_run_merge hsane ho hm hnew hmerge
  obtain ⟨homid, hmid⟩ := (hbefore.trans hnested).tidy hctx
  rw [hname]
  refine ⟨hfirst.not_uses hctx ho.toNamed hnested.nextOrdinal_le b, fun aliases' mid' hmid' => ?_⟩
  rw [hrun] at hmid'
  cases hmid'
  exact hmid.not_uses hctx homid.toNamed (Nat.le_refl _) b

/-- A module with one entry that calls other ones. -/
def sampleModule (key : String) (called : List String) : ProgramSource where
  key := key
  data :=
    { events := [{ trigger := .custom "run" []
                   actions := called.map fun c => { action := .moduleEntry c "run" none } }] }
  interface? := some { entries := [.ofCustomEvent "run" "run" []] }

/-- Two modules and a third one that calls both. -/
def sampleModules : ModuleCache :=
  (compileInOrder .builtin {} .empty [sampleModule "first" [], sampleModule "second" [],
    sampleModule "third" ["first", "second"]]).2

def sampleThird : Linkable := (sampleModules.get? "third").getD default

/-- A program that calls the second module. -/
def sampleContext : Context where
  source := sampleModule "caller" ["second"]
  catalogue := .builtin
  modules := sampleModules
  settings := {}

/-- The program behind the call. -/
def sampleState : Emission :=
  ((Emit.emitProgram sampleContext).run (.start sampleContext.source)).2

/-- In the third module the first module has the number 0 and the second one the number 1; in a program
that has called the second module before, it is the other way round. -/
theorem merge_captureFree_sample :
    ∃ t s, (Linker.merge true sampleThird).run sampleState.linkage = (.ok t, s) ∧
      t.baseName? "__m0_run" = some "__m1_run" ∧ t.baseName? "__m1_run" = some "__m0_run" ∧
      t.baseName? "__m2_run" = some "run" ∧ ¬sampleState.linkage.Uses "__m2_run" := by
  have hcache : sampleModules.Compiled {} := by
    rw [sampleModules]
    exact ModuleCache.compiled_empty.compileInOrder (by decide) fun _ _ => rfl
  have he : sampleContext.Reaches (.event 1) sampleState := by
    have hok : ((Emit.emitProgram sampleContext).run (.start sampleContext.source)).1 = .ok () := by
      decide +kernel
    rw [sampleState]
    exact Context.reaches_emitProgram (Attempt.run_eq_of_fst hok)
  have hm : sampleModules.get? sampleThird.key = some sampleThird := by
    have hkey : sampleThird.key = "third" := by decide +kernel
    have hsome : (sampleModules.get? "third").isSome = true := by decide +kernel
    rw [hkey, ← Option.some_get hsome, sampleThird, Option.get_eq_getD]
  have hnew : sampleState.linker.merged.get? sampleThird.key = none := by decide +kernel
  have hnames : ["__m0_run", "__m1_run", "run"].map (fun x =>
      ((Linker.merge true sampleThird).run sampleState.linkage).1.toOption.bind
        (·.methods.get? x)) = [some "__m1_run", some "__m0_run", some "__m2_run"] := by decide +kernel
  have hown : ((Linker.merge true sampleThird).run sampleState.linkage).1.toOption.map
      (·.isShared "run") = some false := by decide +kernel
  rcases hrun : (Linker.merge true sampleThird).run sampleState.linkage with ⟨result, s⟩
  rw [hrun] at hnames hown
  cases result with
  | error failure => cases hown
  | ok t =>
      obtain ⟨-, -, hbase, -, hfresh⟩ := merge_captureFree hcache he hm hrun
      simp only [List.map_cons, List.map_nil, Except.toOption, Option.bind_some, List.cons.injEq,
        Option.map_some, Option.some.injEq] at hnames hown
      obtain ⟨hfirst, hsecond, hthird, -⟩ := hnames
      exact ⟨t, s, rfl, hbase _ _ (Or.inl hsecond), hbase _ _ (Or.inl hfirst), hbase _ _ (Or.inl hthird),
        (hfresh hnew _ (.method hthird hown rfl)).1⟩

end TriggerCompiler
