import TriggerCompiler.Proofs.Heap
import TriggerCompiler.Proofs.Names

/-! The names on the heap. The name of a variable shows what the variable is for, and no two variables
have the same name: a name that the compiler makes up carries a number that has not been used, and all
other variables are looked up by their name before they are added. -/

namespace TriggerCompiler

open Text

/-- A name with a beginning and, behind its last underscore, a number below the given one. -/
def Numbered (start : String) (counter : Nat) (name : String) : Prop :=
  ∃ stem n, n < counter ∧ name = start ++ stem ++ "_" ++ toString n

/-- The names that variables of a kind have. Made-up names have numbers below the given one. -/
def VariableKind.Admits (kind : VariableKind) (counter : Nat) (name : String) : Prop :=
  match kind with
  | .user => Emit.isVariableName name = true
  | .eventParam => Emit.isVariableName name = true
  | .imported => Begins "__m" name
  | .blockLocal => Numbered "__lcl_" counter name
  | .temp => Numbered "__tmp" counter name
  | .constant => Numbered "__const_" counter name
  | .literal => Begins "__refconst_" name
  | .system => ∃ which : SystemVariable, name = which.name
  | .internal => Begins "__prev_" name ∨ Begins "__replay" name ∨ ∃ event param,
      Emit.isVariableName event = true ∧ startsWithUnderscore event = false ∧
        name = customParamVariable event param

/-- The beginnings of the reserved names of a kind. -/
def VariableKind.starts : VariableKind → List String
  | .user => []
  | .eventParam => []
  | .imported => ["__m"]
  | .blockLocal => ["__lcl_"]
  | .temp => ["__tmp"]
  | .constant => ["__const_"]
  | .literal => ["__refconst_"]
  | .system => SystemVariable.all.map SystemVariable.name
  | .internal => ["__prev_", "__replay"]

theorem Numbered.mono {start name : String} {counter counter' : Nat}
    (h : Numbered start counter name) (hle : counter ≤ counter') : Numbered start counter' name := by
  obtain ⟨stem, n, hn, rfl⟩ := h
  exact ⟨stem, n, by omega, rfl⟩

theorem Numbered.begins {start name : String} {counter : Nat} (h : Numbered start counter name) :
    Begins start name := by
  obtain ⟨stem, n, -, rfl⟩ := h
  rw [String.append_assoc, String.append_assoc]
  exact begins_append _ _

namespace VariableKind

variable {kind kind' : VariableKind} {counter : Nat} {name start : String}

theorem begins_of_mem_starts (h : start ∈ kind.starts) : Begins "__" start := by
  have hall : ∀ start ∈ kind.starts, Begins "__" start := by
    cases kind <;> decide
  exact hall start h

theorem eq_of_begins_starts {start' : String} (h : start ∈ kind.starts) (h' : start' ∈ kind'.starts)
    (hbegins : Begins start start') : kind = kind' := by
  have hall : ∀ start ∈ kind.starts, ∀ start' ∈ kind'.starts, Begins start start' →
      kind = kind' := by
    cases kind <;> cases kind' <;> decide
  exact hall start h start' h' hbegins

theorem Admits.mono (h : kind.Admits counter name) {counter' : Nat} (hle : counter ≤ counter') :
    kind.Admits counter' name := by
  cases kind with
  | blockLocal => exact Numbered.mono h hle
  | temp => exact Numbered.mono h hle
  | constant => exact Numbered.mono h hle
  | _ => exact h

/-- A reserved name begins as the names of its kind do; the names of an author are not reserved. -/
theorem Admits.begins (h : kind.Admits counter name) :
    (∀ start, Begins "__" start → ¬Begins start name) ∨ ∃ start ∈ kind.starts, Begins start name := by
  cases kind with
  | user => exact Or.inl fun _ hstart => not_begins_of_isVariableName h hstart
  | eventParam => exact Or.inl fun _ hstart => not_begins_of_isVariableName h hstart
  | imported => exact Or.inr ⟨_, List.mem_singleton_self _, h⟩
  | literal => exact Or.inr ⟨_, List.mem_singleton_self _, h⟩
  | system =>
    obtain ⟨which, rfl⟩ := h
    refine Or.inr ⟨which.name, List.mem_map_of_mem ?_, List.prefix_refl _⟩
    cases which <;> decide
  | internal =>
    rcases h with h | h | ⟨event, param, hevent, hfirst, rfl⟩
    · exact Or.inr ⟨_, by decide, h⟩
    · exact Or.inr ⟨_, by decide, h⟩
    · exact Or.inl fun _ hstart => not_begins_customParamVariable hevent hfirst hstart
  | _ => exact Or.inr ⟨_, List.mem_singleton_self _, Numbered.begins h⟩

theorem Admits.eq_of_begins (h : kind.Admits counter name) (hstart : start ∈ kind'.starts)
    (hbegins : Begins start name) : kind = kind' := by
  rcases h.begins with hplain | ⟨start', hstart', hbegins'⟩
  · exact absurd hbegins (hplain start (begins_of_mem_starts hstart))
  · rcases hbegins.or hbegins' with hor | hor
    · exact (eq_of_begins_starts hstart hstart' hor).symm
    · exact eq_of_begins_starts hstart' hstart hor

end VariableKind

namespace SymbolTable

variable {t : SymbolTable} {id : VarId} {v : Variable}

/-- The names of all variables fit their kinds and are distinct; only variables of the author and of
modules are watched, and no identifier is bound to a variable of a module. -/
structure Proper (t : SymbolTable) : Prop where
  fits {id : VarId} {v : Variable} : t.get? id = some v → v.kind.Admits t.counter v.name
  unique {id : VarId} {v : Variable} : t.get? id = some v → t.names.get? v.name = some id
  shadow {id : VarId} {v : Variable} {x : String} : t.get? id = some v → v.name = "__prev_" ++ x →
    ∃ j w, t.get? j = some w ∧ w.name = x ∧ w.previous = some id
  watched {id : VarId} {v : Variable} : t.get? id = some v →
    v.onChange.isSome = true ∨ v.previous.isSome = true → v.kind = .user ∨ v.kind = .imported
  bound {guid : Guid} {id : VarId} {v : Variable} : t.guids.get? guid = some id →
    t.get? id = some v → v.kind ≠ .imported

theorem proper_empty : ({} : SymbolTable).Proper where
  fits h := by cases h
  unique h := by cases h
  shadow h := by cases h
  watched h := by cases h
  bound h := by cases h

theorem Proper.countUp (h : t.Proper) : t.countUp.Proper :=
  ⟨fun hv => (h.fits hv).mono (Nat.le_succ _), h.unique, h.shadow, h.watched, h.bound⟩

theorem Consistent.free_of_forall_ne (h : t.Consistent) {name : String}
    (hne : ∀ id v, t.get? id = some v → v.name ≠ name) : t.names.contains name = false := by
  cases hget : t.names.get? name with
  | none => rw [OrderedMap.contains, hget]; rfl
  | some id =>
    obtain ⟨v, hv, hname⟩ := h.names hget
    exact absurd hname (hne id v hv)

/-- A new variable whose name is free. -/
theorem Proper.insert (h : t.Proper) (hc : t.Consistent) (hfree : t.names.contains v.name = false)
    (hfits : v.kind.Admits t.counter v.name) (hprevious : v.previous = none)
    (hshadow : ¬Begins "__prev_" v.name)
    (hwatched : v.onChange.isSome = true → v.kind = .user ∨ v.kind = .imported)
    (hguid : v.guid.isSome = true → v.kind ≠ .imported) : (t.insert v).2.Proper := by
  have hold {j : VarId} {w : Variable} (hw : t.get? j = some w) : (t.insert v).2.get? j = some w := by
    rw [hc.get?_insert_of_live ⟨w, hw⟩, hw]
  refine ⟨fun {j w} hw => ?_, fun {j w} hw => ?_, fun {j w x} hw hx => ?_, fun {j w} hw hon => ?_,
    fun {guid j w} hg hw => ?_⟩
  · rw [get?_insert] at hw
    split at hw
    · cases hw
      exact hfits
    · exact h.fits hw
  · rw [SymbolTable.insert, OrderedMap.get?_insert]
    rw [get?_insert] at hw
    split at hw
    · rename_i heq
      cases hw
      rw [if_pos rfl, heq]
    · have hne : v.name ≠ w.name := fun heq => by
        rw [heq, hc.named hw] at hfree
        cases hfree
      rw [if_neg hne]
      exact h.unique hw
  · rw [get?_insert] at hw
    split at hw
    · cases hw
      exact absurd (hx ▸ begins_append _ _) hshadow
    · obtain ⟨k, u, hu, hrest⟩ := h.shadow hw hx
      exact ⟨k, u, hold hu, hrest⟩
  · rw [get?_insert] at hw
    split at hw
    · cases hw
      rw [hprevious] at hon
      exact hwatched (hon.resolve_right (by simp))
    · exact h.watched hw hon
  · have holdGuid : t.guids.get? guid = some j → w.kind ≠ .imported := by
      intro hbound
      obtain ⟨u, hu⟩ := hc.guids hbound
      rw [hold hu] at hw
      cases hw
      exact h.bound hbound hu
    rw [SymbolTable.insert] at hg
    dsimp only at hg
    split at hg
    · rename_i guid' hsome
      rw [OrderedMap.get?_insert] at hg
      split at hg
      · cases hg
        rw [get?_insert_self] at hw
        cases hw
        exact hguid (by rw [hsome]; rfl)
      · exact holdGuid hg
    · exact holdGuid hg

/-- A variable that is looked up by its name before it is added. -/
theorem Proper.getOrInsert (h : t.Proper) (hc : t.Consistent)
    (hfits : v.kind.Admits t.counter v.name) (hprevious : v.previous = none)
    (hshadow : ¬Begins "__prev_" v.name)
    (hwatched : v.onChange.isSome = true → v.kind = .user ∨ v.kind = .imported)
    (hguid : v.guid = none) : (t.getOrInsert v).2.Proper := by
  unfold SymbolTable.getOrInsert
  split
  · exact h
  · rename_i hnone
    refine h.insert hc ?_ hfits hprevious hshadow hwatched (by rw [hguid]; simp)
    rw [OrderedMap.contains, ← idOfName?, hnone]
    rfl

/-- A variable of the compiler whose name is made up with the next number. -/
theorem Proper.made (h : t.Proper) (hc : t.Consistent) {kind : VariableKind} {start stem : String}
    (hv : v.kind = kind) (hstart : start ∈ kind.starts)
    (hkind : ∀ counter name, kind.Admits counter name ↔ Numbered start counter name)
    (hinternal : kind ≠ .internal) (hname : v.name = start ++ stem ++ "_" ++ toString t.counter)
    (hprevious : v.previous = none) (hchange : v.onChange = none) (hguid : v.guid = none) :
    (t.countUp.insert v).2.Proper := by
  have hfits : kind.Admits t.countUp.counter v.name :=
    (hkind _ _).mpr ⟨stem, t.counter, Nat.lt_succ_self _, hname⟩
  have hbegins : Begins start v.name := ((hkind _ _).mp hfits).begins
  refine h.countUp.insert hc.countUp (hc.countUp.free_of_forall_ne fun j w hw heq => ?_) (hv ▸ hfits)
    hprevious (fun hprev => hinternal (hfits.eq_of_begins (by decide) hprev))
    (by rw [hchange]; simp) (by rw [hguid]; simp)
  -- A variable with the same beginning is of the same kind and has a smaller number.
  have hw := h.fits (show t.get? j = some w from hw)
  have hsame : w.kind = kind := hw.eq_of_begins hstart (heq ▸ hbegins)
  rw [hsame, heq] at hw
  obtain ⟨stem', n, hn, hn'⟩ := (hkind _ _).mp hw
  rw [hname] at hn'
  have heqn := underscore_number_inj hn'
  omega

theorem Proper.declareLocal (h : t.Proper) (hc : t.Consistent) (name : String) (type : VarType) :
    (t.declareLocal name type).2.Proper :=
  h.made hc (show _ = VariableKind.blockLocal from rfl) (List.mem_singleton_self _)
    (fun _ _ => Iff.rfl) (by decide) (show _ = "__lcl_" ++ name ++ "_" ++ _ from rfl) rfl rfl rfl

theorem Proper.constant (h : t.Proper) (hc : t.Consistent) (type : VarType) (value : Value) :
    (t.constant type value).2.Proper := by
  unfold SymbolTable.constant
  dsimp only
  split
  · exact h
  · generalize hv : (Variable.mk _ type value .constant _ _ _ _ _ _) = v
    have hp : (t.countUp.insert v).2.Proper := by
      rw [← hv]
      exact h.made hc (show _ = VariableKind.constant from rfl) (List.mem_singleton_self _)
        (fun _ _ => Iff.rfl) (by decide)
        (show _ = "__const_" ++ type.machineName ++ "_" ++ _ from rfl) rfl rfl rfl
    exact ⟨hp.fits, hp.unique, hp.shadow, hp.watched, hp.bound⟩

theorem Proper.acquireTemp (h : t.Proper) (hc : t.Consistent) (type : VarType) :
    (t.acquireTemp type).2.Proper := by
  unfold SymbolTable.acquireTemp
  split
  · exact ⟨h.fits, h.unique, h.shadow, h.watched, h.bound⟩
  · generalize hv : (Variable.mk _ type _ .temp _ _ _ _ _ _) = v
    have hname : "__tmp_" ++ toString t.counter = "__tmp" ++ "" ++ "_" ++ toString t.counter := rfl
    have hp : (t.countUp.insert v).2.Proper := by
      rw [← hv]
      exact h.made hc (show _ = VariableKind.temp from rfl) (List.mem_singleton_self _)
        (fun _ _ => Iff.rfl) (by decide) hname rfl rfl rfl
    exact ⟨hp.fits, hp.unique, hp.shadow, hp.watched, hp.bound⟩

theorem Proper.releaseTemp (h : t.Proper) (id : VarId) : (t.releaseTemp id).Proper := by
  unfold SymbolTable.releaseTemp
  split
  · dsimp only
    split
    · exact ⟨h.fits, h.unique, h.shadow, h.watched, h.bound⟩
    · exact ⟨h.fits, h.unique, h.shadow, h.watched, h.bound⟩
  · exact h

theorem Proper.bindGuid (h : t.Proper) (guid : Guid)
    (hid : ∀ v, t.get? id = some v → v.kind ≠ .imported) : (t.bindGuid guid id).Proper := by
  refine ⟨h.fits, h.unique, h.shadow, h.watched, fun {guid' id' v} hg hv => ?_⟩
  rw [SymbolTable.bindGuid, OrderedMap.get?_insert] at hg
  split at hg
  · cases hg
    exact hid v hv
  · exact h.bound hg hv

theorem Proper.unbind (h : t.Proper) (id : VarId) : (t.unbind id).Proper := by
  refine ⟨h.fits, h.unique, h.shadow, h.watched, fun {guid' id' v} hg hv => ?_⟩
  rw [SymbolTable.unbind, OrderedMap.get?_filter] at hg
  exact h.bound (Option.filter_eq_some_iff.mp hg).1 hv

/-- A change of a variable that leaves its name and kind alone and never drops a link. -/
theorem Proper.modifyVar (h : t.Proper) {f : Variable → Variable} (hname : ∀ v, (f v).name = v.name)
    (hkind : ∀ v, (f v).kind = v.kind)
    (hwatched : ∀ v, t.get? id = some v →
      (f v).onChange.isSome = true ∨ (f v).previous.isSome = true → v.kind = .user ∨ v.kind = .imported)
    (hlink : ∀ v p w, t.get? id = some v → v.previous = some p → t.get? p = some w →
      w.name = "__prev_" ++ v.name → (f v).previous = some p) :
    (t.modifyVar id f).Proper := by
  have hold {j : VarId} {w : Variable} (hw : (t.modifyVar id f).get? j = some w) :
      ∃ v, t.get? j = some v ∧ (w = v ∨ (j = id ∧ w = f v)) := by
    rw [get?_modifyVar] at hw
    split at hw
    · rename_i heq
      obtain ⟨v, hv, rfl⟩ := Option.map_eq_some_iff.mp hw
      exact ⟨v, hv, Or.inr ⟨heq, rfl⟩⟩
    · exact ⟨w, hw, Or.inl rfl⟩
  refine ⟨fun hw => ?_, fun hw => ?_, fun {j w x} hw hx => ?_, fun hw hon => ?_, fun hg hw => ?_⟩
  · obtain ⟨v, hv, rfl | ⟨-, rfl⟩⟩ := hold hw
    · exact h.fits hv
    · rw [hname, hkind]
      exact h.fits hv
  · obtain ⟨v, hv, rfl | ⟨-, rfl⟩⟩ := hold hw
    · exact h.unique hv
    · rw [hname]
      exact h.unique hv
  · have hshadow : ∃ v, t.get? j = some v ∧ v.name = "__prev_" ++ x := by
      obtain ⟨v, hv, rfl | ⟨-, rfl⟩⟩ := hold hw
      · exact ⟨w, hv, hx⟩
      · exact ⟨v, hv, by rw [← hname, hx]⟩
    obtain ⟨v, hv, hvx⟩ := hshadow
    obtain ⟨k, u, hu, hux, hup⟩ := h.shadow hv hvx
    by_cases hk : k = id
    · subst hk
      exact ⟨k, f u, by rw [get?_modifyVar, if_pos rfl, hu]; rfl, by rw [hname, hux],
        hlink u j v hu hup hv (by rw [hvx, hux])⟩
    · exact ⟨k, u, by rw [get?_modifyVar, if_neg hk, hu], hux, hup⟩
  · obtain ⟨v, hv, rfl | ⟨rfl, rfl⟩⟩ := hold hw
    · exact h.watched hv hon
    · rw [hkind]
      exact hwatched v hv hon
  · obtain ⟨v, hv, rfl | ⟨-, rfl⟩⟩ := hold hw
    · exact h.bound hg hv
    · rw [hkind]
      exact h.bound hg hv

/-- The variable for the previous value of a watched variable. -/
theorem Proper.ensurePrevious (h : t.Proper) (hc : t.Consistent) (hv : t.get? id = some v)
    (hwatched : v.onChange.isSome = true) : (t.ensurePrevious id).2.Proper := by
  have hkind : v.kind = .user ∨ v.kind = .imported := h.watched hv (Or.inl hwatched)
  have hshadow : ¬Begins "__prev_" v.name := fun hbegins => by
    have hinternal : v.kind = .internal := (h.fits hv).eq_of_begins (by decide) hbegins
    rw [hinternal] at hkind
    simp at hkind
  rcases ensurePrevious_cases t id with hsame | ⟨v', hv', hprevious, heq⟩
  · exact hsame.symm ▸ h
  · rw [hv] at hv'
    cases hv'
    rw [heq]
    have hget := hc.get?_shadowed hv
    -- A variable of that name would be linked with the watched variable.
    have hfree : t.names.contains v.shadow.name = false := hc.free_of_forall_ne fun j u hu heq => by
      obtain ⟨k, x, hx, hxname, hxprev⟩ := h.shadow hu heq
      have hk : k = id := by
        have := h.unique hx
        rw [hxname, h.unique hv] at this
        exact (Option.some.inj this).symm
      rw [hk, hv] at hx
      cases hx
      rw [hprevious] at hxprev
      cases hxprev
    have hother {k : VarId} {y : Variable} (hy : t.get? k = some y) : v.shadow.name ≠ y.name :=
      fun heq => by
        rw [heq, hc.named hy] at hfree
        cases hfree
    have hcases {j : VarId} {u : Variable} (hu : (t.shadowed id v).get? j = some u) :
        (j = id ∧ u = { v with previous := some t.nextId }) ∨ (j = t.nextId ∧ u = v.shadow) ∨
          (j ≠ id ∧ t.get? j = some u) := by
      grind
    refine ⟨fun {j u} hu => ?_, fun {j u} hu => ?_, fun {j u x} hu hx => ?_, fun {j u} hu hon => ?_,
      fun {guid j u} hg hu => ?_⟩
    · rcases hcases hu with ⟨-, rfl⟩ | ⟨-, rfl⟩ | ⟨-, hu⟩
      · have hfits := h.fits hv
        exact hfits
      · exact Or.inl (begins_append _ _)
      · exact h.fits hu
    · show (t.names.insert v.shadow.name t.nextId).get? u.name = some j
      rw [OrderedMap.get?_insert]
      rcases hcases hu with ⟨rfl, rfl⟩ | ⟨rfl, rfl⟩ | ⟨-, hu⟩
      · have hunique := h.unique hv
        rw [if_neg (hother hv)]
        exact hunique
      · rw [if_pos rfl]
      · rw [if_neg (hother hu)]
        exact h.unique hu
    · rcases hcases hu with ⟨-, rfl⟩ | ⟨rfl, rfl⟩ | ⟨-, hu⟩
      · exact absurd (hx ▸ begins_append _ _) hshadow
      · exact ⟨id, { v with previous := some t.nextId }, by rw [hget, if_pos rfl],
          append_right_cancel_iff.mp hx, rfl⟩
      · obtain ⟨k, y, hy, hyx, hyp⟩ := h.shadow hu hx
        have hk : k ≠ id := fun heq => by
          rw [heq, hv] at hy
          cases hy
          rw [hprevious] at hyp
          cases hyp
        exact ⟨k, y, by rw [hget, if_neg hk, if_neg (hc.ne_nextId ⟨y, hy⟩), hy], hyx, hyp⟩
    · rcases hcases hu with ⟨-, rfl⟩ | ⟨-, rfl⟩ | ⟨-, hu⟩
      · exact hkind
      · simp [Variable.shadow] at hon
      · exact h.watched hu hon
    · replace hg : t.guids.get? guid = some j := hg
      rcases hcases hu with ⟨rfl, rfl⟩ | ⟨-, rfl⟩ | ⟨-, hu⟩
      · have hnot := h.bound hg hv
        exact hnot
      · exact (by decide : VariableKind.internal ≠ .imported)
      · exact h.bound hg hu

theorem Proper.declareUser (h : t.Proper) (hc : t.Consistent) {d : VariableDecl}
    {r : VarId × SymbolTable} (hname : Emit.isVariableName d.name = true)
    (hr : t.declareUser d = .ok r) : r.2.Proper := by
  obtain ⟨hfree, -, rfl⟩ := declareUser_eq_ok hr
  exact h.insert hc hfree hname rfl (not_begins_of_isVariableName hname (by decide))
    (fun _ => Or.inl rfl) (by simp)

theorem Proper.system (h : t.Proper) (hc : t.Consistent) (which : SystemVariable) :
    (t.system which).2.Proper := by
  refine h.getOrInsert hc ⟨which, rfl⟩ rfl ?_ (by simp [SystemVariable.toVariable]) rfl
  cases which <;> decide

end SymbolTable

end TriggerCompiler
