import TriggerCompiler.Proofs.Heap
import TriggerCompiler.Proofs.Names

/-! How a heap evolves. Variables, and names that an author could give, stay as they are. A request that
binds nothing also leaves the identifiers alone, and adds no variable of the author and none of a
block. -/

namespace TriggerCompiler

open Text

theorem Text.Begins.append {p s : String} (h : Begins p s) (x : String) : Begins p (s ++ x) :=
  h.trans (begins_append s x)

namespace SymbolTable

variable {t t' t'' : SymbolTable} {id : VarId} {v : Variable}

/-- A later state of a heap: the variables are still there, and a name that is not reserved still stands
for the same variable. -/
structure Evolves (t t' : SymbolTable) : Prop where
  consistent : t'.Consistent
  keeps : t.Extends t'
  names {name : String} {id : VarId} : ¬Begins "__" name → t.names.get? name = some id →
    t'.names.get? name = some id
  counter : t.counter ≤ t'.counter

/-- A later state of a heap in which the same identifiers are bound, and in which no variable of the
author or of a block is new. -/
structure Spares (t t' : SymbolTable) : Prop extends Evolves t t' where
  guids : t'.guids = t.guids
  old {id : VarId} {v : Variable} : t'.get? id = some v → v.kind = .user ∨ v.kind = .blockLocal →
    t.Live id

theorem Evolves.refl (hc : t.Consistent) : t.Evolves t := ⟨hc, .refl t, fun _ h => h, Nat.le_refl _⟩

theorem Evolves.trans (h : t.Evolves t') (h' : t'.Evolves t'') : t.Evolves t'' :=
  ⟨h'.consistent, h.keeps.trans h'.keeps, fun hname hid => h'.names hname (h.names hname hid),
    Nat.le_trans h.counter h'.counter⟩

theorem Spares.refl (hc : t.Consistent) : t.Spares t :=
  ⟨.refl hc, rfl, fun hv _ => ⟨_, hv⟩⟩

theorem Spares.trans (h : t.Spares t') (h' : t'.Spares t'') : t.Spares t'' := by
  refine ⟨h.toEvolves.trans h'.toEvolves, h'.guids.trans h.guids, fun hv hkind => ?_⟩
  obtain ⟨w, hw⟩ := h'.old hv hkind
  obtain ⟨u, hu, hsame⟩ := h'.keeps.vars hw
  rw [hv] at hu
  cases hu
  exact h.old hw (by rwa [← hsame.kind])

/-! ### The requests -/

theorem names_insert_of_free {name : String} (hname : ¬Begins "__" name)
    (hfree : Begins "__" v.name ∨ t.names.contains v.name = false) (hid : t.names.get? name = some id) :
    (t.insert v).2.names.get? name = some id := by
  rw [insert, OrderedMap.get?_insert, if_neg, hid]
  rintro rfl
  rcases hfree with hbegins | hfree
  · exact hname hbegins
  · rw [OrderedMap.contains, hid] at hfree
    cases hfree

theorem evolves_insert (hc : t.Consistent) (hprevious : v.previous = none)
    (hfree : Begins "__" v.name ∨ t.names.contains v.name = false) : t.Evolves (t.insert v).2 :=
  ⟨consistent_insert hc hprevious, hc.extends_insert v, fun hname hid =>
    names_insert_of_free hname hfree hid, Nat.le_refl _⟩

theorem old_insert {w : Variable} (hv : v.kind ≠ .user ∧ v.kind ≠ .blockLocal)
    (hw : (t.insert v).2.get? id = some w) (hkind : w.kind = .user ∨ w.kind = .blockLocal) :
    t.Live id := by
  rw [get?_insert] at hw
  split at hw
  · cases hw
    rcases hkind with hkind | hkind
    · exact absurd hkind hv.1
    · exact absurd hkind hv.2
  · exact ⟨w, hw⟩

theorem spares_insert (hc : t.Consistent) (hprevious : v.previous = none) (hguid : v.guid = none)
    (hfree : Begins "__" v.name ∨ t.names.contains v.name = false)
    (hkind : v.kind ≠ .user ∧ v.kind ≠ .blockLocal) : t.Spares (t.insert v).2 :=
  ⟨evolves_insert hc hprevious hfree, by rw [insert, hguid], old_insert hkind⟩

theorem evolves_countUp (hc : t.Consistent) : t.Evolves t.countUp :=
  ⟨hc.countUp, extends_of_vars_eq rfl rfl rfl, fun _ h => h, Nat.le_succ _⟩

theorem spares_countUp (hc : t.Consistent) : t.Spares t.countUp :=
  ⟨evolves_countUp hc, rfl, fun hv _ => ⟨_, hv⟩⟩

theorem evolves_getOrInsert (hc : t.Consistent) (hprevious : v.previous = none) :
    t.Evolves (t.getOrInsert v).2 := by
  unfold getOrInsert
  split
  · exact .refl hc
  · rename_i hfree
    refine evolves_insert hc hprevious (Or.inr ?_)
    rw [OrderedMap.contains, show t.names.get? v.name = none from hfree]
    rfl

theorem spares_getOrInsert (hc : t.Consistent) (hprevious : v.previous = none) (hguid : v.guid = none)
    (hkind : v.kind ≠ .user ∧ v.kind ≠ .blockLocal) : t.Spares (t.getOrInsert v).2 := by
  refine ⟨evolves_getOrInsert hc hprevious, ?_, fun hw hwkind => ?_⟩
  · unfold getOrInsert
    split
    · rfl
    · rw [insert, hguid]
  · unfold getOrInsert at hw
    split at hw
    · exact ⟨_, hw⟩
    · exact old_insert hkind hw hwkind

/-- A change of a variable that leaves its name, its type, its value and its kind alone. -/
theorem spares_modifyVar (hc : t.Consistent) {f : Variable → Variable}
    (hsame : ∀ v : Variable, v.Same (f v))
    (hprevious : ∀ v p, (f v).previous = some p → v.previous = some p ∨ t.Live p) (id : VarId) :
    t.Spares (t.modifyVar id f) := by
  refine ⟨⟨?_, extends_modifyVar t id hsame, fun _ h => h, Nat.le_refl _⟩, rfl, fun {j w} hw _ => ?_⟩
  · exact consistent_modifyVar hc hsame hprevious id
  · rw [get?_modifyVar] at hw
    split at hw
    · obtain ⟨u, hu, -⟩ := Option.map_eq_some_iff.mp hw
      exact ⟨u, hu⟩
    · exact ⟨w, hw⟩

/-- A table with the variables, names and identifiers of another one. -/
theorem spares_of_eq (hc : t'.Consistent) (hvars : t'.vars = t.vars) (hnames : t'.names = t.names)
    (hpool : t'.constants = t.constants) (hguids : t'.guids = t.guids)
    (hcounter : t'.counter = t.counter) : t.Spares t' := by
  refine ⟨⟨hc, extends_of_vars_eq hvars hnames hpool, fun _ hid => ?_, Nat.le_of_eq hcounter.symm⟩,
    hguids, fun {id v} hv _ => ⟨v, ?_⟩⟩
  · rw [hnames]
    exact hid
  · rw [get?, ← hvars]
    exact hv

theorem spares_constant (hc : t.Consistent) (type : VarType) (value : Value) :
    t.Spares (t.constant type value).2 := by
  have hyields := yields_constant hc type value
  revert hyields
  unfold constant
  dsimp only
  split
  · exact fun _ => .refl hc
  · generalize hv : (Variable.mk _ type value .constant _ _ _ _ _ _) = v
    intro hyields
    have hinsert := (spares_countUp hc).trans (spares_insert (v := v) hc.countUp (by rw [← hv])
      (by rw [← hv]) (Or.inl ?_) (by simp [← hv]))
    · exact ⟨⟨hyields.consistent, hyields.keeps, hinsert.names, hinsert.counter⟩, hinsert.guids,
        hinsert.old⟩
    · rw [← hv]
      exact (((by decide : Begins "__" "__const_").append _).append _).append _

theorem spares_acquireTemp (hc : t.Consistent) (type : VarType) : t.Spares (t.acquireTemp type).2 := by
  have hyields := yields_acquireTemp hc type
  revert hyields
  unfold acquireTemp
  split
  · exact fun hyields => spares_of_eq hyields.consistent rfl rfl rfl rfl rfl
  · generalize hv : (Variable.mk _ type _ .temp _ _ _ _ _ _) = v
    intro hyields
    have hinsert := (spares_countUp hc).trans (spares_insert (v := v) hc.countUp (by rw [← hv])
      (by rw [← hv]) (Or.inl ?_) (by simp [← hv]))
    · exact ⟨⟨hyields.consistent, hyields.keeps, hinsert.names, hinsert.counter⟩, hinsert.guids,
        hinsert.old⟩
    · rw [← hv]
      exact (by decide : Begins "__" "__tmp_").append _

theorem spares_releaseTemp (hc : t.Consistent) (id : VarId) : t.Spares (t.releaseTemp id) := by
  have hconsistent := consistent_releaseTemp hc id
  revert hconsistent
  unfold releaseTemp
  split
  · dsimp only
    split
    · exact fun hconsistent => spares_of_eq hconsistent rfl rfl rfl rfl rfl
    · exact fun hconsistent => spares_of_eq hconsistent rfl rfl rfl rfl rfl
  · exact fun _ => .refl hc

theorem spares_ensurePrevious (hc : t.Consistent) (id : VarId) :
    t.Spares (t.ensurePrevious id).2 := by
  rcases ensurePrevious_cases t id with heq | ⟨v, -, -, heq⟩
  · rw [heq]
    exact .refl hc
  · have hinsert := spares_insert (v := v.shadow) hc rfl rfl
      (Or.inl ((by decide : Begins "__" "__prev_").append _)) (by simp [Variable.shadow])
    rw [heq]
    refine hinsert.trans (spares_modifyVar (f := fun v => { v with previous := some t.nextId })
      hinsert.consistent (fun _ => ⟨rfl, rfl, rfl, rfl⟩) ?_ id)
    intro u p hp
    cases hp
    exact Or.inr ⟨_, get?_insert_self t _⟩

theorem evolves_declareLocal (hc : t.Consistent) (name : String) (type : VarType) :
    t.Evolves (t.declareLocal name type).2 := by
  refine (evolves_countUp hc).trans (evolves_insert hc.countUp rfl (Or.inl ?_))
  exact (((by decide : Begins "__" "__lcl_").append _).append _).append _

theorem evolves_bindGuid {r : VarId × SymbolTable} (h : t.Evolves r.2) (hlive : r.2.Live r.1)
    (guid : Guid) : t.Evolves (r.2.bindGuid guid r.1) :=
  ⟨consistent_bindGuid h.consistent hlive guid, h.keeps.trans (extends_of_vars_eq rfl rfl rfl),
    h.names, h.counter⟩

theorem evolves_declareUser (hc : t.Consistent) {d : VariableDecl}
    (h : t.declareUser d = .ok (id, t')) : t.Evolves t' := by
  obtain ⟨hfree, -, heq⟩ := declareUser_eq_ok h
  obtain ⟨-, rfl⟩ := Prod.mk.inj heq
  exact evolves_insert hc rfl (Or.inr hfree)

end SymbolTable

end TriggerCompiler
