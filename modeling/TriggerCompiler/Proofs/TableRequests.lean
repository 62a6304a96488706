import TriggerCompiler.Proofs.Heap

/-! The requests that a symbol table answers, in any order. Every handle that a table stores denotes a
variable, a handle never comes to denote another variable, and a temporary is either leased or on the
free list of its type, at most once. Removing a variable takes the chain of variables for previous values
along and nothing else. -/

namespace TriggerCompiler

namespace SymbolTable

/-- A request to a table. The address of a label is a constant, and the object that owns the program a
system variable. -/
inductive Request where
  | declareUser (d : VariableDecl)
  | declareImported (name : String) (source : Variable)
  | declareLocal (name : String) (type : VarType)
  | declareInternal (name : String) (type : VarType) (default : Value)
  | declareEventParam (name : String) (type : VarType)
  | system (which : SystemVariable)
  | constant (type : VarType) (value : Value)
  | literal (name : String) (type : VarType) (value : Value)
  | acquireTemp (type : VarType)
  | releaseTemp (id : VarId)
  | bindGuid (guid : Guid) (id : VarId)
  | unbind (id : VarId)
  | ensurePrevious (id : VarId)
  | remove (id : VarId)

namespace Request

/-- The handle that a request yields, if it yields one, and the table behind it. -/
def answer (t : SymbolTable) : Request → Option VarId × SymbolTable
  | declareUser d =>
      match t.declareUser d with
      | .ok r => given r
      | .error _ => (none, t)
  | declareImported name source => given (t.declareImported name source)
  | declareLocal name type => given (t.declareLocal name type)
  | declareInternal name type default => given (t.declareInternal name type default)
  | declareEventParam name type => given (t.declareEventParam name type)
  | system which => given (t.system which)
  | constant type value => given (t.constant type value)
  | literal name type value => given (t.literal name type value)
  | acquireTemp type => given (t.acquireTemp type)
  | releaseTemp id => (none, t.releaseTemp id)
  | bindGuid guid id => (none, t.bindGuid guid id)
  | unbind id => (none, t.unbind id)
  | ensurePrevious id => t.ensurePrevious id
  | remove id => (none, (t.remove id).2)
where
  /-- The answer of a request that always yields a handle. -/
  given (r : VarId × SymbolTable) : Option VarId × SymbolTable := (some r.1, r.2)

/-- Only a handle that denotes a variable may be bound. -/
def Allowed (t : SymbolTable) : Request → Prop
  | bindGuid _ id => (t.get? id).isSome = true
  | _ => True

/-- Whether a request takes variables away. -/
def isRemoval : Request → Bool
  | remove _ => true
  | _ => false

end Request

/-- The table behind a sequence of requests. -/
def run (t : SymbolTable) (requests : List Request) : SymbolTable :=
  requests.foldl (fun t r => (r.answer t).2) t

/-- Every request of a sequence is allowed when it is made. -/
def Allows (t : SymbolTable) : List Request → Prop
  | [] => True
  | r :: rest => r.Allowed t ∧ Allows (r.answer t).2 rest

/-- What a table keeps under all requests. -/
structure Sound (t : SymbolTable) : Prop extends Anchored t where
  constants {key : String} {id : VarId} : t.constants.get? key = some id →
    ∃ v, t.get? id = some v ∧ v.default.poolKey v.type = key
  free {type : VarType} {ids : List VarId} {id : VarId} : t.freeTemps.get? type = some ids →
    id ∈ ids → ∃ v, t.get? id = some v ∧ v.kind = .temp ∧ v.type = type
  free_nodup {type : VarType} {ids : List VarId} : t.freeTemps.get? type = some ids → ids.Nodup
  free_apart {type : VarType} {ids : List VarId} {id : VarId} : t.freeTemps.get? type = some ids →
    id ∈ ids → id ∉ t.leased
  /-- The variable for a previous value is younger than the variable. -/
  previous {id p : VarId} {v : Variable} : t.get? id = some v → v.previous = some p →
    id < p ∧ p < t.nextId

/-- What a table is behind requests that add at most the given number of variables: a handle that has
been given out denotes the variable it has always denoted, or none. -/
structure Follows (t : SymbolTable) (made : Nat) (t' : SymbolTable) : Prop where
  grows : t.nextId ≤ t'.nextId
  bounded : t'.nextId ≤ t.nextId + made
  vars {id : VarId} {w : Variable} : id < t.nextId → t'.get? id = some w →
    ∃ v, t.get? id = some v ∧ v.Same w

variable {t t' t'' : SymbolTable} {id : VarId} {v : Variable}

theorem sound_empty : ({} : SymbolTable).Sound where
  toAnchored := anchored_empty
  constants h := by cases h
  free h := by cases h
  free_nodup h := by cases h
  free_apart h := by cases h
  previous h := by cases h

namespace Follows

theorem of_vars_eq (hvars : t'.vars = t.vars) (hnext : t'.nextId = t.nextId) : t.Follows 1 t' := by
  refine ⟨Nat.le_of_eq hnext.symm, hnext ▸ Nat.le_succ _, fun {id w} _ hw => ⟨w, ?_, rfl, rfl, rfl, rfl⟩⟩
  rw [get?, ← hvars]
  exact hw

/-- A table with one more variable, whatever else has changed. -/
theorem of_insert (v : Variable) (hvars : t'.vars = t.vars.insert t.nextId v)
    (hnext : t'.nextId = t.nextId + 1) : t.Follows 1 t' := by
  refine ⟨hnext ▸ Nat.le_succ _, Nat.le_of_eq hnext, fun {id w} hid hw => ?_⟩
  rw [get?, hvars, OrderedMap.get?_insert, if_neg (Nat.ne_of_gt hid)] at hw
  exact ⟨w, hw, rfl, rfl, rfl, rfl⟩

theorem trans {m n : Nat} (h : t.Follows m t') (h' : t'.Follows n t'') : t.Follows (m + n) t'' := by
  refine ⟨Nat.le_trans h.grows h'.grows, ?_, fun hid hw => ?_⟩
  · calc t''.nextId ≤ t'.nextId + n := h'.bounded
      _ ≤ t.nextId + m + n := Nat.add_le_add_right h.bounded n
      _ = t.nextId + (m + n) := Nat.add_assoc _ _ _
  obtain ⟨v, hv, hsame⟩ := h'.vars (Nat.lt_of_lt_of_le hid h.grows) hw
  obtain ⟨u, hu, hsame'⟩ := h.vars hid hv
  exact ⟨u, hu, hsame.name.trans hsame'.name, hsame.type.trans hsame'.type,
    hsame.default.trans hsame'.default, hsame.kind.trans hsame'.kind⟩

end Follows

/-! ### Adding a variable -/

theorem Sound.insert (h : t.Sound) (hv : v.previous = none) : (t.insert v).2.Sound := by
  have hold {id : VarId} {w : Variable} (hw : t.get? id = some w) : (t.insert v).2.get? id = some w := by
    rw [h.get?_insert_of_live ⟨w, hw⟩, hw]
  refine ⟨h.toAnchored.insert v, fun hk => ?_, fun hf hin => ?_, h.free_nodup, h.free_apart,
    fun {id p w} hw hp => ?_⟩
  · obtain ⟨w, hw, hkey⟩ := h.constants hk
    exact ⟨w, hold hw, hkey⟩
  · obtain ⟨w, hw, hrest⟩ := h.free hf hin
    exact ⟨w, hold hw, hrest⟩
  · rw [get?_insert] at hw
    split at hw
    · cases hw
      rw [hv] at hp
      cases hp
    · exact (h.previous hw hp).imp_right Nat.lt_succ_of_lt

/-- A table that is sound and follows another one by at most one more variable. -/
structure Continues (t t' : SymbolTable) : Prop where
  sound : t'.Sound
  follows : t.Follows 1 t'

theorem Sound.countUp (h : t.Sound) : t.countUp.Sound :=
  ⟨h.toAnchored.countUp, h.constants, h.free, h.free_nodup, h.free_apart, h.previous⟩

theorem Sound.continues_insert (h : t.Sound) (hv : v.previous = none) : t.Continues (t.insert v).2 :=
  ⟨h.insert hv, .of_insert v rfl rfl⟩

theorem Sound.continues_getOrInsert (h : t.Sound) (hv : v.previous = none) :
    t.Continues (t.getOrInsert v).2 := by
  unfold getOrInsert
  split
  · exact ⟨h, .of_vars_eq rfl rfl⟩
  · exact h.continues_insert hv

theorem Sound.continues_constant (h : t.Sound) (type : VarType) (value : Value) :
    t.Continues (t.constant type value).2 := by
  have hanchored := h.toAnchored.constant type value
  revert hanchored
  unfold constant
  dsimp only
  split
  · exact fun _ => ⟨h, .of_vars_eq rfl rfl⟩
  · generalize hv : ({ name := _, type, default := value, kind := .constant } : Variable) = v
    intro hanchored
    have hs := h.countUp.insert (v := v) (by rw [← hv])
    refine ⟨⟨hanchored, fun {key id} hpool => ?_, hs.free, hs.free_nodup, hs.free_apart, hs.previous⟩,
      .of_insert v rfl rfl⟩
    dsimp only at hpool
    rw [OrderedMap.get?_insert] at hpool
    split at hpool
    · rename_i heq
      cases hpool
      exact ⟨v, get?_insert_self t.countUp v, by rw [← heq, ← hv]⟩
    · exact hs.constants hpool

/-! ### Temporaries -/

/-- The handles that are not leased on the list of a type. -/
theorem Sound.free_getD (h : t.Sound) (type : VarType) (hid : id ∈ (t.freeTemps.get? type).getD []) :
    (∃ v, t.get? id = some v ∧ v.kind = .temp ∧ v.type = type) ∧ id ∉ t.leased := by
  cases hget : t.freeTemps.get? type with
  | none =>
    rw [hget] at hid
    cases hid
  | some ids =>
    rw [hget] at hid
    exact ⟨h.free hget hid, h.free_apart hget hid⟩

theorem Sound.nodup_getD (h : t.Sound) (type : VarType) : ((t.freeTemps.get? type).getD []).Nodup := by
  cases hget : t.freeTemps.get? type with
  | none => exact List.nodup_nil
  | some ids => exact h.free_nodup hget

theorem Sound.continues_acquireTemp (h : t.Sound) (type : VarType) :
    t.Continues (t.acquireTemp type).2 := by
  have hanchored := h.toAnchored.acquireTemp type fun i hi => by
    obtain ⟨⟨v, hv, hkind, -⟩, -⟩ := h.free_getD type hi
    exact ⟨v, hv, hkind⟩
  revert hanchored
  unfold acquireTemp
  split
  · rename_i id rest hfree
    intro hanchored
    have hnodup : (id :: rest).Nodup := hfree ▸ h.nodup_getD type
    have hfound {i : VarId} (hi : i ∈ id :: rest) := h.free_getD type (hfree ▸ hi)
    -- The handle is on no other list, because each list holds variables of its own type.
    have hother {type' : VarType} {ids : List VarId} {i : VarId} (hne : type ≠ type')
        (hf : t.freeTemps.get? type' = some ids) (hi : i ∈ ids) : i ≠ id := by
      rintro rfl
      obtain ⟨⟨v, hv, -, htype⟩, -⟩ := hfound List.mem_cons_self
      obtain ⟨w, hw, -, htype'⟩ := h.free hf hi
      rw [hv] at hw
      cases hw
      exact hne (htype.symm.trans htype')
    refine ⟨⟨hanchored, h.constants, fun {type' ids i} hf hi => ?_, fun {type' ids} hf => ?_,
      fun {type' ids i} hf hi => ?_, h.previous⟩, .of_vars_eq rfl rfl⟩
    · rw [OrderedMap.get?_insert] at hf
      split at hf
      · rename_i heq
        cases hf
        exact heq ▸ (hfound (List.mem_cons_of_mem _ hi)).1
      · exact h.free hf hi
    · rw [OrderedMap.get?_insert] at hf
      split at hf
      · cases hf
        exact (List.nodup_cons.mp hnodup).2
      · exact h.free_nodup hf
    · rw [List.mem_cons, not_or]
      rw [OrderedMap.get?_insert] at hf
      split at hf
      · cases hf
        exact ⟨fun heq => (List.nodup_cons.mp hnodup).1 (heq ▸ hi),
          (hfound (List.mem_cons_of_mem _ hi)).2⟩
      · rename_i hne
        exact ⟨hother hne hf hi, h.free_apart hf hi⟩
  · generalize hv : (Variable.mk _ type _ .temp _ _ _ _ _ _) = v
    intro hanchored
    have hs := h.countUp.insert (v := v) (by rw [← hv])
    refine ⟨⟨hanchored, hs.constants, hs.free, hs.free_nodup, fun {type' ids i} hf hi => ?_, hs.previous⟩,
      .of_insert v rfl rfl⟩
    rw [List.mem_cons, not_or]
    obtain ⟨w, hw, -⟩ := h.free hf hi
    exact ⟨Nat.ne_of_lt (h.bound hw), h.free_apart hf hi⟩

theorem Sound.continues_releaseTemp (h : t.Sound) (id : VarId) : t.Continues (t.releaseTemp id) := by
  have hanchored := h.toAnchored.releaseTemp id
  revert hanchored
  unfold releaseTemp
  split
  · rename_i hleased
    obtain ⟨v, hv, hkind⟩ := h.leases hleased
    have hget : SymbolTable.get? { t with leased := t.leased.filter (· ≠ id) } id = some v := hv
    dsimp only
    rw [hget]
    refine fun hanchored => ⟨⟨hanchored, h.constants, fun {type ids i} hf hi => ?_, fun {type ids} hf => ?_,
      fun {type ids i} hf hi => ?_, h.previous⟩, .of_vars_eq rfl rfl⟩
    · dsimp only at hf
      rw [OrderedMap.get?_insert] at hf
      split at hf
      · rename_i heq
        cases hf
        rcases List.mem_cons.mp hi with rfl | hi
        · exact ⟨v, hv, hkind, heq⟩
        · exact heq ▸ (h.free_getD _ hi).1
      · exact h.free hf hi
    · dsimp only at hf
      rw [OrderedMap.get?_insert] at hf
      split at hf
      · cases hf
        exact List.nodup_cons.mpr ⟨fun hi => (h.free_getD _ hi).2 hleased, h.nodup_getD _⟩
      · exact h.free_nodup hf
    · -- What is on a list now was there before and so not leased, or is the handle given back.
      intro hmem
      obtain ⟨hleased', hne⟩ := List.mem_filter.mp hmem
      dsimp only at hf
      rw [OrderedMap.get?_insert] at hf
      split at hf
      · cases hf
        rcases List.mem_cons.mp hi with rfl | hi
        · simp at hne
        · exact (h.free_getD _ hi).2 hleased'
      · exact h.free_apart hf hi hleased'
  · exact fun _ => ⟨h, .of_vars_eq rfl rfl⟩

/-- A temporary that is leased has the type that was asked for and was not leased before. -/
theorem Sound.acquireTemp_spec (h : t.Sound) (type : VarType) :
    (t.acquireTemp type).1 ∉ t.leased ∧ (t.acquireTemp type).1 ∈ (t.acquireTemp type).2.leased ∧
      ∃ v, (t.acquireTemp type).2.get? (t.acquireTemp type).1 = some v ∧ v.kind = .temp ∧
        v.type = type := by
  unfold acquireTemp
  split
  · rename_i id rest hfree
    obtain ⟨hv, hleased⟩ := h.free_getD type (hfree ▸ List.mem_cons_self)
    exact ⟨hleased, List.mem_cons_self, hv⟩
  · refine ⟨fun hin => ?_, List.mem_cons_self, _, get?_insert_self t.countUp _, rfl, rfl⟩
    obtain ⟨v, hv, -⟩ := h.leases hin
    exact Nat.lt_irrefl _ (h.bound hv)

/-! ### Previous values -/

/-- A link from a variable to a younger one. -/
theorem Sound.link (h : t.Sound) {p : VarId} (hold : id < p) (hnew : p < t.nextId) :
    (t.modifyVar id fun v => { v with previous := some p }).Sound := by
  have hsame (v : Variable) : v.Same { v with previous := some p } := ⟨rfl, rfl, rfl, rfl⟩
  have hext := extends_modifyVar t id hsame
  refine ⟨h.toAnchored.modifyVar hsame id, fun hk => ?_, fun hf hi => ?_, h.free_nodup, h.free_apart,
    fun {j q u} hu hlink => ?_⟩
  · obtain ⟨v, hv, hkey⟩ := h.constants hk
    obtain ⟨w, hw, hsame⟩ := hext.vars hv
    exact ⟨w, hw, by rw [hsame.default, hsame.type, hkey]⟩
  · obtain ⟨v, hv, hkind, htype⟩ := h.free hf hi
    obtain ⟨w, hw, hsame⟩ := hext.vars hv
    exact ⟨w, hw, hsame.kind.trans hkind, hsame.type.trans htype⟩
  · obtain ⟨v, hv, rfl⟩ := get?_modifyVar_eq_some.mp hu
    split at hlink
    · rename_i heq
      cases hlink
      subst heq
      exact ⟨hold, hnew⟩
    · exact h.previous hv hlink

theorem Sound.continues_ensurePrevious (h : t.Sound) (id : VarId) :
    t.Continues (t.ensurePrevious id).2 := by
  rcases ensurePrevious_cases t id with heq | ⟨v, hv, -, heq⟩
  · rw [heq]
    exact ⟨h, .of_vars_eq rfl rfl⟩
  · rw [heq]
    refine ⟨(h.insert rfl).link (h.bound hv) (Nat.lt_succ_self _), Nat.le_succ _, Nat.le_refl _,
      fun {j u} hj hu => ?_⟩
    rw [h.get?_shadowed hv] at hu
    split at hu
    · rename_i heq
      cases hu
      exact ⟨v, heq ▸ hv, rfl, rfl, rfl, rfl⟩
    · rw [if_neg (Nat.ne_of_gt hj)] at hu
      exact ⟨u, hu, rfl, rfl, rfl, rfl⟩

/-! ### Removing a variable -/

/-- The variables that are removed with a variable: the variable, the one for its previous value, and so
on up to one that has none, or whose own is not there any more. -/
inductive ShadowChain (t : SymbolTable) : VarId → List VarId → Prop
  | gone {id : VarId} (h : t.get? id = none) : ShadowChain t id []
  | last {id : VarId} {v : Variable} (h : t.get? id = some v) (hlast : v.previous = none) :
      ShadowChain t id [id]
  | next {id p : VarId} {v : Variable} {rest : List VarId} (h : t.get? id = some v)
      (hnext : v.previous = some p) (hrest : ShadowChain t p rest) : ShadowChain t id (id :: rest)

/-- A table is another one without some variables, and without every entry for one of them. -/
structure Removes (t : SymbolTable) (gone : List VarId) (t' : SymbolTable) : Prop where
  vars (id : VarId) : t'.get? id = if id ∈ gone then none else t.get? id
  names (name : String) : t'.names.get? name = (t.names.get? name).filter (· ∉ gone)
  guids (guid : Guid) : t'.guids.get? guid = (t.guids.get? guid).filter (· ∉ gone)
  constants (key : String) : t'.constants.get? key = (t.constants.get? key).filter (· ∉ gone)
  leased : t'.leased = t.leased.filter (· ∉ gone)
  free (type : VarType) :
    t'.freeTemps.get? type = (t.freeTemps.get? type).map (List.filter (· ∉ gone))
  nextId : t'.nextId = t.nextId

namespace Removes

variable {gone gone' : List VarId}

theorem refl (t : SymbolTable) : t.Removes [] t := by
  have hfilter (x : Option VarId) : x = x.filter (· ∉ ([] : List VarId)) := by cases x <;> simp [Option.filter]
  refine ⟨by simp, fun _ => hfilter _, fun _ => hfilter _, fun _ => hfilter _, by simp, fun type => ?_, rfl⟩
  cases t.freeTemps.get? type <;> simp

theorem trans (h : t.Removes gone t') (h' : t'.Removes gone' t'') : t.Removes (gone ++ gone') t'' := by
  have hfilter (x : Option VarId) :
      (x.filter (· ∉ gone)).filter (· ∉ gone') = x.filter (· ∉ gone ++ gone') := by
    cases x with
    | none => rfl
    | some i => by_cases hi : i ∈ gone <;> by_cases hi' : i ∈ gone' <;> simp [hi, hi', Option.filter]
  have hlist (ids : List VarId) :
      (ids.filter (· ∉ gone)).filter (· ∉ gone') = ids.filter (· ∉ gone ++ gone') := by
    rw [List.filter_filter]
    refine List.filter_congr fun i _ => ?_
    by_cases hi : i ∈ gone <;> by_cases hi' : i ∈ gone' <;> simp [hi, hi']
  refine ⟨fun i => ?_, fun n => ?_, fun g => ?_, fun k => ?_, ?_, fun type => ?_, h'.nextId.trans h.nextId⟩
  · rw [h'.vars, h.vars]
    by_cases hi : i ∈ gone <;> by_cases hi' : i ∈ gone' <;> simp [hi, hi']
  · rw [h'.names, h.names, hfilter]
  · rw [h'.guids, h.guids, hfilter]
  · rw [h'.constants, h.constants, hfilter]
  · rw [h'.leased, h.leased, hlist]
  · rw [h'.free, h.free, Option.map_map]
    exact congrArg (Option.map · _) (funext hlist)

/-- What is left is sound. -/
theorem sound (h : t.Removes gone t') (hs : t.Sound) : t'.Sound := by
  have hold {id : VarId} {v : Variable} (hv : t'.get? id = some v) : t.get? id = some v := by
    rw [h.vars] at hv
    split at hv
    · cases hv
    · exact hv
  have hkept {id : VarId} {v : Variable} (hid : id ∉ gone) (hv : t.get? id = some v) :
      t'.get? id = some v := by
    rw [h.vars, if_neg hid, hv]
  have hentry {x : Option VarId} {id : VarId} (hx : x.filter (· ∉ gone) = some id) :
      x = some id ∧ id ∉ gone := by
    simpa using Option.filter_eq_some_iff.mp hx
  have hlist {type : VarType} {ids : List VarId} (hf : t'.freeTemps.get? type = some ids) :
      ∃ all, t.freeTemps.get? type = some all ∧ ids = all.filter (· ∉ gone) := by
    rw [h.free] at hf
    obtain ⟨all, hall, rfl⟩ := Option.map_eq_some_iff.mp hf
    exact ⟨all, hall, rfl⟩
  refine ⟨⟨⟨fun hv => ?_, fun hn => ?_⟩, fun hg => ?_, fun hi => ?_⟩, fun hk => ?_, fun hf hi => ?_,
    fun hf => ?_, fun hf hi => ?_, fun hv hp => ?_⟩
  · rw [h.nextId]
    exact hs.bound (hold hv)
  · obtain ⟨hn, hid⟩ := hentry (h.names _ ▸ hn)
    obtain ⟨v, hv, hname⟩ := hs.names hn
    exact ⟨v, hkept hid hv, hname⟩
  · obtain ⟨hg, hid⟩ := hentry (h.guids _ ▸ hg)
    obtain ⟨v, hv⟩ := hs.guids hg
    exact ⟨v, hkept hid hv⟩
  · obtain ⟨hi, hid⟩ := List.mem_filter.mp (h.leased ▸ hi)
    obtain ⟨v, hv, hkind⟩ := hs.leases hi
    exact ⟨v, hkept (by simpa using hid) hv, hkind⟩
  · obtain ⟨hk, hid⟩ := hentry (h.constants _ ▸ hk)
    obtain ⟨v, hv, hkey⟩ := hs.constants hk
    exact ⟨v, hkept hid hv, hkey⟩
  · obtain ⟨all, hall, rfl⟩ := hlist hf
    obtain ⟨hi, hid⟩ := List.mem_filter.mp hi
    obtain ⟨v, hv, hrest⟩ := hs.free hall hi
    exact ⟨v, hkept (by simpa using hid) hv, hrest⟩
  · obtain ⟨all, hall, rfl⟩ := hlist hf
    exact (hs.free_nodup hall).filter _
  · obtain ⟨all, hall, rfl⟩ := hlist hf
    rw [h.leased]
    exact fun hleased => hs.free_apart hall (List.mem_filter.mp hi).1 (List.mem_filter.mp hleased).1
  · rw [h.nextId]
    exact hs.previous (hold hv) hp

theorem follows (h : t.Removes gone t') : t.Follows 1 t' := by
  refine ⟨Nat.le_of_eq h.nextId.symm, h.nextId ▸ Nat.le_succ _, fun {id w} _ hw => ?_⟩
  rw [h.vars] at hw
  split at hw
  · cases hw
  · exact ⟨w, hw, rfl, rfl, rfl, rfl⟩

end Removes

theorem Sound.removes_drop (h : t.Sound) (hv : t.get? id = some v) : t.Removes [id] (t.drop id v) := by
  have hfilter (x : Option VarId) : x.filter (fun i => i ≠ id) = x.filter (· ∉ [id]) := by
    cases x <;> simp [Option.filter]
  refine ⟨fun i => ?_, fun name => ?_, fun guid => ?_, fun key => ?_, ?_, fun type => ?_, rfl⟩
  · rw [get?, drop, OrderedMap.get?_erase]
    by_cases hi : id = i <;> simp [hi, get?, eq_comm]
  · -- An entry for the variable stands under its own name.
    have hname {n : String} (hn : t.names.get? n = some id) : v.name = n := by
      obtain ⟨w, hw, rfl⟩ := h.names hn
      rw [hv] at hw
      cases hw
      rfl
    have hother {n : String} (hn : v.name ≠ n) : (t.names.get? n).filter (· ∉ [id]) = t.names.get? n := by
      cases hget : t.names.get? n with
      | none => rfl
      | some i =>
        have hne : i ≠ id := fun heq => hn (hname (heq ▸ hget))
        simp [Option.filter, hne]
    rw [drop]
    dsimp only
    split
    · rename_i hown
      rw [OrderedMap.get?_erase]
      split
      · rename_i heq
        rw [← heq, hown]
        simp [Option.filter]
      · rename_i hne
        rw [hother hne]
    · rename_i hown
      by_cases heq : v.name = name
      · subst heq
        cases hget : t.names.get? v.name with
        | none => rfl
        | some i =>
          have hne : i ≠ id := fun heq => hown (heq ▸ hget)
          simp [Option.filter, hne]
      · rw [hother heq]
  · exact (OrderedMap.get?_filter _ _ _).trans (hfilter _)
  · exact (OrderedMap.get?_filter _ _ _).trans (hfilter _)
  · simp [drop]
  · refine (OrderedMap.get?_mapValues _ _ _).trans (congrArg (Option.map · _) (funext fun ids => ?_))
    simp

theorem ShadowChain.unique {chain chain' : List VarId} (h : t.ShadowChain id chain)
    (h' : t.ShadowChain id chain') : chain = chain' := by
  induction h generalizing chain' with
  | gone hv => cases h' <;> simp_all
  | last hv hlast => cases h' <;> simp_all
  | next hv hnext _ ih =>
    cases h' with
    | gone hv' => simp_all
    | last hv' hlast => simp_all
    | next hv' hnext' hrest =>
      rw [hv] at hv'
      cases hv'
      rw [hnext] at hnext'
      cases hnext'
      rw [ih hrest]

theorem ShadowChain.le (h : t.Sound) {chain : List VarId} (hc : t.ShadowChain id chain) :
    ∀ i ∈ chain, id ≤ i := by
  induction hc with
  | gone _ => simp
  | last _ _ => simp
  | next hv hnext _ ih =>
    have hlt := (h.previous hv hnext).1
    intro i hi
    rcases List.mem_cons.mp hi with rfl | hi
    · exact Nat.le_refl _
    · exact Nat.le_trans (Nat.le_of_lt hlt) (ih i hi)

theorem ShadowChain.sorted (h : t.Sound) {chain : List VarId} (hc : t.ShadowChain id chain) :
    chain.Pairwise (· < ·) := by
  induction hc with
  | gone _ => exact .nil
  | last _ _ => exact List.pairwise_singleton _ _
  | next hv hnext hrest ih =>
    exact .cons (fun i hi => Nat.lt_of_lt_of_le (h.previous hv hnext).1 (hrest.le h i hi)) ih

/-- The chain of a younger variable does not see that an older one is gone. -/
theorem ShadowChain.of_drop (h : t.Sound) {j : VarId} (hv : t.get? id = some v) {chain : List VarId}
    (hc : (t.drop id v).ShadowChain j chain) (hj : id < j) : t.ShadowChain j chain := by
  have hget {i : VarId} (hi : id < i) : (t.drop id v).get? i = t.get? i := by
    rw [(h.removes_drop hv).vars, if_neg (by simpa using Nat.ne_of_gt hi)]
  induction hc with
  | gone hw => exact .gone (hget hj ▸ hw)
  | last hw hlast => exact .last (hget hj ▸ hw) hlast
  | next hw hnext _ ih =>
    rw [hget hj] at hw
    exact .next hw hnext (ih (Nat.lt_trans hj (h.previous hw hnext).1))

/-- Removing a variable removes its chain, and nothing else. -/
theorem Sound.removes_remove (h : t.Sound) (id : VarId) :
    (t.remove id).1 = t.get? id ∧
      ∃ chain, t.ShadowChain id chain ∧ t.Removes chain (t.remove id).2 := by
  fun_induction remove t id with
  | case1 t id hnone => exact ⟨hnone.symm, [], .gone hnone, .refl t⟩
  | case2 t id v hv hlast => exact ⟨hv.symm, [id], .last hv hlast, h.removes_drop hv⟩
  | case3 t id v hv p hnext ih =>
    have hdrop := h.removes_drop hv
    obtain ⟨-, chain, hchain, hrest⟩ := ih (hdrop.sound h)
    exact ⟨hv.symm, id :: chain, .next hv hnext (hchain.of_drop h hv (h.previous hv hnext).1),
      hdrop.trans hrest⟩

/-! ### All requests -/

/-- What every request keeps. -/
theorem Sound.continues_answer (h : t.Sound) {r : Request} (hr : r.Allowed t) :
    t.Continues (r.answer t).2 := by
  cases r with
  | declareUser d =>
    rw [Request.answer]
    split
    · rename_i r hd
      obtain ⟨-, -, rfl⟩ := declareUser_eq_ok hd
      exact h.continues_insert rfl
    · exact ⟨h, .of_vars_eq rfl rfl⟩
  | declareImported name source => exact h.continues_getOrInsert rfl
  | declareLocal name type => exact ⟨h.countUp.insert rfl, .of_insert _ rfl rfl⟩
  | declareInternal name type default => exact h.continues_getOrInsert rfl
  | declareEventParam name type => exact h.continues_getOrInsert rfl
  | system which => exact h.continues_getOrInsert rfl
  | constant type value => exact h.continues_constant type value
  | literal name type value => exact h.continues_getOrInsert rfl
  | acquireTemp type => exact h.continues_acquireTemp type
  | releaseTemp id => exact h.continues_releaseTemp id
  | bindGuid guid id =>
    exact ⟨⟨h.toAnchored.bindGuid (Option.isSome_iff_exists.mp hr) guid, h.constants, h.free, h.free_nodup,
      h.free_apart, h.previous⟩, .of_vars_eq rfl rfl⟩
  | unbind id =>
    exact ⟨⟨h.toAnchored.unbind id, h.constants, h.free, h.free_nodup, h.free_apart, h.previous⟩,
      .of_vars_eq rfl rfl⟩
  | ensurePrevious id => exact h.continues_ensurePrevious id
  | remove id =>
    obtain ⟨-, chain, -, hremoves⟩ := h.removes_remove id
    exact ⟨hremoves.sound h, hremoves.follows⟩

/-- What every sequence of requests keeps. -/
theorem Sound.run (h : t.Sound) {requests : List Request} (hr : t.Allows requests) :
    (t.run requests).Sound ∧ t.Follows requests.length (t.run requests) := by
  induction requests generalizing t with
  | nil => exact ⟨h, Nat.le_refl _, Nat.le_refl _, fun {id w} _ hw => ⟨w, hw, rfl, rfl, rfl, rfl⟩⟩
  | cons r rest ih =>
    have hfirst := h.continues_answer hr.1
    obtain ⟨hsound, hrest⟩ := ih hfirst.sound hr.2
    refine ⟨hsound, ?_⟩
    rw [List.length_cons, Nat.add_comm]
    exact hfirst.follows.trans hrest

/-- The tables that requests lead to from the empty one are sound. Their handles are numbered by the
requests, and later requests never let a handle denote another variable. A temporary that is leased
has the type that was asked for and was not leased. A variable is removed with the chain of its previous
values: every entry for one of them goes, and all other entries stay. -/
theorem requests_keep_sound (requests : List Request) (hr : Allows {} requests) :
    let t := run {} requests
    t.Sound ∧ t.nextId ≤ requests.length ∧
    (∀ later, t.Allows later → ∀ id w, id < t.nextId → (t.run later).get? id = some w →
      ∃ v, t.get? id = some v ∧ v.Same w) ∧
    (∀ type, (t.acquireTemp type).1 ∉ t.leased ∧
      ∃ v, (t.acquireTemp type).2.get? (t.acquireTemp type).1 = some v ∧ v.type = type) ∧
    ∀ id, (t.remove id).1 = t.get? id ∧ ∃ chain, t.ShadowChain id chain ∧ chain.Pairwise (· < ·) ∧
      t.Removes chain (t.remove id).2 := by
  intro t
  obtain ⟨hsound, hfollows⟩ := sound_empty.run hr
  refine ⟨hsound, Nat.le_trans hfollows.bounded (Nat.le_of_eq (Nat.zero_add _)),
    fun later hlater id w hid hw => ?_, fun type => ?_, fun id => ?_⟩
  · exact (hsound.run hlater).2.vars hid hw
  · obtain ⟨hfree, -, v, hv, -, htype⟩ := hsound.acquireTemp_spec type
    exact ⟨hfree, v, hv, htype⟩
  · obtain ⟨hvar, chain, hchain, hremoves⟩ := hsound.removes_remove id
    exact ⟨hvar, chain, hchain, hchain.sorted hsound, hremoves⟩

/-- A variable with a previous value that has one itself, and a temporary that is given back twice. -/
def shadowedTwice : List Request := [
  .declareUser { guid := sampleGuid 0, name := "x", type := .int },
  .ensurePrevious 0, .ensurePrevious 1, .acquireTemp .bool, .releaseTemp 3, .releaseTemp 3,
  .bindGuid (sampleGuid 1) 2]

/-- The variable takes both along, so the identifier that was bound to the last one stands for nothing;
the temporary is leased again. -/
theorem requests_keep_sound_shadowedTwice :
    Allows {} shadowedTwice ∧ (run {} shadowedTwice).Sound ∧
      ((run {} shadowedTwice).acquireTemp .bool).1 = 3 ∧ 3 ∉ (run {} shadowedTwice).leased ∧
      (run {} shadowedTwice).ShadowChain 0 [0, 1, 2] ∧
      (run {} shadowedTwice).guids.get? (sampleGuid 1) = some 2 ∧
      ((run {} shadowedTwice).remove 0).2.guids.get? (sampleGuid 1) = none := by
  have hallows : Allows {} shadowedTwice := by
    simp only [shadowedTwice, Allows, Request.Allowed, true_and, and_true]
    decide
  obtain ⟨hsound, -, -, hlease, hremove⟩ := requests_keep_sound shadowedTwice hallows
  have htemp : ((run {} shadowedTwice).acquireTemp .bool).1 = 3 := by decide
  have hguid : (run {} shadowedTwice).guids.get? (sampleGuid 1) = some 2 := by decide
  obtain ⟨-, chain, hchain, -, hremoves⟩ := hremove 0
  have hthree : (run {} shadowedTwice).ShadowChain 0 [0, 1, 2] :=
    .next rfl rfl (.next rfl rfl (.last rfl rfl))
  cases hchain.unique hthree
  refine ⟨hallows, hsound, htemp, htemp ▸ (hlease .bool).1, hchain, hguid, ?_⟩
  rw [hremoves.guids, hguid]
  rfl

end SymbolTable

end TriggerCompiler
