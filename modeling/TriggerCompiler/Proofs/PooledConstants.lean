import TriggerCompiler.Proofs.ConstantPool
import TriggerCompiler.Proofs.TableRequests

/-! The pool of constants under all requests. The pool never forgets a key, and the variable of a key has
the type and the value that the key describes; so two requests are answered with one variable exactly if
they agree on the name of the type and on the value. -/

namespace TriggerCompiler

namespace SymbolTable

variable {t : SymbolTable} {key : String} {id : VarId} {type type' : VarType} {value value' : Value}

theorem constants_constant_of_some (hk : t.constants.get? key = some id) (type : VarType) (value : Value) :
    (t.constant type value).2.constants.get? key = some id := by
  unfold constant
  dsimp only
  split
  · exact hk
  · rename_i hnone
    have hne : value.poolKey type ≠ key := by
      rintro rfl
      rw [hk] at hnone
      cases hnone
    rw [OrderedMap.get?_insert, if_neg hne]
    exact hk

/-- A request that takes nothing away leaves the pool as it is, or adds to it. -/
theorem Request.constants_answer {r : Request} (hr : r.isRemoval = false)
    (hk : t.constants.get? key = some id) : (r.answer t).2.constants.get? key = some id := by
  have hgetOrInsert (v : Variable) : (t.getOrInsert v).2.constants.get? key = some id := by
    unfold getOrInsert
    split <;> exact hk
  cases r with
  | declareUser d =>
    rw [answer]
    split
    · rename_i r hd
      obtain ⟨-, -, rfl⟩ := declareUser_eq_ok hd
      exact hk
    · exact hk
  | declareImported name source => exact hgetOrInsert _
  | declareLocal name type => exact hk
  | declareInternal name type default => exact hgetOrInsert _
  | declareEventParam name type => exact hgetOrInsert _
  | system which => exact hgetOrInsert _
  | constant type value => exact constants_constant_of_some hk type value
  | literal name type value => exact hgetOrInsert _
  | acquireTemp type =>
    change (t.acquireTemp type).2.constants.get? key = some id
    unfold SymbolTable.acquireTemp
    split <;> exact hk
  | releaseTemp id =>
    change (t.releaseTemp id).constants.get? key = some _
    unfold SymbolTable.releaseTemp
    split
    · dsimp only
      split <;> exact hk
    · exact hk
  | bindGuid guid id => exact hk
  | unbind id => exact hk
  | ensurePrevious id =>
    change (t.ensurePrevious id).2.constants.get? key = some _
    rcases ensurePrevious_cases t id with heq | ⟨v, -, -, heq⟩
    · rw [heq]
      exact hk
    · rw [heq]
      exact hk
  | remove id => cases hr

theorem constants_run {requests : List Request} (hr : ∀ r ∈ requests, r.isRemoval = false)
    (hk : t.constants.get? key = some id) : (t.run requests).constants.get? key = some id := by
  induction requests generalizing t with
  | nil => exact hk
  | cons r rest ih =>
    obtain ⟨hfirst, hrest⟩ := List.forall_mem_cons.mp hr
    exact ih hrest (Request.constants_answer hfirst hk)

/-- The variable of a key has the type and the value that the key describes. -/
theorem Sound.get?_of_key (h : t.Sound) (hk : t.constants.get? (value.poolKey type) = some id) :
    ∃ v, t.get? id = some v ∧ v.default.Agrees value ∧ v.type.machineName = type.machineName := by
  obtain ⟨v, hv, hkey⟩ := h.constants hk
  obtain ⟨htype, hagrees⟩ := Value.poolKey_eq_iff.mp hkey
  exact ⟨v, hv, hagrees, htype⟩

/-- A request for a constant that has been requested already is answered with the same variable, and a
request for another one is not. -/
theorem Sound.constant_eq_iff (h : t.Sound) (hk : t.constants.get? (value.poolKey type) = some id) :
    id = (t.constant type' value').1 ↔
      type.machineName = type'.machineName ∧ value.Agrees value' := by
  have hlater := constants_constant_of_some hk type' value'
  have hnew := constants_constant t type' value'
  have hsound := (h.continues_constant type' value').sound
  rw [← Value.poolKey_eq_iff]
  constructor
  · intro heq
    obtain ⟨v, hv, hkey⟩ := hsound.constants hlater
    obtain ⟨w, hw, hkey'⟩ := hsound.constants hnew
    rw [heq, hw] at hv
    cases hv
    exact hkey.symm.trans hkey'
  · intro heq
    rw [← heq, hlater] at hnew
    exact Option.some.inj hnew

/-- Constants are pooled exactly by the names of their types and by their values: so are the keys of the
pool, and so are the variables that requests yield, whatever has been requested before and between. The
variable of a constant starts with the requested value, as far as texts tell numbers apart. -/
theorem constants_pooled_by_value :
    (∀ (v v' : Value) (type type' : VarType), v.poolKey type = v'.poolKey type' ↔
      type.machineName = type'.machineName ∧ v.Agrees v') ∧
    ∀ (before between : List Request) (type type' : VarType) (value value' : Value),
      let first := (run {} before).constant type value
      let second := (first.2.run between).constant type' value'
      Allows {} before → first.2.Allows between → (∀ r ∈ between, r.isRemoval = false) →
        (∀ t ∈ [first.2, first.2.run between, second.2], ∃ v, t.get? first.1 = some v ∧
          v.type.machineName = type.machineName ∧ v.default.Agrees value ∧
          ((∀ x ∈ value.singles, ∀ y : Single, y.text = x.text → y = x) → v.default = value)) ∧
        (first.1 = second.1 ↔ type.machineName = type'.machineName ∧ value.Agrees value') := by
  refine ⟨fun _ _ _ _ => Value.poolKey_eq_iff, ?_⟩
  intro before between type type' value value' first second hbefore hbetween hkept
  have hfirst : first.2.Sound := ((sound_empty.run hbefore).1.continues_constant type value).sound
  have hkey : first.2.constants.get? (value.poolKey type) = some first.1 :=
    constants_constant _ type value
  have hrun := (hfirst.run hbetween).1
  have hpooled := constants_run hkept hkey
  refine ⟨fun t ht => ?_, hrun.constant_eq_iff hpooled⟩
  have hfound : t.Sound ∧ t.constants.get? (value.poolKey type) = some first.1 := by
    simp only [List.mem_cons, List.not_mem_nil, or_false] at ht
    rcases ht with rfl | rfl | rfl
    · exact ⟨hfirst, hkey⟩
    · exact ⟨hrun, hpooled⟩
    · exact ⟨(hrun.continues_constant type' value').sound, constants_constant_of_some hpooled type' value'⟩
  obtain ⟨v, hv, hagrees, htype⟩ := hfound.1.get?_of_key hfound.2
  exact ⟨v, hv, htype, hagrees, hagrees.eq⟩

/-- A type whose name begins like a key does not confuse the pool: its constant is found again, and it is
not the one of the label. -/
theorem constants_pooled_by_value_barredType :
    let before : List Request := [.acquireTemp .bool]
    let between : List Request := [.constant .uint (.label "b"), .releaseTemp 0]
    let type : VarType := .other "SystemUInt32|Label(\""
    let first := (run {} before).constant type (.str "b")
    Allows {} before ∧ first.2.Allows between ∧ (∀ r ∈ between, r.isRemoval = false) ∧
      first.1 = ((first.2.run between).constant type (.str "b")).1 ∧
      first.1 ≠ ((first.2.run between).constant .uint (.label "b")).1 := by
  intro before between type first
  have hbefore : Allows {} before := ⟨trivial, trivial⟩
  have hbetween : first.2.Allows between := ⟨trivial, trivial, trivial⟩
  have hkept : ∀ r ∈ between, r.isRemoval = false := by simp [between, Request.isRemoval]
  have hpool := fun type' value' =>
    constants_pooled_by_value.2 before between type type' (.str "b") value' hbefore hbetween hkept
  exact ⟨hbefore, hbetween, hkept, (hpool type (.str "b")).2.mpr ⟨rfl, .refl _⟩,
    fun heq => absurd ((hpool .uint (.label "b")).2.mp heq).1 (by decide)⟩

end SymbolTable

end TriggerCompiler
