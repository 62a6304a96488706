import TriggerCompiler.Machine.Layout
import TriggerCompiler.Proofs.Basic

/-! The methods of a program under construction: their code, and the labels that are placed in it. All
requests that emission makes append to the code of one method, which is created if needed. -/

namespace TriggerCompiler

/-- The labels that code places. -/
def placedIn (code : List Instruction) : List String := code.filterMap Instruction.placedLabel?

@[simp] theorem placedIn_append (code code' : List Instruction) :
    placedIn (code ++ code') = placedIn code ++ placedIn code' := List.filterMap_append

theorem mem_placedIn {l : String} {code : List Instruction} :
    l ∈ placedIn code ↔ Instruction.label l ∈ code := by
  constructor
  · intro h
    obtain ⟨i, hi, hl⟩ := List.mem_filterMap.mp h
    cases i <;> simp [Instruction.placedLabel?] at hl
    rwa [← hl]
  · intro h
    exact List.mem_filterMap.mpr ⟨_, h, rfl⟩

variable {f : MethodBody → MethodBody} {method : Method}

namespace MethodTable

variable {t : MethodTable} {x y l : String} {code : List Instruction}

/-- The code of a method; a method that is not there has none. -/
def codeOf (t : MethodTable) (name : String) : List Instruction :=
  ((t.bodies.get? name).map MethodBody.code).getD []

/-- The labels that are placed in the code of the methods. -/
def placed (t : MethodTable) : List String := t.bodies.entries.flatMap fun e => placedIn e.2.code

/-- Whether the machine may call a method by name. -/
def Exports (t : MethodTable) (x : String) : Prop :=
  ∃ b, t.bodies.get? x = some b ∧ b.exported = true

theorem contains_iff : t.contains x = true ↔ ∃ b, t.bodies.get? x = some b :=
  OrderedMap.contains_eq_true

theorem mem_toList :
    method ∈ t.toList ↔ t.bodies.get? method.name = some ⟨method.exported, method.code⟩ := by
  rw [toList, List.mem_map, OrderedMap.get?_eq_some_iff]
  constructor
  · rintro ⟨e, he, rfl⟩
    exact he
  · intro h
    exact ⟨_, h, rfl⟩

theorem codeOf_of_get? {b : MethodBody} (h : t.bodies.get? x = some b) : t.codeOf x = b.code := by
  rw [codeOf, h]
  rfl

theorem codeOf_of_mem (h : method ∈ t.toList) :
    t.codeOf method.name = method.code := codeOf_of_get? (mem_toList.mp h)

theorem codeOf_of_not_contains (h : t.contains x = false) : t.codeOf x = [] := by
  rw [contains, OrderedMap.contains, Option.isSome_eq_false_iff, Option.isNone_iff_eq_none] at h
  rw [codeOf, h]
  rfl

theorem exists_mem_toList (h : t.contains x = true) :
    ∃ method ∈ t.toList, method.name = x ∧ method.code = t.codeOf x := by
  obtain ⟨b, hb⟩ := contains_iff.mp h
  exact ⟨⟨x, b.exported, b.code⟩, mem_toList.mpr hb, rfl, (codeOf_of_get? hb).symm⟩

theorem contains_of_mem (h : method ∈ t.toList) :
    t.contains method.name = true := contains_iff.mpr ⟨_, mem_toList.mp h⟩

theorem mem_codeOf {i : Instruction} (h : i ∈ t.codeOf x) : t.contains x = true := by
  cases hc : t.contains x with
  | true => rfl
  | false =>
    rw [codeOf_of_not_contains hc] at h
    cases h

theorem mem_placed : l ∈ t.placed ↔ ∃ x, l ∈ placedIn (t.codeOf x) := by
  rw [placed, List.mem_flatMap]
  constructor
  · rintro ⟨e, he, hl⟩
    exact ⟨e.1, by rwa [codeOf_of_get? (OrderedMap.get?_eq_some_iff.mpr he)]⟩
  · rintro ⟨x, hl⟩
    obtain ⟨b, hb⟩ := contains_iff.mp (mem_codeOf (mem_placedIn.mp hl))
    rw [codeOf_of_get? hb] at hl
    exact ⟨(x, b), OrderedMap.get?_eq_some_iff.mp hb, hl⟩

/-! ### Appending to a method -/

theorem get?_update (t : MethodTable) (x y : String) (f : MethodBody → MethodBody) :
    (t.update x f).bodies.get? y =
      if x = y then some (f ((t.bodies.get? x).getD {})) else t.bodies.get? y :=
  t.bodies.get?_insert x y _

theorem contains_update : (t.update x f).contains y = true ↔ x = y ∨ t.contains y = true := by
  rw [contains, update, OrderedMap.contains_insert, contains, eq_comm]

/-- The code of a method after a change that appends to one method. -/
theorem codeOf_update (hf : ∀ b, (f b).code = b.code ++ code) :
    (t.update x f).codeOf y = t.codeOf y ++ if x = y then code else [] := by
  rw [codeOf, get?_update]
  split
  · rename_i heq
    subst heq
    rw [Option.map_some, Option.getD_some, hf, codeOf]
    cases t.bodies.get? x <;> rfl
  · rw [List.append_nil, codeOf]

theorem codeOf_update_eq (hf : ∀ b, (f b).code = b.code) : (t.update x f).codeOf y = t.codeOf y := by
  rw [codeOf_update fun b => (hf b).trans (List.append_nil _).symm, ite_self, List.append_nil]

/-- The methods that the machine may call after a change that may let it call one more. -/
theorem exports_update {flag : Bool} (hf : ∀ b, (f b).exported = (b.exported || flag)) :
    (t.update x f).Exports y ↔ t.Exports y ∨ x = y ∧ flag = true := by
  rw [Exports, get?_update, Exports]
  by_cases hxy : x = y
  · subst hxy
    cases t.bodies.get? x with
    | none => simp [hf]
    | some b => simp [hf]
  · simp [hxy]

/-- The labels after a change that appends to one method. -/
theorem placed_update (hf : ∀ b, (f b).code = b.code ++ code) :
    (t.update x f).placed.Perm (t.placed ++ placedIn code) := by
  rw [update]
  rcases t.bodies.entries_insert x (f ((t.bodies.get? x).getD {})) with
    ⟨before, old, after, hold, hget, hnew⟩ | ⟨hget, hnew⟩
  · rw [placed, placed, hnew, hold, hget, Option.getD_some, List.flatMap_append,
      List.flatMap_append, List.flatMap_cons, List.flatMap_cons, hf, placedIn_append]
    simp only [List.append_assoc]
    exact List.Perm.append_left _ (List.Perm.append_left _ List.perm_append_comm)
  · rw [placed, placed, hnew, hget, Option.getD_none, List.flatMap_append, List.flatMap_cons,
      List.flatMap_nil, hf, List.append_nil, List.nil_append]

/-! ### Adding methods -/

theorem contains_merge :
    (t.merge method).contains x = true ↔ method.name = x ∨ t.contains x = true := contains_update

theorem contains_foldl_merge {methods : List Method} :
    (methods.foldl merge t).contains x = true ↔
      t.contains x = true ∨ ∃ method ∈ methods, method.name = x := by
  induction methods generalizing t with
  | nil => simp
  | cons method methods ih =>
    rw [List.foldl_cons, ih, contains_merge]
    simp only [List.mem_cons, exists_eq_or_imp]
    tauto

theorem exports_foldl_merge {methods : List Method} :
    (methods.foldl merge t).Exports x ↔
      t.Exports x ∨ ∃ method ∈ methods, method.name = x ∧ method.exported = true := by
  induction methods generalizing t with
  | nil => simp
  | cons method methods ih =>
    rw [List.foldl_cons, ih, merge, exports_update fun _ => rfl]
    simp only [List.mem_cons, exists_eq_or_imp]
    tauto

theorem codeOf_foldl_merge (methods : List Method) (t : MethodTable) (x : String) :
    (methods.foldl merge t).codeOf x =
      t.codeOf x ++ (methods.filter (·.name = x)).flatMap Method.code := by
  induction methods generalizing t with
  | nil => simp
  | cons method methods ih =>
    rw [List.foldl_cons, ih, merge, codeOf_update fun b => rfl, List.append_assoc, List.filter_cons]
    by_cases h : method.name = x
    · simp [h]
    · simp [h]

theorem placed_foldl_merge (methods : List Method) (t : MethodTable) :
    (methods.foldl merge t).placed.Perm
      (t.placed ++ methods.flatMap fun method => placedIn method.code) := by
  induction methods generalizing t with
  | nil => simp
  | cons method methods ih =>
    rw [List.foldl_cons, List.flatMap_cons, ← List.append_assoc]
    refine (ih _).trans (List.Perm.append_right _ ?_)
    exact placed_update fun b => rfl

/-! ### Methods that are continued -/

variable {t' : MethodTable}

/-- Methods with further methods and with further code behind their own. -/
structure Continues (t t' : MethodTable) : Prop where
  contains {x : String} : t.contains x = true → t'.contains x = true
  code (x : String) : t.codeOf x <+: t'.codeOf x
  exports {x : String} : t.Exports x → t'.Exports x

theorem Continues.refl (t : MethodTable) : t.Continues t :=
  ⟨fun h => h, fun _ => List.prefix_refl _, fun h => h⟩

theorem Continues.trans {t'' : MethodTable} (h : t.Continues t') (h' : t'.Continues t'') :
    t.Continues t'' :=
  ⟨fun hx => h'.contains (h.contains hx), fun x => (h.code x).trans (h'.code x),
    fun hx => h'.exports (h.exports hx)⟩

theorem continues_update {code : List Instruction} {flag : Bool}
    (hf : ∀ b, (f b).code = b.code ++ code) (hexported : ∀ b, (f b).exported = (b.exported || flag)) :
    t.Continues (t.update x f) := by
  refine ⟨fun hy => contains_update.mpr (Or.inr hy), fun y => ?_,
    fun hy => (exports_update hexported).mpr (Or.inl hy)⟩
  rw [codeOf_update hf]
  exact List.prefix_append _ _

theorem continues_emit (t : MethodTable) (x : String) (code : List Instruction) :
    t.Continues (t.emit x code) :=
  continues_update (f := fun b => { b with code := b.code ++ code }) (fun _ => rfl)
    fun _ => (Bool.or_false _).symm

theorem eq_or_of_keeps {exported : Bool → Bool} (hkeeps : exported true = true) (b : Bool) :
    exported b = (b || exported false) := by
  cases b with
  | true => exact hkeeps
  | false => rfl

theorem continues_touch (t : MethodTable) (x : String) {exported : Bool → Bool}
    (hkeeps : exported true = true) :
    t.Continues (t.update x fun b => { b with exported := exported b.exported }) :=
  continues_update (f := fun b => { b with exported := exported b.exported })
    (fun _ => (List.append_nil _).symm) fun _ => eq_or_of_keeps hkeeps _

theorem continues_foldl_merge (methods : List Method) (t : MethodTable) :
    t.Continues (methods.foldl merge t) := by
  induction methods generalizing t with
  | nil => exact .refl t
  | cons method methods ih =>
    refine Continues.trans ?_ (ih (t.merge method))
    exact continues_update (fun _ => rfl) fun _ => rfl

end MethodTable

end TriggerCompiler
