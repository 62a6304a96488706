import Mathlib.Data.List.Nodup
import Mathlib.Logic.Relation
import TriggerCompiler.Json.Decode

/-! The shapes of JSON documents. A schema says which members the records of a document have and which of
them may be left out. Two documents of a schema are the same if they differ only in members that the
schema does not know and in optional members that are left out; a reader follows a schema if it reads
such documents alike. -/

namespace TriggerCompiler

mutual

/-- The shape of a document. A leaf is read as a whole: no member of it is optional, and it has no room
for further members. -/
inductive Schema where
  | leaf
  | list (item : Schema)
  | nullable (value : Schema)
  | record (fields : List Field)
  /-- A record whose member `kind` tells which other members it has. -/
  | tagged (cases : List (String × List Field))

/-- A member of a record. An optional one has a value that its absence stands for. -/
inductive Field where
  | required (key : String) (schema : Schema)
  | optional (key : String) (schema : Schema) (absent : Json)

end

namespace Field

def key : Field → String
  | required key _ => key
  | optional key _ _ => key

def schema : Field → Schema
  | required _ schema => schema
  | optional _ schema _ => schema

end Field

theorem Json.nullable?_of_ne_null {α : Type} {read : Json → Option α} {j : Json} (h : j ≠ .null) :
    Json.nullable? read j = (read j).map some := by
  cases j with
  | null => exact absurd rfl h
  | _ => rfl

/-- Whether a document is an object whose first member `kind` has a value. -/
def Json.HasKind (j : Json) (kind : String) : Prop :=
  ∃ m : Members, j = .obj m ∧ m.get? "kind" = some (.str kind)

namespace Schema

/-- The members of a case of a tagged record. -/
def caseFields (fields : List Field) : List Field := .required "kind" .leaf :: fields

@[simp] theorem mem_caseFields {fields : List Field} {field : Field} :
    field ∈ caseFields fields ↔ field = .required "kind" .leaf ∨ field ∈ fields := List.mem_cons

/-- A change to a document at one place: a member that the schema does not know, or an optional member
that is written out instead of being left out. -/
inductive Edit : Schema → Json → Json → Prop
  | unknown {fields : List Field} (before after : Members) {key : String} {j : Json}
      (h : key ∉ fields.map Field.key) :
      Edit (record fields) (.obj (before ++ after)) (.obj (before ++ (key, j) :: after))
  | omitted {fields : List Field} (before after : Members) {key : String} {schema : Schema}
      {absent : Json} (h : .optional key schema absent ∈ fields)
      (hfree : key ∉ (before ++ after).map Prod.fst) :
      Edit (record fields) (.obj (before ++ after)) (.obj (before ++ (key, absent) :: after))
  | member {fields : List Field} (before after : Members) {field : Field} {j j' : Json}
      (h : field ∈ fields) (hedit : Edit field.schema j j') :
      Edit (record fields) (.obj (before ++ (field.key, j) :: after))
        (.obj (before ++ (field.key, j') :: after))
  | item {schema : Schema} (before after : List Json) {j j' : Json} (hedit : Edit schema j j') :
      Edit (list schema) (.arr (before ++ j :: after)) (.arr (before ++ j' :: after))
  | value {schema : Schema} {j j' : Json} (hedit : Edit schema j j') : Edit (nullable schema) j j'
  | choice {cases : List (String × List Field)} {kind : String} {fields : List Field} {j j' : Json}
      (h : (kind, fields) ∈ cases) (hkind : j.HasKind kind)
      (hedit : Edit (record (caseFields fields)) j j') : Edit (tagged cases) j j'

/-- Documents that differ only in members that the schema does not know, and in optional members that
are left out. -/
def Same (s : Schema) : Json → Json → Prop := Relation.EqvGen s.Edit

/-- Whether a reader reads documents alike that are the same. -/
def Reads {α : Type} (s : Schema) (read : Json → Option α) : Prop :=
  ∀ j j', s.Same j j' → read j = read j'

variable {α : Type} {s : Schema} {read : Json → Option α} {j j' : Json}

theorem Reads.edit (h : s.Reads read) (hedit : s.Edit j j') : read j = read j' := h j j' (.rel j j' hedit)

/-- It is enough that a reader does not see a single change. -/
theorem reads_of_edit (h : ∀ j j', s.Edit j j' → read j = read j') : s.Reads read := by
  intro j j' hsame
  induction hsame with
  | rel j j' hedit => exact h j j' hedit
  | refl _ => rfl
  | symm _ _ _ ih => exact ih.symm
  | trans _ _ _ _ _ ih ih' => exact ih.trans ih'

/-! ### Leaves, lists and nullable values -/

theorem reads_leaf (read : Json → Option α) : leaf.Reads read := by
  refine reads_of_edit fun j j' hedit => ?_
  cases hedit

theorem reads_const (a : Option α) : s.Reads fun _ => a := fun _ _ _ => rfl

theorem Reads.bind {β : Type} (h : s.Reads read) (next : α → Option β) :
    s.Reads fun j => (read j).bind next := fun j j' hsame => congrArg (·.bind next) (h j j' hsame)

theorem Reads.list (h : s.Reads read) : s.list.Reads (Json.list? read) := by
  refine reads_of_edit fun j j' hedit => ?_
  cases hedit with
  | item _ _ hedit =>
    rw [Json.list?, Json.list?, List.mapM_append, List.mapM_append, List.mapM_cons, List.mapM_cons,
      h.edit hedit]

theorem Edit.ne_null (h : s.Edit j j') : j ≠ .null ∧ j' ≠ .null := by
  induction h with
  | value _ ih => exact ih
  | choice _ _ _ ih => exact ih
  | _ => simp

theorem Reads.nullable (h : s.Reads read) : s.nullable.Reads (Json.nullable? read) := by
  refine reads_of_edit fun j j' hedit => ?_
  cases hedit with
  | value hedit =>
    rw [Json.nullable?_of_ne_null hedit.ne_null.1, Json.nullable?_of_ne_null hedit.ne_null.2,
      h.edit hedit]

/-! ### Records -/

/-- How the values of a member in two records may differ. -/
inductive FieldEdit (field : Field) : Option Json → Option Json → Prop
  | same (value : Option Json) : FieldEdit field value value
  | member {j j' : Json} (h : field.schema.Edit j j') : FieldEdit field (some j) (some j')
  | omitted {key : String} {schema : Schema} {absent : Json} (h : field = .optional key schema absent) :
      FieldEdit field none (some absent)

/-- Records whose known members differ as those of a document and a changed document do. -/
def Agree (fields : List Field) (m m' : Members) : Prop :=
  ∀ field ∈ fields, FieldEdit field (m.get? field.key) (m'.get? field.key)

end Schema

namespace Members

variable {m before after : Members} {k key : String} {j : Json}

theorem get?_cons : Members.get? ((k, j) :: m) key = if k = key then some j else m.get? key := by
  rw [get?, List.find?_cons]
  by_cases h : k = key
  · simp [h]
  · simp [h, get?]

theorem get?_append : Members.get? (before ++ after) key = (before.get? key).or (after.get? key) := by
  rw [get?, List.find?_append]
  cases h : List.find? (fun e : String × Json => decide (e.1 = key)) before <;> simp [get?, h]

theorem filter_eq_nil (h : key ∉ m.map Prod.fst) : m.filter (·.1 = key) = [] := by
  rw [List.filter_eq_nil_iff]
  intro e he heq
  exact h (List.mem_map.mpr ⟨e, he, by simpa using heq⟩)

theorem get?_eq_none (h : key ∉ m.map Prod.fst) : m.get? key = none := by
  rw [get?, ← List.head?_filter, filter_eq_nil h]
  rfl

end Members

namespace Schema

variable {α : Type} {fields : List Field} {j j' : Json} {known : List String}

/-- A change to a record leaves its known members as they are, up to changes inside them and optional
members that are left out. -/
theorem Edit.agree (h : Edit (record fields) j j') (hnodup : (fields.map Field.key).Nodup) :
    ∃ m m', j = .obj m ∧ j' = .obj m' ∧ Agree fields m m' ∧ ∀ key ∈ fields.map Field.key,
      (m.filter (·.1 = key)).length ≤ 1 ↔ (m'.filter (·.1 = key)).length ≤ 1 := by
  cases h with
  | @unknown _ before after key j hkey =>
    refine ⟨_, _, rfl, rfl, fun field hfield => ?_, fun known hknown => ?_⟩
    · have hne : key ≠ field.key := fun heq => hkey (heq ▸ List.mem_map_of_mem hfield)
      rw [Members.get?_append, Members.get?_append, Members.get?_cons, if_neg hne]
      exact .same _
    · have hne : key ≠ known := fun heq => hkey (heq ▸ hknown)
      simp [List.filter_append, hne]
  | @omitted _ before after key schema absent hfield hfree =>
    rw [List.map_append, List.mem_append, not_or] at hfree
    refine ⟨_, _, rfl, rfl, fun field hfield' => ?_, fun known hknown => ?_⟩
    · rw [Members.get?_append, Members.get?_append, Members.get?_cons]
      by_cases hkey : key = field.key
      · obtain rfl : Field.optional key schema absent = field :=
          List.inj_on_of_nodup_map hnodup hfield hfield' hkey
        rw [if_pos hkey, ← hkey, Members.get?_eq_none hfree.1, Members.get?_eq_none hfree.2]
        exact .omitted rfl
      · rw [if_neg hkey]
        exact .same _
    · by_cases hkey : key = known
      · subst hkey
        simp [List.filter_append, Members.filter_eq_nil hfree.1, Members.filter_eq_nil hfree.2]
      · simp [List.filter_append, hkey]
  | @member _ before after field j j' hfield hedit =>
    refine ⟨_, _, rfl, rfl, fun other hother => ?_, fun known hknown => ?_⟩
    · rw [Members.get?_append, Members.get?_append, Members.get?_cons, Members.get?_cons]
      by_cases hkey : field.key = other.key
      · rw [if_pos hkey, if_pos hkey]
        cases before.get? other.key with
        | some first => exact .same _
        | none =>
          obtain rfl := List.inj_on_of_nodup_map hnodup hfield hother hkey
          exact .member hedit
      · rw [if_neg hkey, if_neg hkey]
        exact .same _
    · by_cases hkey : field.key = known <;> simp [List.filter_append, hkey]

/-- Reading the members of a record and of a changed record. -/
theorem Edit.bind_members (h : Edit (record fields) j j') (hnodup : (fields.map Field.key).Nodup)
    (hknown : known ⊆ fields.map Field.key) {read read' : Members → Option α}
    (hread : ∀ m m' : Members, j = .obj m → Agree fields m m' → read m = read' m') :
    (j.members? known).bind read = (j'.members? known).bind read' := by
  obtain ⟨m, m', rfl, rfl, hagree, hcount⟩ := h.agree hnodup
  have hall : (known.all fun key => (m.filter (·.1 = key)).length ≤ 1) =
      known.all fun key => (m'.filter (·.1 = key)).length ≤ 1 := by
    rw [Bool.eq_iff_iff, List.all_eq_true, List.all_eq_true]
    refine forall₂_congr fun key hkey => ?_
    rw [decide_eq_true_eq, decide_eq_true_eq, hcount key (hknown hkey)]
  rw [Json.members?, Json.members?, hall]
  split
  · exact hread m m' rfl hagree
  · rfl

theorem reads_record (hnodup : (fields.map Field.key).Nodup) {read : Members → Option α}
    (hread : ∀ m m' : Members, Agree fields m m' → read m = read m') :
    (record fields).Reads fun j => (j.members? (fields.map Field.key)).bind read :=
  reads_of_edit fun _ _ hedit =>
    hedit.bind_members hnodup (List.Subset.refl _) fun m m' _ => hread m m'

section

variable {m m' : Members} (h : Agree fields m m') {key : String} {s : Schema} {read : Json → Option α}

include h

theorem Agree.get? (hfield : .required key .leaf ∈ fields) : m.get? key = m'.get? key := by
  have hedit := h _ hfield
  rw [Field.key] at hedit
  generalize m.get? key = value, m'.get? key = value' at hedit
  cases hedit with
  | same => rfl
  | member hedit => cases hedit
  | omitted heq => cases heq

theorem Agree.required (hread : s.Reads read) (hfield : .required key s ∈ fields) :
    m.required key read = m'.required key read := by
  have hedit := h _ hfield
  rw [Field.key] at hedit
  rw [Members.required, Members.required]
  generalize m.get? key = value, m'.get? key = value' at hedit ⊢
  cases hedit with
  | same => rfl
  | member hedit => exact hread.edit hedit
  | omitted heq => cases heq

theorem Agree.optional {absent : Json} {default : α} (hread : s.Reads read)
    (habsent : read absent = some default) (hfield : .optional key s absent ∈ fields) :
    m.optional key read default = m'.optional key read default := by
  have hedit := h _ hfield
  rw [Field.key] at hedit
  rw [Members.optional, Members.optional]
  generalize m.get? key = value, m'.get? key = value' at hedit ⊢
  cases hedit with
  | same => rfl
  | member hedit => exact hread.edit hedit
  | omitted heq =>
    cases heq
    exact habsent.symm

theorem Agree.nullable (hread : s.Reads read) (hfield : .optional key (.nullable s) .null ∈ fields) :
    m.nullable key read = m'.nullable key read := h.optional hread.nullable rfl hfield

end

/-! ### Tagged records -/

/-- A change to a tagged record does not change its kind. -/
theorem Edit.bind_kind {kind : String} (h : Edit (record (caseFields fields)) j j')
    (hnodup : ((caseFields fields).map Field.key).Nodup) (hkind : j.HasKind kind)
    (hknown : known ⊆ (caseFields fields).map Field.key) {body body' : String → Members → Option α}
    (hbody : ∀ m m', Agree (caseFields fields) m m' → body kind m = body' kind m') :
    ((j.members? known).bind fun m => (Members.required m "kind" Json.string?).bind (body · m)) =
      (j'.members? known).bind fun m => (Members.required m "kind" Json.string?).bind (body' · m) := by
  refine h.bind_members hnodup hknown fun m m' hj hagree => ?_
  obtain ⟨m, rfl, hm⟩ := hkind
  cases hj
  have hm' : m'.get? "kind" = some (.str kind) := hagree.get? List.mem_cons_self ▸ hm
  rw [Members.required, Members.required, hm, hm']
  exact hbody m m' hagree

variable {cases : List (String × List Field)}
  (hnodup : ∀ c ∈ cases, ((caseFields c.2).map Field.key).Nodup)

include hnodup

/-- A reader that reads the kind of a record and the other members from the same members. -/
theorem reads_tagged {body : String → Members → Option α}
    (hknown : ∀ c ∈ cases, known ⊆ (caseFields c.2).map Field.key)
    (hbody : ∀ c ∈ cases, ∀ m m', Agree (caseFields c.2) m m' → body c.1 m = body c.1 m') :
    (tagged cases).Reads fun j =>
      (j.members? known).bind fun m => (Members.required m "kind" Json.string?).bind (body · m) := by
  refine reads_of_edit fun j j' hedit => ?_
  cases hedit with
  | choice hcase hkind hedit =>
    exact hedit.bind_kind (hnodup _ hcase) hkind (hknown _ hcase) (hbody _ hcase)

/-- A reader that reads the kind of a record first, and then the record of this kind. -/
theorem reads_kind {body : String → Json → Option α}
    (hbody : ∀ c ∈ cases, (record (caseFields c.2)).Reads (body c.1)) :
    (tagged cases).Reads fun j =>
      (j.members? ["kind"]).bind fun m => (Members.required m "kind" Json.string?).bind (body · j) := by
  refine reads_of_edit fun j j' hedit => ?_
  cases hedit with
  | choice hcase hkind hedit =>
    exact hedit.bind_kind (hnodup _ hcase) hkind (by simp [caseFields, Field.key]) fun _ _ _ =>
      (hbody _ hcase).edit hedit

end Schema

end TriggerCompiler
