import TriggerCompiler.Proofs.DocumentSchema
import TriggerCompiler.Value

/-! Document formats: a writer and a reader of values that go together. The reader gets back what was
written and follows the schema of the format. The formats of records are built from those of their
members. -/

namespace TriggerCompiler

/-- A writer and a reader of documents. A value that is exact, which means that its numbers can be
written, is read back from its document, and the reader follows the schema. -/
structure IsFormat {α : Type} (schema : Schema) (write : α → Json) (read : Json → Option α)
    (IsExact : α → Prop) : Prop where
  read_write : ∀ a, IsExact a → read (write a) = some a
  reads : schema.Reads read
  read_null : read .null = none

/-- The numbers that an index of a document can hold. -/
def IsIndex (n : Nat) : Prop := n < 2 ^ 64

namespace IsFormat

variable {α : Type} {s : Schema} {write : α → Json} {read : Json → Option α} {IsExact : α → Prop}

/-! ### Lists and nullable values -/

theorem list (h : IsFormat s write read IsExact) :
    IsFormat s.list (fun l => .arr (l.map write)) (Json.list? read) (fun l => ∀ a ∈ l, IsExact a) where
  read_write l hl := by
    rw [Json.list?]
    induction l with
    | nil => rfl
    | cons a l ih =>
      rw [List.forall_mem_cons] at hl
      rw [List.map_cons, List.mapM_cons, h.read_write a hl.1, ih hl.2]
      rfl
  reads := h.reads.list
  read_null := rfl

theorem nullable?_ofOption (h : IsFormat s write read IsExact) {o : Option α}
    (ho : ∀ a ∈ o, IsExact a) : Json.nullable? read (.ofOption write o) = some o := by
  cases o with
  | none => rfl
  | some a =>
    have hread := h.read_write a (ho a rfl)
    have hne : write a ≠ .null := by
      intro hnull
      rw [hnull, h.read_null] at hread
      cases hread
    rw [Json.ofOption, Json.nullable?_of_ne_null hne, hread]
    rfl

/-! ### Leaves -/

theorem leaf (hread : ∀ a, IsExact a → read (write a) = some a) (hnull : read .null = none) :
    IsFormat .leaf write read IsExact := ⟨hread, Schema.reads_leaf _, hnull⟩

theorem bool : IsFormat .leaf Json.bool Json.bool? fun _ => True := .leaf (fun _ _ => rfl) rfl

theorem string : IsFormat .leaf Json.str Json.string? fun _ => True := .leaf (fun _ _ => rfl) rfl

theorem single : IsFormat .leaf Json.ofSingle Json.single? fun x => x.isFinite := by
  refine .leaf (fun x hx => ?_) rfl
  rw [Json.ofSingle, if_pos hx, Json.single?]

theorem index : IsFormat .leaf Json.nat Json.index? IsIndex := by
  refine .leaf (fun n hn => ?_) rfl
  rw [IsIndex] at hn
  rw [Json.nat, Json.index?, Json.intBetween?, if_pos (by omega)]
  rfl

theorem int32 : IsFormat .leaf (fun n : Int32 => .int n.toInt) Json.int32? fun _ => True := by
  refine .leaf (fun n _ => ?_) rfl
  have hleast := n.le_toInt
  have hgreatest := n.toInt_lt
  rw [Json.int32?, Json.intBetween?, if_pos (by omega), Option.map_some, Int32.ofInt_toInt]

theorem uint32 : IsFormat .leaf (fun n : UInt32 => .nat n.toNat) Json.uint32? fun _ => True := by
  refine .leaf (fun n _ => ?_) rfl
  have hlt := n.toNat_lt
  rw [Json.nat, Json.uint32?, Json.intBetween?, if_pos (by omega), Option.map_some, Int.toNat_natCast,
    UInt32.ofNat_toNat]

theorem byte : IsFormat .leaf (fun n : UInt8 => .nat n.toNat) Json.byte? fun _ => True := by
  refine .leaf (fun n _ => ?_) rfl
  have hlt := n.toNat_lt
  rw [Json.nat, Json.byte?, Json.intBetween?, if_pos (by omega), Option.map_some, Int.toNat_natCast,
    UInt8.ofNat_toNat]

end IsFormat

/-! ### Members of records -/

@[simp] theorem Json.string?_str (s : String) : Json.string? (.str s) = some s := rfl

@[simp] theorem Json.bool?_bool (b : Bool) : Json.bool? (.bool b) = some b := rfl

@[simp] theorem Json.members?_obj {known : List String} {m : Members} (h : (m.map Prod.fst).Nodup) :
    Json.members? known (.obj m) = some m := by
  rw [Json.members?, if_pos]
  rw [List.all_eq_true]
  intro key _
  have hcount : (m.filter (·.1 = key)).length = (m.map Prod.fst).count key := by
    rw [List.count, List.countP_map, List.countP_eq_length_filter]
    rfl
  rw [decide_eq_true_eq, hcount]
  exact List.nodup_iff_count_le_one.mp h key

namespace Members

variable {α : Type} {m : Members} {k key : String} {j : Json} {read : Json → Option α} {default : α}

@[simp] theorem required_cons_self : Members.required ((key, j) :: m) key read = read j := by
  rw [required, get?_cons, if_pos rfl, Option.bind_some]

@[simp] theorem required_cons_of_ne (h : k ≠ key) :
    Members.required ((k, j) :: m) key read = m.required key read := by
  rw [required, get?_cons, if_neg h, required]

@[simp] theorem optional_nil : Members.optional [] key read default = some default := rfl

@[simp] theorem optional_cons_self : Members.optional ((key, j) :: m) key read default = read j := by
  rw [optional, get?_cons, if_pos rfl]

@[simp] theorem optional_cons_of_ne (h : k ≠ key) :
    Members.optional ((k, j) :: m) key read default = m.optional key read default := by
  rw [optional, get?_cons, if_neg h, optional]

end Members

namespace Schema.Agree

variable {α β : Type} {fields : List Field} {m m' : Members} (h : Agree fields m m') {key : String}
  {s : Schema} {write : α → Json} {read : Json → Option α} {IsExact : α → Prop}
  (hformat : IsFormat s write read IsExact)

include h hformat

theorem bind_required {next next' : α → Option β} (hnext : ∀ a, next a = next' a)
    (hfield : .required key s ∈ fields := by simp) :
    (m.required key read >>= next) = m'.required key read >>= next' := by
  rw [h.required hformat.reads hfield, funext hnext]

theorem bind_optional {next next' : α → Option β} {default : α} (hnext : ∀ a, next a = next' a)
    (hexact : IsExact default := by simp)
    (hfield : .optional key s (write default) ∈ fields := by simp) :
    (m.optional key read default >>= next) = m'.optional key read default >>= next' := by
  rw [h.optional hformat.reads (hformat.read_write _ hexact) hfield, funext hnext]

theorem bind_nullable {next next' : Option α → Option β} (hnext : ∀ a, next a = next' a)
    (hfield : .optional key (.nullable s) .null ∈ fields := by simp) :
    (m.nullable key read >>= next) = m'.nullable key read >>= next' := by
  rw [h.nullable hformat.reads hfield, funext hnext]

end Schema.Agree

/-! ### Identifiers -/

namespace Guid

theorem mapM_hexValue?_map_hexDigit (digits : List (Fin 16)) :
    (digits.map Text.hexDigit).mapM Text.hexValue? = some digits := by
  induction digits with
  | nil => rfl
  | cons d digits ih =>
    rw [List.map_cons, List.mapM_cons, Text.hexValue?_hexDigit, ih]
    rfl

variable (g : Guid)

theorem length_chars : g.chars.length = 36 := by simp [chars, g.length_digits]

theorem hyphens_chars : [g.chars[8]?, g.chars[13]?, g.chars[18]?, g.chars[23]?].all (· = some '-') := by
  simp [chars, g.length_digits]

theorem groups_chars : g.chars.take 8 ++ (g.chars.drop 9).take 4 ++ (g.chars.drop 14).take 4 ++
    (g.chars.drop 19).take 4 ++ g.chars.drop 24 = g.digits.map Text.hexDigit := by
  have hgroup (cs : List Char) (n : Nat) : (cs.drop n).take 4 ++ cs.drop (n + 4) = cs.drop n := by
    rw [← List.drop_drop, List.take_append_drop]
  have hgroups := List.take_append_drop 8 (g.digits.map Text.hexDigit)
  rw [← hgroup _ 8, ← hgroup _ 12, ← hgroup _ 16] at hgroups
  rw [← hgroups]
  simp [chars, List.drop_append, List.drop_take, g.length_digits]

theorem parse?_text : parse? g.text = some g := by
  rw [text, parse?, String.toList_ofList, g.length_chars, if_neg (by decide), if_pos rfl]
  change (guard (g.chars.length = 36) >>= fun _ =>
    guard ([g.chars[8]?, g.chars[13]?, g.chars[18]?, g.chars[23]?].all (· = some '-')) >>= fun _ =>
      (g.chars.take 8 ++ (g.chars.drop 9).take 4 ++ (g.chars.drop 14).take 4 ++
        (g.chars.drop 19).take 4 ++ g.chars.drop 24).mapM Text.hexValue? >>= ofDigits?) = some g
  rw [g.groups_chars, mapM_hexValue?_map_hexDigit, guard, guard, if_pos g.length_chars,
    if_pos g.hyphens_chars]
  change ofDigits? g.digits = some g
  rw [ofDigits?, dif_pos g.length_digits]

theorem isFormat : IsFormat .leaf toJson ofJson? fun _ => True := by
  refine .leaf (fun g _ => ?_) rfl
  rw [toJson, ofJson?, Json.string?]
  exact g.parse?_text

end Guid

/-! ### Types and values -/

theorem VarType.isFormat : IsFormat .leaf VarType.toJson VarType.ofJson? fun _ => True :=
  .leaf (fun t _ => by cases t <;> rfl) rfl

namespace Value

def schema : Schema := .tagged (
  ["null", "this"].map (·, [.optional "value" (.nullable .leaf) .null]) ++
  ["bool", "int", "u_int", "float", "str", "vector3", "label", "method"].map
    (·, [.required "value" .leaf]))

/-- Whether all numbers of a value are finite. -/
def IsExact : Value → Prop
  | float x => x.isFinite
  | vector3 x y z => x.isFinite ∧ y.isFinite ∧ z.isFinite
  | _ => True

theorem ofJson?_toJson {v : Value} (h : v.IsExact) : ofJson? v.toJson = some v := by
  cases v with
  | int n => exact congrArg (Option.map int) (IsFormat.int32.read_write n trivial)
  | uint n => exact congrArg (Option.map uint) (IsFormat.uint32.read_write n trivial)
  | float x => exact congrArg (Option.map float) (IsFormat.single.read_write x h)
  | vector3 x y z =>
    have hread (x : Single) (hx : x.isFinite) := IsFormat.single.read_write x hx
    change ((Json.ofSingle x).single? >>= fun x => (Json.ofSingle y).single? >>= fun y =>
      (Json.ofSingle z).single? >>= fun z => some (vector3 x y z)) = some (vector3 x y z)
    rw [hread x h.1, hread y h.2.1, hread z h.2.2]
    rfl
  | _ => rfl

theorem reads : schema.Reads ofJson? := by
  refine Schema.reads_tagged (by decide) (by decide) ?_
  rw [List.forall_mem_append, List.forall_mem_map, List.forall_mem_map]
  constructor
  · -- A value of these kinds has no content: the member may be left out or `null`.
    intro kind hkind m m' hagree
    have hvalue : m.nullable "value" some = m'.nullable "value" some :=
      hagree.nullable (Schema.reads_leaf some) (by simp)
    simp only [List.mem_cons, List.not_mem_nil, or_false] at hkind
    obtain rfl | rfl := hkind
    · exact congrArg (· >>= fun value => if value.isNone then some null else none) hvalue
    · exact congrArg (· >>= fun value => if value.isNone then some this else none) hvalue
  · intro kind _ m m' hagree
    have hvalue : m.get? "value" = m'.get? "value" := hagree.get? (by simp)
    simp only [Members.nullable, Members.optional, hvalue]

theorem isFormat : IsFormat schema toJson ofJson? IsExact := ⟨fun _ => ofJson?_toJson, reads, rfl⟩

end Value

end TriggerCompiler
