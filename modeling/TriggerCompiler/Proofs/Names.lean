import TriggerCompiler.Emission.Event

/-! The shapes of names. The compiler makes names up from a fixed beginning and a number; the beginning
tells the kinds of names apart, and the number, which no underscore is part of, the names of one kind. -/

namespace TriggerCompiler

variable {a b : Nat}

namespace Text

/-- Whether a text begins with another one. -/
def Begins (start s : String) : Prop := start.toList <+: s.toList

instance (start s : String) : Decidable (Begins start s) :=
  inferInstanceAs (Decidable (start.toList <+: s.toList))

variable {p q s x y : String}

theorem begins_iff : Begins p s ↔ ∃ x, s = p ++ x := by
  constructor
  · rintro ⟨rest, h⟩
    refine ⟨String.ofList rest, ?_⟩
    rw [← String.toList_inj, String.toList_append, String.toList_ofList, h]
  · rintro ⟨x, rfl⟩
    rw [Begins, String.toList_append]
    exact List.prefix_append _ _

theorem begins_append (p x : String) : Begins p (p ++ x) := begins_iff.mpr ⟨x, rfl⟩

theorem Begins.trans (h : Begins p q) (h' : Begins q s) : Begins p s := List.IsPrefix.trans h h'

theorem Begins.or (hp : Begins p s) (hq : Begins q s) : Begins p q ∨ Begins q p :=
  List.prefix_or_prefix_of_prefix hp hq

theorem Begins.not_begins (hs : Begins q s) (hpq : ¬Begins p q) (hqp : ¬Begins q p) :
    ¬Begins p s := fun hp => (hp.or hs).elim hpq hqp

theorem Begins.ne {t : String} (hs : Begins p s) (ht : Begins q t) (h : ¬Begins p q ∧ ¬Begins q p) :
    s ≠ t := by
  rintro rfl
  exact ht.not_begins h.1 h.2 hs

theorem append_right_cancel_iff : p ++ x = p ++ y ↔ x = y := by
  constructor
  · intro h
    rw [← String.toList_inj, String.toList_append, String.toList_append] at h
    exact String.toList_inj.mp (List.append_cancel_left h)
  · exact fun h => h ▸ rfl

theorem withoutStart?_eq_some_iff : withoutStart? p s = some x ↔ s = p ++ x := by
  rw [withoutStart?, Option.map_eq_some_iff]
  constructor
  · rintro ⟨rest, h, rfl⟩
    rw [← String.toList_inj, String.toList_append, String.toList_ofList]
    exact dropStart?_eq_some_iff.mp h
  · rintro rfl
    exact ⟨x.toList, dropStart?_eq_some_iff.mpr String.toList_append, String.ofList_toList⟩

theorem withoutEnd?_eq_some_iff : withoutEnd? p s = some x ↔ s = x ++ p := by
  rw [withoutEnd?, Option.map_eq_some_iff]
  constructor
  · rintro ⟨rest, h, rfl⟩
    have hrev := congrArg List.reverse (dropStart?_eq_some_iff.mp h)
    rw [List.reverse_reverse, List.reverse_append, List.reverse_reverse] at hrev
    rw [← String.toList_inj, String.toList_append, String.toList_ofList]
    exact hrev
  · rintro rfl
    refine ⟨x.toList.reverse, dropStart?_eq_some_iff.mpr ?_, ?_⟩
    · rw [String.toList_append, List.reverse_append]
    · rw [List.reverse_reverse, String.ofList_toList]

/-! ### Numbers in names -/

theorem toList_toString_nat (n : Nat) : (toString n).toList = Nat.toDigits 10 n :=
  String.toList_ofList

theorem underscore_not_mem_digits (n : Nat) : '_' ∉ (toString n).toList := by
  rw [toList_toString_nat]
  intro h
  have hdigit := Nat.isDigit_of_mem_toDigits (by decide) (by decide) h
  exact absurd hdigit (by decide)

theorem toString_nat_inj : toString a = toString b ↔ a = b := by
  constructor
  · intro h
    have hdigits : Nat.toDigits 10 a = Nat.toDigits 10 b := by
      rw [← toList_toString_nat, h, toList_toString_nat]
    rw [← Nat.ofDigitChars_ten_toDigits (n := a), hdigits, Nat.ofDigitChars_ten_toDigits]
  · exact fun h => h ▸ rfl

/-- What stands before the first separator is determined by the text. -/
theorem append_separator_inj {α : Type} {sep : α} {a b u v : List α} (ha : sep ∉ a) (hb : sep ∉ b)
    (h : a ++ sep :: u = b ++ sep :: v) : a = b ∧ u = v := by
  induction a generalizing b with
  | nil =>
    cases b with
    | nil => exact ⟨rfl, by simpa using h⟩
    | cons c b =>
      rw [List.nil_append, List.cons_append, List.cons.injEq] at h
      exact absurd (h.1 ▸ List.mem_cons_self) hb
  | cons c a ih =>
    cases b with
    | nil =>
      rw [List.nil_append, List.cons_append, List.cons.injEq] at h
      exact absurd (h.1 ▸ List.mem_cons_self) ha
    | cons d b =>
      rw [List.cons_append, List.cons_append, List.cons.injEq] at h
      obtain ⟨rfl, hrest⟩ := h
      obtain ⟨rfl, hu⟩ := ih (fun hm => ha (List.mem_cons_of_mem _ hm))
        (fun hm => hb (List.mem_cons_of_mem _ hm)) hrest
      exact ⟨rfl, hu⟩

/-- The number before an underscore and the rest behind it. -/
theorem number_underscore_inj
    (h : toString a ++ "_" ++ x = toString b ++ "_" ++ y) : a = b ∧ x = y := by
  rw [← String.toList_inj] at h
  simp only [String.toList_append, List.append_assoc] at h
  obtain ⟨hab, hxy⟩ := append_separator_inj (underscore_not_mem_digits a)
    (underscore_not_mem_digits b) h
  exact ⟨toString_nat_inj.mp (String.toList_inj.mp hab), String.toList_inj.mp hxy⟩

/-- What stands behind the last underscore is determined by the text. -/
theorem underscore_append_inj {u v : String} (hu : '_' ∉ u.toList) (hv : '_' ∉ v.toList)
    (h : x ++ "_" ++ u = y ++ "_" ++ v) : u = v := by
  rw [← String.toList_inj] at h
  have hrev := congrArg List.reverse h
  simp only [String.toList_append, List.append_assoc, List.reverse_append] at hrev
  obtain ⟨huv, -⟩ := append_separator_inj (fun hm => hu (List.mem_reverse.mp hm))
    (fun hm => hv (List.mem_reverse.mp hm)) hrev
  exact String.toList_inj.mp (List.reverse_inj.mp huv)

theorem underscore_number_inj
    (h : x ++ "_" ++ toString a = y ++ "_" ++ toString b) : a = b :=
  toString_nat_inj.mp
    (underscore_append_inj (underscore_not_mem_digits a) (underscore_not_mem_digits b) h)

end Text

open Text

/-- The beginning of the names of the module that is merged with a number. -/
def mergedPrefix (ordinal : Nat) : String := s!"__m{ordinal}_"

theorem mergedPrefix_append (ordinal : Nat) (x : String) :
    mergedPrefix ordinal ++ x = "__m" ++ (toString ordinal ++ "_" ++ x) := by
  show "__m" ++ toString ordinal ++ "_" ++ x = _
  simp only [String.append_assoc]

variable {x y : String}

theorem mergedPrefix_append_inj
    (h : mergedPrefix a ++ x = mergedPrefix b ++ y) : a = b ∧ x = y := by
  rw [mergedPrefix_append, mergedPrefix_append] at h
  exact number_underscore_inj (append_right_cancel_iff.mp h)

theorem mergedPrefix_inj (h : mergedPrefix a = mergedPrefix b) : a = b :=
  (mergedPrefix_append_inj (congrArg (· ++ "") h)).1

theorem mergedPrefix_append_ne : mergedPrefix a ++ x ≠ x := by
  intro h
  have hlength := congrArg (fun s => s.toList.length) h
  rw [mergedPrefix_append] at hlength
  simp only [String.toList_append, List.length_append] at hlength
  have hpositive : 0 < "__m".toList.length := by decide
  omega

theorem begins_mergedPrefix (ordinal : Nat) (x : String) :
    Begins "__m" (mergedPrefix ordinal ++ x) := by
  rw [mergedPrefix_append]
  exact begins_append _ _

/-! ### Two underscores in a row -/

private theorem find_cons {c : Char} {rest : List Char} (h : hasDoubleUnderscore.find rest = true) :
    hasDoubleUnderscore.find (c :: rest) = true := by
  rw [hasDoubleUnderscore.find.eq_def]
  split
  · rfl
  · rename_i heq
    cases heq
    exact h
  · rename_i heq
    cases heq

theorem hasDoubleUnderscore_append (x y : String) :
    hasDoubleUnderscore (x ++ ("__" ++ y)) = true := by
  rw [hasDoubleUnderscore, String.toList_append, String.toList_append]
  induction x.toList with
  | nil => rfl
  | cons c rest ih => exact find_cons ih

theorem not_begins_of_isVariableName {name start : String} (h : Emit.isVariableName name = true)
    (hstart : Begins "__" start) : ¬Begins start name := by
  intro hbegins
  obtain ⟨x, rfl⟩ := begins_iff.mp (hstart.trans hbegins)
  have hdouble : hasDoubleUnderscore ("__" ++ x) = true := by
    simpa using hasDoubleUnderscore_append "" x
  rw [Emit.isVariableName, hdouble] at h
  simp at h

/-- The variable of a parameter has two underscores in a row, but not at its start. -/
theorem not_isVariableName_customParamVariable (event param : String) :
    Emit.isVariableName (customParamVariable event param) = false := by
  have hdouble : hasDoubleUnderscore (event ++ "__" ++ param) = true := by
    rw [String.append_assoc]
    exact hasDoubleUnderscore_append event param
  rw [customParamVariable, Emit.isVariableName, hdouble]
  simp

theorem not_begins_customParamVariable {event param start : String}
    (hevent : Emit.isVariableName event = true) (hfirst : startsWithUnderscore event = false)
    (hstart : Begins "__" start) : ¬Begins start (customParamVariable event param) := by
  intro hbegins
  have hunder := hstart.trans hbegins
  rw [Begins, customParamVariable, String.toList_append, String.toList_append] at hunder
  cases hchars : event.toList with
  | nil =>
    rw [Emit.isVariableName, isLegalIdentifier, hchars] at hevent
    cases hevent
  | cons c rest =>
    rw [hchars, List.cons_append, List.cons_append] at hunder
    have hc : '_' = c := (List.cons_prefix_cons.mp hunder).1
    rw [startsWithUnderscore, hchars, ← hc] at hfirst
    simp at hfirst

/-! ### Characters of identifiers -/

/-- Whether a text may stand behind the first character of an identifier. -/
def isWord (s : String) : Bool := isLegalIdentifier ("_" ++ s)

theorem isLegalIdentifier_append (hx : isLegalIdentifier x = true)
    (hy : isWord y = true) : isLegalIdentifier (x ++ y) = true := by
  rw [isWord, isLegalIdentifier, String.toList_append] at hy
  rw [isLegalIdentifier] at hx ⊢
  rw [String.toList_append]
  cases hchars : x.toList with
  | nil =>
    rw [hchars] at hx
    cases hx
  | cons c rest =>
    rw [hchars, Bool.and_eq_true] at hx
    replace hy := (Bool.and_eq_true _ _ ▸ hy).2
    dsimp only [List.cons_append]
    rw [List.all_append, hx.1, hx.2]
    exact hy

theorem isWord_append (hx : isWord x = true) (hy : isWord y = true) :
    isWord (x ++ y) = true := by
  rw [isWord, ← String.append_assoc]
  exact isLegalIdentifier_append hx hy

theorem isWord_of_isLegalIdentifier (h : isLegalIdentifier x = true) :
    isWord x = true := by
  rw [isWord, isLegalIdentifier, String.toList_append]
  rw [isLegalIdentifier] at h
  cases hchars : x.toList with
  | nil => rfl
  | cons c rest =>
    rw [hchars, Bool.and_eq_true] at h
    show (_ && ((_ || _) && _)) = true
    rw [h.1, h.2]
    rfl

theorem isWord_toString_nat (n : Nat) : isWord (toString n) = true := by
  rw [isWord, isLegalIdentifier, String.toList_append, toList_toString_nat]
  refine Bool.and_eq_true _ _ ▸ ⟨rfl, List.all_eq_true.mpr fun c hc => ?_⟩
  rw [Nat.isDigit_of_mem_toDigits (by decide) (by decide) hc, Bool.or_true]

theorem isLegalIdentifier_of_isVariableName (h : Emit.isVariableName x = true) :
    isLegalIdentifier x = true := (Bool.and_eq_true _ _ ▸ h).1

theorem isLegalIdentifier_changeMethod {name : String} (h : Emit.isVariableName name = true) :
    isLegalIdentifier (changeMethod name) = true :=
  isLegalIdentifier_append (by decide)
    (isWord_of_isLegalIdentifier (isLegalIdentifier_of_isVariableName h))

end TriggerCompiler
