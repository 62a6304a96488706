import TriggerCompiler.Proofs.ModuleNames

/-! The keys of the constant pool. A key is the name of a type, a bar and a description of a value, and the
name may hold bars and quotation marks of its own. Yet a key can be split in one way only: inside a quoted
text every quotation mark is escaped, so behind the opening one there is no text that begins like a
description. Constants are therefore pooled exactly by the names of their types and by their values. -/

namespace TriggerCompiler

namespace Text

/-! ### Quoting -/

theorem digitChar_inj {a b : Nat} (ha : a < 16) (hb : b < 16) (h : a.digitChar = b.digitChar) :
    a = b := by
  have hall : ∀ i < 16, ∀ j < 16, i.digitChar = j.digitChar → i = j := by decide
  exact hall a ha b hb h

theorem hexDigits_inj {a b : Nat} (h : hexDigits a = hexDigits b) : a = b := by
  induction a using Nat.strongRecOn generalizing b with
  | ind a ih =>
    have hlong {n : Nat} (hn : ¬n < 16) : hexDigits n = hexDigits (n / 16) ++ [(n % 16).digitChar] := by
      rw [hexDigits, Nat.toDigits_eq_if (by decide), if_neg hn]
      rfl
    have hshort {n : Nat} (hn : n < 16) : hexDigits n = [n.digitChar] := by
      rw [hexDigits, Nat.toDigits_eq_if (by decide), if_pos hn]
    have hnot {n : Nat} {c : Char} (hn : ¬n < 16) : hexDigits n ≠ [c] := by
      rw [hlong hn]
      intro heq
      have hlength := congrArg List.length heq
      rw [List.length_append, List.length_singleton] at hlength
      exact Nat.toDigits_ne_nil (List.length_eq_zero_iff.mp (Nat.add_right_cancel hlength))
    by_cases ha : a < 16
    · rw [hshort ha] at h
      by_cases hb : b < 16
      · rw [hshort hb] at h
        exact digitChar_inj ha hb (List.cons.inj h).1
      · exact absurd h.symm (hnot hb)
    · by_cases hb : b < 16
      · rw [hshort hb] at h
        exact absurd h (hnot ha)
      · rw [hlong ha, hlong hb] at h
        obtain ⟨hhigh, hlow⟩ := List.append_inj' h rfl
        have hdiv := ih (a / 16) (by omega) hhigh
        have hmod := digitChar_inj (by omega) (by omega) (List.cons.inj hlow).1
        omega

theorem not_mem_hexDigits {c : Char} (hc : ∀ d < 16, d.digitChar ≠ c) (n : Nat) : c ∉ hexDigits n := by
  induction n using Nat.strongRecOn with
  | ind n ih =>
    have hlast : c ∉ [(n % 16).digitChar] := fun h =>
      hc (n % 16) (Nat.mod_lt _ (by decide)) (List.mem_singleton.mp h).symm
    rw [hexDigits, Nat.toDigits_eq_if (by decide)]
    split
    · rename_i hn
      rwa [Nat.mod_eq_of_lt hn] at hlast
    · rw [List.mem_append, not_or]
      exact ⟨ih (n / 16) (by omega), hlast⟩

theorem brace_not_mem_hexDigits (n : Nat) : '\x7d' ∉ hexDigits n := not_mem_hexDigits (by decide) n

/-- The characters with an escape of two characters. -/
def shortEscapes : List (Char × Char) :=
  [('"', '"'), ('\\', '\\'), ('\t', 't'), ('\r', 'r'), ('\n', 'n'), ('\x00', '0')]

/-- The three forms of a quoted character. -/
inductive QuotedAs (c : Char) : List Char → Prop
  | itself (hquote : c ≠ '"') (hslash : c ≠ '\\') : QuotedAs c [c]
  | short {e : Char} (h : (c, e) ∈ shortEscapes) : QuotedAs c ['\\', e]
  | long : QuotedAs c ('\\' :: 'u' :: '\x7b' :: (hexDigits c.toNat ++ ['\x7d']))

theorem quotedAs_quoteChar (c : Char) : QuotedAs c (quoteChar c) := by
  unfold quoteChar
  split
  · rename_i h; subst h; exact .short (by decide)
  · rename_i hquote
    split
    · rename_i h; subst h; exact .short (by decide)
    · rename_i hslash
      split
      · rename_i h; subst h; exact .short (by decide)
      · split
        · rename_i h; subst h; exact .short (by decide)
        · split
          · rename_i h; subst h; exact .short (by decide)
          · split
            · rename_i h; subst h; exact .short (by decide)
            · split
              · exact .itself hquote hslash
              · exact .long

theorem QuotedAs.append_inj {c d : Char} {s t a b : List Char} (hs : QuotedAs c s) (ht : QuotedAs d t)
    (h : s ++ a = t ++ b) : c = d ∧ a = b := by
  have hshort : ∀ p ∈ shortEscapes, ∀ q ∈ shortEscapes, p.2 = q.2 → p.1 = q.1 := by decide
  have hlong : ∀ p ∈ shortEscapes, p.2 ≠ 'u' := by decide
  cases hs with
  | itself _ hslash =>
    cases ht with
    | itself _ _ => exact List.cons.inj h
    | short _ => exact absurd (List.cons.inj h).1 hslash
    | long => exact absurd (List.cons.inj h).1 hslash
  | @short e he =>
    cases ht with
    | itself _ hslash => exact absurd (List.cons.inj h).1.symm hslash
    | @short f hf =>
      have htail := List.cons.inj (List.cons.inj h).2
      exact ⟨hshort _ he _ hf htail.1, htail.2⟩
    | long => exact absurd (List.cons.inj (List.cons.inj h).2).1 (hlong _ he)
  | long =>
    cases ht with
    | itself _ hslash => exact absurd (List.cons.inj h).1.symm hslash
    | @short f hf => exact absurd (List.cons.inj (List.cons.inj h).2).1.symm (hlong _ hf)
    | long =>
      have hdigits : hexDigits c.toNat ++ ['\x7d'] ++ a = hexDigits d.toNat ++ ['\x7d'] ++ b :=
        (List.cons.inj (List.cons.inj (List.cons.inj h).2).2).2
      rw [List.append_assoc, List.append_assoc] at hdigits
      obtain ⟨hcode, hrest⟩ := append_separator_inj (brace_not_mem_hexDigits _)
        (brace_not_mem_hexDigits _) hdigits
      exact ⟨Char.toNat_inj.mp (hexDigits_inj hcode), hrest⟩

theorem QuotedAs.not_quote {c : Char} {s a : List Char} (hs : QuotedAs c s) (t : List Char) :
    s ++ a ≠ '"' :: t := by
  cases hs with
  | itself hquote _ => exact fun h => hquote (List.cons.inj h).1
  | short _ => exact fun h => absurd (List.cons.inj h).1 (by decide)
  | long => exact fun h => absurd (List.cons.inj h).1 (by decide)

/-- The text behind an opening quotation mark, up to the closing one, is determined. -/
theorem quoted_inj {s t a b : List Char}
    (h : s.flatMap quoteChar ++ '"' :: a = t.flatMap quoteChar ++ '"' :: b) : s = t := by
  induction s generalizing t with
  | nil =>
    cases t with
    | nil => rfl
    | cons d t =>
      rw [List.flatMap_cons, List.append_assoc] at h
      exact absurd h.symm ((quotedAs_quoteChar d).not_quote _)
  | cons c s ih =>
    cases t with
    | nil =>
      rw [List.flatMap_cons, List.append_assoc] at h
      exact absurd h ((quotedAs_quoteChar c).not_quote _)
    | cons d t =>
      rw [List.flatMap_cons, List.flatMap_cons, List.append_assoc, List.append_assoc] at h
      obtain ⟨rfl, hrest⟩ := (quotedAs_quoteChar c).append_inj (quotedAs_quoteChar d) h
      rw [ih hrest]

theorem quote_inj {s t : String} (h : quote s = quote t) : s = t := by
  have hlist : s.toList.flatMap quoteChar ++ ['"'] = t.toList.flatMap quoteChar ++ ['"'] :=
    (List.cons.inj (String.ofList_inj.mp h)).2
  exact String.toList_inj.mp (quoted_inj hlist)

theorem toList_quote (s : String) :
    (quote s).toList = '"' :: s.toList.flatMap quoteChar ++ ['"'] := by
  rw [quote, String.toList_ofList]
  rfl

theorem QuotedAs.parenthesis {c : Char} {s : List Char} (hs : QuotedAs c s) : '(' ∉ s ∨ s = ['('] := by
  have hshort : ∀ p ∈ shortEscapes, p.2 ≠ '(' := by decide
  cases hs with
  | itself _ _ =>
    by_cases hc : c = '('
    · exact Or.inr (hc ▸ rfl)
    · exact Or.inl (by simpa using Ne.symm hc)
  | short he => exact Or.inl (by simpa using (hshort _ he).symm)
  | long =>
    have hdigits := not_mem_hexDigits (c := '(') (by decide) c.toNat
    exact Or.inl (by simp [hdigits])

/-- In a quoted text, no quotation mark but the closing one stands behind a parenthesis. -/
theorem quoted_parenthesis {s a b : List Char}
    (h : s.flatMap quoteChar ++ ['"'] = a ++ '(' :: '"' :: b) : b = [] := by
  induction s generalizing a with
  | nil =>
    have hlength := congrArg List.length h
    simp at hlength
    omega
  | cons c s ih =>
    rw [List.flatMap_cons, List.append_assoc] at h
    rcases List.append_eq_append_iff.mp h with ⟨a', rfl, hrest⟩ | ⟨c', hquoted, hrest⟩
    · exact ih hrest
    · -- The parenthesis stands in the quoted character, which is then the parenthesis itself.
      cases c' with
      | nil => exact ih (a := []) hrest.symm
      | cons d c' =>
        obtain ⟨rfl, hbehind⟩ := List.cons.inj hrest
        rcases (quotedAs_quoteChar c).parenthesis with hnone | hself
        · exact absurd (hquoted ▸ List.mem_append_right _ List.mem_cons_self) hnone
        · rw [hself] at hquoted
          have hlength := congrArg List.length hquoted
          simp only [List.length_append, List.length_cons, List.length_nil] at hlength
          have hnil : c' = [] := List.length_eq_zero_iff.mp (by omega)
          subst hnil
          cases s with
          | nil => exact (List.cons.inj hbehind).2
          | cons e s =>
            change '"' :: b = (e :: s).flatMap quoteChar ++ ['"'] at hbehind
            rw [List.flatMap_cons, List.append_assoc] at hbehind
            exact absurd hbehind.symm ((quotedAs_quoteChar e).not_quote _)

/-! ### Numbers -/

theorem toString_int_inj {a b : Int} (h : toString a = toString b) : a = b := by
  have hminus (n m : Nat) : toString (Int.negSucc n) ≠ toString (Int.ofNat m) := by
    intro heq
    have hmem : '-' ∈ (toString m).toList := by
      rw [show toString m = "-" ++ toString (n + 1) from heq.symm, String.toList_append]
      exact List.mem_append_left _ List.mem_cons_self
    rw [toList_toString_nat] at hmem
    exact absurd (Nat.isDigit_of_mem_toDigits (by decide) (by decide) hmem) (by decide)
  cases a with
  | ofNat m =>
    cases b with
    | ofNat n => exact congrArg Int.ofNat (toString_nat_inj.mp h)
    | negSucc n => exact absurd h.symm (hminus n m)
  | negSucc m =>
    cases b with
    | ofNat n => exact absurd h (hminus m n)
    | negSucc n =>
      have hdigits : "-" ++ toString (m + 1) = "-" ++ toString (n + 1) := h
      have heq := toString_nat_inj.mp ((String.append_right_inj _).mp hdigits)
      rw [Nat.succ.inj heq]

/-- Whether a character may stand in the text of a number. -/
def isNumeral (c : Char) : Bool := c.isDigit || "-.einfNa".toList.contains c

/-- A text of digits, signs, points and exponents. -/
def Numeral (text : List Char) : Prop := ∀ c ∈ text, isNumeral c = true

namespace Numeral

instance (text : List Char) : Decidable (Numeral text) :=
  decidable_of_iff (text.all isNumeral = true) List.all_eq_true

theorem not_mem {text : List Char} (h : Numeral text) {c : Char} (hc : isNumeral c = false) : c ∉ text :=
  fun hmem => Bool.false_ne_true (hc.symm.trans (h c hmem))

theorem append {a b : List Char} (ha : Numeral a) (hb : Numeral b) : Numeral (a ++ b) :=
  List.forall_mem_append.mpr ⟨ha, hb⟩

theorem cons {c : Char} {a : List Char} (hc : isNumeral c = true) (ha : Numeral a) : Numeral (c :: a) :=
  List.forall_mem_cons.mpr ⟨hc, ha⟩

theorem take {a : List Char} (h : Numeral a) (n : Nat) : Numeral (a.take n) :=
  fun c hc => h c (List.mem_of_mem_take hc)

theorem drop {a : List Char} (h : Numeral a) (n : Nat) : Numeral (a.drop n) :=
  fun c hc => h c (List.mem_of_mem_drop hc)

theorem zeros (n : Nat) : Numeral (List.replicate n '0') := fun c hc => by
  rw [List.eq_of_mem_replicate hc]
  decide

theorem digits (n : Nat) : Numeral (Nat.toDigits 10 n) := fun c hc => by
  rw [isNumeral, Nat.isDigit_of_mem_toDigits (by decide) (by decide) hc]
  rfl

theorem nat (n : Nat) : Numeral (toString n).toList := toList_toString_nat n ▸ digits n

theorem int (n : Int) : Numeral (toString n).toList := by
  cases n with
  | ofNat n => exact nat n
  | negSucc n =>
    rw [show toString (Int.negSucc n) = "-" ++ toString (n + 1) from rfl, String.toList_append]
    exact append (by decide) (nat _)

theorem decimal (layout : Decimal.PlainRange) (x : Decimal) : Numeral (x.text layout).toList := by
  have hdigits := digits x.digits
  rw [Decimal.text, String.toList_ofList]
  dsimp only
  split
  · split
    · exact (hdigits.append (zeros _)).append (by decide)
    · split
      · exact (hdigits.take _).append (.cons (by decide) (hdigits.drop _))
      · exact .cons (by decide) (.cons (by decide) ((zeros _).append hdigits))
  · refine ((hdigits.take _).append ?_).append (.cons (by decide) (int _))
    split
    · exact fun c hc => absurd hc List.not_mem_nil
    · exact .cons (by decide) (hdigits.drop _)

theorem single (x : Single) : Numeral x.text.toList := by
  have hsign {s : String} (hs : Numeral s.toList) :
      Numeral ((if x.isNegative then "-" else "") ++ s).toList := by
    rw [String.toList_append]
    refine append ?_ hs
    split
    · decide
    · decide
  rw [Single.text, Single.textIn]
  split
  · split
    · exact hsign (by decide)
    · decide
  · split
    · exact hsign (by decide)
    · exact hsign (decimal _ _)

end Numeral

end Text

/-! ### Descriptions -/

namespace Value

open Text

/-- Two values are of one kind and have the same contents; numbers of single precision are compared by
their texts. -/
inductive Agrees : Value → Value → Prop
  | refl (v : Value) : Agrees v v
  | float {x y : Single} (h : x.text = y.text) : Agrees (.float x) (.float y)
  | vector3 {x y z x' y' z' : Single} (hx : x.text = x'.text) (hy : y.text = y'.text)
      (hz : z.text = z'.text) : Agrees (.vector3 x y z) (.vector3 x' y' z')

/-- The numbers of single precision in a value. -/
def singles : Value → List Single
  | float x => [x]
  | vector3 x y z => [x, y, z]
  | _ => []

variable {v w : Value} {type type' : VarType}

theorem Agrees.describe_eq (h : v.Agrees w) : v.describe = w.describe := by
  cases h with
  | refl => rfl
  | float h => simp only [describe, h]
  | vector3 hx hy hz => simp only [describe, hx, hy, hz]

/-- Values that agree are equal if the texts of their numbers determine the numbers. -/
theorem Agrees.eq (h : v.Agrees w) (hw : ∀ x ∈ w.singles, ∀ y : Single, y.text = x.text → y = x) :
    v = w := by
  cases h with
  | refl => rfl
  | float h => rw [hw _ List.mem_cons_self _ h]
  | vector3 hx hy hz =>
    rw [hw _ (by simp [singles]) _ hx, hw _ (by simp [singles]) _ hy, hw _ (by simp [singles]) _ hz]

/-- The first letter of a description. -/
def initial : Value → Char
  | null => 'N'
  | bool _ => 'B'
  | int _ => 'I'
  | uint _ => 'U'
  | float _ => 'F'
  | str _ => 'S'
  | vector3 .. => 'V'
  | this => 'T'
  | label _ => 'L'
  | method _ => 'M'

theorem initial_eq (h : v.describe = w.describe) : v.initial = w.initial := by
  have hhead (v : Value) : v.describe.toList.head? = some v.initial := by
    cases v <;> simp [describe, initial]
  exact Option.some.inj ((hhead v).symm.trans ((congrArg (·.toList.head?) h).trans (hhead w)))

theorem agrees_of_describe (h : v.describe = w.describe) : v.Agrees w := by
  have hinitial := initial_eq h
  have hlist := congrArg String.toList h
  have hquote {sort s s' : String} (h : (sort ++ quote s ++ ")").toList = (sort ++ quote s' ++ ")").toList) :
      s = s' := by
    simp only [String.toList_append] at h
    exact quote_inj (String.toList_inj.mp (List.append_cancel_left (List.append_cancel_right h)))
  -- The first letter tells the kinds of values apart.
  cases v <;> cases w <;> simp only [initial] at hinitial <;> first | exact absurd hinitial (by decide) | skip
  case null.null => exact .refl _
  case this.this => exact .refl _
  case bool.bool a b => cases a <;> cases b <;> first | exact .refl _ | exact absurd hlist (by decide)
  case int.int m n =>
    simp only [describe, String.toList_append] at hlist
    have hdigits := List.append_cancel_left (List.append_cancel_right hlist)
    rw [Int32.toInt_inj.mp (toString_int_inj (String.toList_inj.mp hdigits))]
    exact .refl _
  case uint.uint m n =>
    simp only [describe, String.toList_append] at hlist
    have hdigits := List.append_cancel_left (List.append_cancel_right hlist)
    rw [UInt32.toNat_inj.mp (toString_nat_inj.mp (String.toList_inj.mp hdigits))]
    exact .refl _
  case float.float x y =>
    simp only [describe, String.toList_append] at hlist
    exact .float (String.toList_inj.mp (List.append_cancel_left (List.append_cancel_right hlist)))
  case str.str s t => exact hquote hlist ▸ .refl _
  case label.label l l' => exact hquote hlist ▸ .refl _
  case method.method x y => exact hquote hlist ▸ .refl _
  case vector3.vector3 x y z x' y' z' =>
    have hcomma (s : Single) : ',' ∉ s.text.toList := (Numeral.single s).not_mem (by decide)
    simp only [describe, String.toList_append, List.append_assoc] at hlist
    obtain ⟨hx, hlist⟩ := append_separator_inj (hcomma x) (hcomma x') (List.append_cancel_left hlist)
    obtain ⟨hy, hlist⟩ := append_separator_inj (hcomma y) (hcomma y') (List.cons.inj hlist).2
    have hrest : z.text.toList ++ _ = z'.text.toList ++ _ := (List.cons.inj hlist).2
    have hz := List.append_cancel_right hrest
    exact .vector3 (String.toList_inj.mp hx) (String.toList_inj.mp hy) (String.toList_inj.mp hz)

/-- A text without quotation marks and bars. -/
def Unmarked (text : List Char) : Prop := '"' ∉ text ∧ '|' ∉ text

instance (text : List Char) : Decidable (Unmarked text) :=
  inferInstanceAs (Decidable ('"' ∉ text ∧ '|' ∉ text))

theorem unmarked_wrap (before after : List Char) {text : List Char} (hbefore : Unmarked before)
    (h : Numeral text) (hafter : Unmarked after) : Unmarked (before ++ text ++ after) := by
  have hquote := h.not_mem (c := '"') (by decide)
  have hbar := h.not_mem (c := '|') (by decide)
  simp [Unmarked, hbefore.1, hbefore.2, hafter.1, hafter.2, hquote, hbar]

/-- A value is described without marks, or with a quoted text in parentheses. -/
theorem describe_cases (v : Value) :
    Unmarked v.describe.toList ∧ 2 ≤ v.describe.toList.length ∨
      ∃ (sort : List Char) (s : String), '|' ∉ sort ∧
        v.describe.toList = sort ++ '(' :: '"' :: (s.toList.flatMap quoteChar ++ ['"', ')']) := by
  cases v with
  | null => exact Or.inl (by decide)
  | this => exact Or.inl (by decide)
  | bool b => cases b <;> exact Or.inl (by decide)
  | int n =>
    refine Or.inl ⟨?_, by simp [describe]⟩
    simpa [describe] using unmarked_wrap "Int(".toList [')'] (by decide) (.int n.toInt) (by decide)
  | uint n =>
    refine Or.inl ⟨?_, by simp [describe]⟩
    simpa [describe] using unmarked_wrap "UInt(".toList [')'] (by decide) (.nat n.toNat) (by decide)
  | float x =>
    refine Or.inl ⟨?_, by simp [describe]⟩
    simpa [describe] using unmarked_wrap "Float(".toList [')'] (by decide) (.single x) (by decide)
  | vector3 x y z =>
    refine Or.inl ⟨?_, by simp [describe]⟩
    have hx := unmarked_wrap "Vector3([".toList [',', ' '] (by decide) (.single x) (by decide)
    have hy := unmarked_wrap _ [',', ' '] hx (.single y) (by decide)
    simpa [describe] using unmarked_wrap _ [']', ')'] hy (.single z) (by decide)
  | str s => exact Or.inr ⟨['S', 't', 'r'], s, by decide, by simp [describe, toList_quote]⟩
  | label l =>
    exact Or.inr ⟨['L', 'a', 'b', 'e', 'l'], l, by decide, by simp [describe, toList_quote]⟩
  | method x =>
    exact Or.inr ⟨['M', 'e', 't', 'h', 'o', 'd'], x, by decide, by simp [describe, toList_quote]⟩

/-- A description does not end with a bar and a description. -/
theorem describe_ne_append (v w : Value) (a : List Char) :
    v.describe.toList ≠ a ++ '|' :: w.describe.toList := by
  intro h
  rcases describe_cases v with ⟨hv, -⟩ | ⟨sort, s, hsort, hv⟩
  · exact hv.2 (h ▸ List.mem_append_right _ List.mem_cons_self)
  · rcases describe_cases w with ⟨hw, hlength⟩ | ⟨sort', s', -, hw⟩
    · -- A description without marks does not end with a quotation mark and a parenthesis.
      have hend : ['"', ')'] <:+ v.describe.toList :=
        ⟨sort ++ '(' :: '"' :: s.toList.flatMap quoteChar, by simp [hv]⟩
      have hsuffix : w.describe.toList <:+ v.describe.toList :=
        h ▸ (List.suffix_cons _ _).trans (List.suffix_append _ _)
      exact hw.1 ((List.suffix_of_suffix_length_le hend hsuffix hlength).subset List.mem_cons_self)
    · -- The bar stands behind the opening quotation mark, so a parenthesis and a further one do too.
      rw [hv, hw] at h
      rcases List.append_eq_append_iff.mp h with ⟨a, -, hrest⟩ | ⟨c, rfl, hrest⟩
      · obtain ⟨a, rfl⟩ : ∃ a', a = '(' :: '"' :: a' := by
          match a, hrest with
          | [], hrest => exact absurd (List.cons.inj hrest).1 (by decide)
          | [_], hrest => exact absurd (List.cons.inj (List.cons.inj hrest).2).1 (by decide)
          | c :: d :: a, hrest =>
            obtain ⟨rfl, hbehind⟩ := List.cons.inj hrest
            obtain ⟨rfl, -⟩ := List.cons.inj hbehind
            exact ⟨a, rfl⟩
        have hquoted : (s.toList.flatMap quoteChar ++ ['"']) ++ [')'] =
            ((a ++ '|' :: sort') ++ '(' :: '"' :: (s'.toList.flatMap quoteChar ++ ['"'])) ++ [')'] := by
          simpa using hrest
        have hnil := quoted_parenthesis (List.append_cancel_right hquoted)
        simp at hnil
      · cases c with
        | nil => exact absurd (List.cons.inj hrest).1 (by decide)
        | cons d c =>
          obtain ⟨rfl, -⟩ := List.cons.inj hrest
          exact hsort (List.mem_append_right _ List.mem_cons_self)

/-! ### Keys -/

theorem poolKey_eq_iff : v.poolKey type = w.poolKey type' ↔
    type.machineName = type'.machineName ∧ v.Agrees w := by
  constructor
  · intro h
    have hlist := congrArg String.toList h
    simp only [poolKey, String.toList_append, List.append_assoc] at hlist
    rcases List.append_eq_append_iff.mp hlist with ⟨a, hname, hrest⟩ | ⟨a, hname, hrest⟩
    · cases a with
      | nil =>
        rw [List.append_nil] at hname
        exact ⟨(String.toList_inj.mp hname).symm,
          agrees_of_describe (String.toList_inj.mp (List.cons.inj hrest).2)⟩
      | cons c a => exact absurd (List.cons.inj hrest).2 (describe_ne_append v w a)
    · cases a with
      | nil =>
        rw [List.append_nil] at hname
        exact ⟨String.toList_inj.mp hname,
          agrees_of_describe (String.toList_inj.mp (List.cons.inj hrest).2.symm)⟩
      | cons c a => exact absurd (List.cons.inj hrest).2 (describe_ne_append w v a)
  · rintro ⟨hname, hagrees⟩
    rw [poolKey, poolKey, hname, hagrees.describe_eq]

/-- The key of a value without numbers of single precision is the key of no other value. -/
theorem eq_of_poolKey (h : v.poolKey type = w.poolKey type') (hw : w.singles = []) : v = w :=
  (poolKey_eq_iff.mp h).2.eq fun x hx => by simp [hw] at hx

theorem poolKey_ne_of_isPlain (hv : v.isPlain = true) (hw : w.isPlain = false) :
    v.poolKey type ≠ w.poolKey type' := by
  intro h
  have hsingles : w.singles = [] := by
    cases w with
    | float _ => cases hw
    | vector3 _ _ _ => cases hw
    | _ => rfl
  rw [eq_of_poolKey h hsingles, hw] at hv
  cases hv

end Value

end TriggerCompiler
