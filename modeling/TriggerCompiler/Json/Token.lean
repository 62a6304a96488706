import TriggerCompiler.Json.Basic
import TriggerCompiler.Text.Hex

/-! The tokens of JSON text. A token is a mark, a string or a complete scalar value. -/

namespace TriggerCompiler.Json

inductive Token where
  | openBrace
  | closeBrace
  | openBracket
  | closeBracket
  | colon
  | comma
  | text (value : String)
  | scalar (value : Json)
deriving Inhabited

namespace Token

private def digitsOf (cs : List Char) : List Nat := cs.map fun c => c.toNat - 48

/-- The exponent part of a number: nothing, or a mark, an optional sign and digits. -/
private def exponentPart? : List Char → Option Int
  | [] => some 0
  | mark :: rest =>
      if mark ≠ 'e' ∧ mark ≠ 'E' then none
      else
        let (negative, digits) :=
          match rest with
          | '-' :: digits => (true, digits)
          | '+' :: digits => (false, digits)
          | digits => (false, digits)
        if digits.isEmpty || digits.any (!·.isDigit) then none
        else
          let n : Int := ((digitsOf digits).foldl (fun n d => n * 10 + d) 0 : Nat)
          some (if negative then -n else n)

private def realOf (negative : Bool) (x : Decimal) : Option Json :=
  x.toDouble?.map fun value => real (Single.ofMagnitude negative value)

/-- The value of a number without its sign. A number with a fraction or an exponent, an integer that
does not fit in 64 bits and the negative zero are read as real numbers. -/
private def unsignedNumber? (negative : Bool) (cs : List Char) : Option Json :=
  let whole := cs.takeWhile Char.isDigit
  let rest := cs.dropWhile Char.isDigit
  if whole.isEmpty || (whole.head? = some '0' && 1 < whole.length) then none
  else
    let start := Decimal.absorbInteger ⟨0, 0⟩ (digitsOf whole)
    match rest with
    | [] =>
        if start.exponent ≠ 0 then realOf negative start
        else if !negative then some (int start.digits)
        else if start.digits = 0 || 2 ^ 63 < start.digits then realOf true start
        else some (int (-start.digits))
    | '.' :: tail =>
        let fraction := tail.takeWhile Char.isDigit
        if fraction.isEmpty then none
        else do
          let x := Decimal.absorbFraction start (digitsOf fraction)
          let shift ← exponentPart? (tail.dropWhile Char.isDigit)
          realOf negative { x with exponent := x.exponent + shift }
    | tail => do
        let shift ← exponentPart? tail
        realOf negative { start with exponent := start.exponent + shift }

def number? : List Char → Option Json
  | '-' :: rest => unsignedNumber? true rest
  | cs => unsignedNumber? false cs

private def isNumberChar (c : Char) : Bool :=
  c.isDigit || c = '+' || c = '-' || c = '.' || c = 'e' || c = 'E'

private def codeUnit? (a b c d : Char) : Option Nat := do
  let a ← Text.hexValue? a
  let b ← Text.hexValue? b
  let c ← Text.hexValue? c
  let d ← Text.hexValue? d
  return ((a.val * 16 + b.val) * 16 + c.val) * 16 + d.val

private def simpleEscape? (c : Char) : Option Char :=
  if c = '"' then some '"'
  else if c = '\\' then some '\\'
  else if c = '/' then some '/'
  else if c = 'b' then some '\x08'
  else if c = 'f' then some '\x0c'
  else if c = 'n' then some '\n'
  else if c = 'r' then some '\r'
  else if c = 't' then some '\t'
  else none

/-- The first character of the inside of a string and what follows it; nothing at an unfinished or
unknown escape, half of a surrogate pair, or a control character. -/
private def stringChar? : List Char → Option (Char × List Char)
  | [] => none
  | '\\' :: 'u' :: a :: b :: c :: d :: rest => do
      let unit ← codeUnit? a b c d
      if 0xD800 ≤ unit ∧ unit < 0xDC00 then
        match rest with
        | '\\' :: 'u' :: e :: f :: g :: h :: rest => do
            let low ← codeUnit? e f g h
            if 0xDC00 ≤ low ∧ low < 0xE000 then
              return (Char.ofNat (0x10000 + (unit - 0xD800) * 0x400 + (low - 0xDC00)), rest)
            else none
        | _ => none
      else if 0xDC00 ≤ unit ∧ unit < 0xE000 then none
      else return (Char.ofNat unit, rest)
  | '\\' :: c :: rest => (simpleEscape? c).map (·, rest)
  | c :: rest => if c.toNat < 32 || c = '\\' then none else some (c, rest)

private theorem length_stringChar? {cs rest : List Char} {c : Char}
    (h : stringChar? cs = some (c, rest)) : rest.length < cs.length := by
  unfold stringChar? at h
  split at h
  · simp at h
  · simp only [Option.bind_eq_bind, Option.bind_eq_some_iff] at h
    obtain ⟨unit, _, h⟩ := h
    split at h
    · split at h
      · simp only [Option.bind_eq_some_iff] at h
        obtain ⟨low, _, h⟩ := h
        split at h
        · simp only [Option.pure_def, Option.some.injEq, Prod.mk.injEq] at h
          simp only [← h.2, List.length_cons]
          omega
        · simp at h
      · simp at h
    · split at h
      · simp at h
      · simp only [Option.pure_def, Option.some.injEq, Prod.mk.injEq] at h
        simp only [← h.2, List.length_cons]
        omega
  · simp only [Option.map_eq_some_iff, Prod.mk.injEq] at h
    obtain ⟨_, _, _, rfl⟩ := h
    simp only [List.length_cons]
    omega
  · split at h
    · simp at h
    · simp only [Option.some.injEq, Prod.mk.injEq] at h
      simp [← h.2]

/-- The rest of a string behind its opening quote: its characters and what follows the closing one. -/
private def stringBody? (cs : List Char) : Option (List Char × List Char) :=
  match cs with
  | '"' :: rest => some ([], rest)
  | cs =>
      match _h : stringChar? cs with
      | none => none
      | some (c, rest) => (stringBody? rest).map fun r => (c :: r.1, r.2)
termination_by cs.length
decreasing_by exact length_stringChar? _h

private theorem length_stringBody? {cs body rest : List Char}
    (h : stringBody? cs = some (body, rest)) : rest.length < cs.length := by
  fun_induction stringBody? cs generalizing body with
  | case1 tail => simp only [Option.some.injEq, Prod.mk.injEq] at h; simp [← h.2]
  | case2 => simp at h
  | case3 cs _ c tail hc ih =>
      simp only [Option.map_eq_some_iff, Prod.mk.injEq] at h
      obtain ⟨⟨body', rest'⟩, hb, _, rfl⟩ := h
      exact Nat.lt_trans (ih hb) (length_stringChar? hc)

private def isBlank (c : Char) : Bool := c = ' ' || c = '\n' || c = '\r' || c = '\t'

/-- The first token of a text that is not blank there, and what follows it. -/
private def first? : List Char → Option (Token × List Char)
  | '\x7b' :: rest => some (openBrace, rest)
  | '\x7d' :: rest => some (closeBrace, rest)
  | '[' :: rest => some (openBracket, rest)
  | ']' :: rest => some (closeBracket, rest)
  | ':' :: rest => some (colon, rest)
  | ',' :: rest => some (comma, rest)
  | '"' :: rest => (stringBody? rest).map fun r => (text (String.ofList r.1), r.2)
  | 'n' :: 'u' :: 'l' :: 'l' :: rest => some (scalar null, rest)
  | 't' :: 'r' :: 'u' :: 'e' :: rest => some (scalar (bool true), rest)
  | 'f' :: 'a' :: 'l' :: 's' :: 'e' :: rest => some (scalar (bool false), rest)
  | c :: rest =>
      (number? (c :: rest.takeWhile isNumberChar)).map fun n =>
        (scalar n, rest.dropWhile isNumberChar)
  | [] => none

private theorem length_first? {cs rest : List Char} {t : Token} (h : first? cs = some (t, rest)) :
    rest.length < cs.length := by
  unfold first? at h
  split at h
  all_goals try
    simp only [Option.some.injEq, Prod.mk.injEq] at h
    simp only [← h.2, List.length_cons]
    omega
  · simp only [Option.map_eq_some_iff, Prod.mk.injEq] at h
    obtain ⟨r, hr, _, rfl⟩ := h
    exact Nat.lt_trans (length_stringBody? hr) (by simp)
  · simp only [Option.map_eq_some_iff, Prod.mk.injEq] at h
    obtain ⟨_, _, _, rfl⟩ := h
    have hle := (List.dropWhile_sublist isNumberChar (l := ‹List Char›)).length_le
    simp only [List.length_cons]
    omega
  · simp at h

/-- The tokens of a text, or nothing if the text has a part that is no token. -/
def all? (cs : List Char) : Option (List Token) :=
  match cs with
  | [] => some []
  | c :: rest =>
      if isBlank c then all? rest
      else
        match _h : first? (c :: rest) with
        | none => none
        | some (token, tail) => (all? tail).map (token :: ·)
termination_by cs.length
decreasing_by
  · simp
  · exact length_first? _h

end Token

end TriggerCompiler.Json
