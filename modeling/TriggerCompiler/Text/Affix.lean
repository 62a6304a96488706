/-! Taking a known beginning or ending off a text. -/

namespace TriggerCompiler.Text

/-- The rest of a list behind a known beginning. -/
def dropStart? {α : Type} [DecidableEq α] : List α → List α → Option (List α)
  | [], rest => some rest
  | _ :: _, [] => none
  | p :: ps, c :: cs => if p = c then dropStart? ps cs else none

theorem dropStart?_eq_some_iff {α : Type} [DecidableEq α] {start whole rest : List α} :
    dropStart? start whole = some rest ↔ whole = start ++ rest := by
  induction start generalizing whole with
  | nil => simp [dropStart?, eq_comm]
  | cons p ps ih =>
      cases whole with
      | nil => simp [dropStart?]
      | cons c cs =>
          by_cases h : p = c
          · simp [dropStart?, h, ih]
          · have hne : c ≠ p := fun heq => h heq.symm
            simp [dropStart?, h, hne]

def withoutStart? (start s : String) : Option String :=
  (dropStart? start.toList s.toList).map String.ofList

def withoutEnd? (ending s : String) : Option String :=
  (dropStart? ending.toList.reverse s.toList.reverse).map fun r => String.ofList r.reverse

end TriggerCompiler.Text
