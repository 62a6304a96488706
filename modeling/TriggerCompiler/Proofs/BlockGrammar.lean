import Mathlib.Data.Set.Card
import TriggerCompiler.Emission.Problem

/-! The grammar of blocks. Some actions open a block and one closes the innermost open block. A block is
open as long as the number of open blocks stays above what it was before the block; an end that finds no
open block is stray. A branch may stand only directly behind the end of a conditional that it continues,
and loops are left and continued only inside a loop. Nothing here depends on how the blocks of an event
are checked. -/

namespace TriggerCompiler

/-- What the actions of an event stand for, in their order. An action that is not known stands for
nothing. -/
abbrev Outline := List (Option PrimitiveDef)

namespace Outline

variable {s : Outline} {a b i : Nat} {kind : BlockKind} {opened : List Nat}

/-- What the action at a position does. -/
def op? (s : Outline) (i : Nat) : Option PrimitiveOp := s[i]?.join.map PrimitiveDef.op

/-- What an action adds to the number of open blocks. -/
def rise : Option PrimitiveOp → Int
  | some (.openBlock _) => 1
  | some .closeBlock => -1
  | _ => 0

/-- How many more blocks the first actions open than they close. -/
def depth (s : Outline) : Nat → Int
  | 0 => 0
  | i + 1 => s.depth i + rise (s.op? i)

/-- The block that one action opens is open before another. -/
structure OpenAt (s : Outline) (a i : Nat) : Prop where
  opens : ∃ kind, s.op? a = some (.openBlock kind)
  before : a < i
  above : ∀ j, a < j → j ≤ i → s.depth a < s.depth j

/-- An end closes the block that an action opens. -/
structure Closes (s : Outline) (a b : Nat) : Prop where
  ends : s.op? b = some .closeBlock
  isOpen : s.OpenAt a b
  isClosed : ¬s.OpenAt a (b + 1)

/-- An end with no open block before it. -/
def Stray (s : Outline) (b : Nat) : Prop := s.op? b = some .closeBlock ∧ ∀ a, ¬s.OpenAt a b

/-- No end before an action is stray. -/
def Reached (s : Outline) (i : Nat) : Prop := ∀ b, b < i → ¬s.Stray b

/-- A branch may stand at a position: directly behind the end of a conditional, or of a branch that was
itself accepted. -/
inductive Continuable (s : Outline) : Nat → Prop
  | cond {a b : Nat} (hop : s.op? a = some (.openBlock .cond)) (h : s.Closes a b) :
      Continuable s (b + 1)
  | elseCond {a b : Nat} (hop : s.op? a = some (.openBlock .elseCond)) (ha : Continuable s a)
      (h : s.Closes a b) : Continuable s (b + 1)

/-- An action stands inside a loop. -/
def InLoop (s : Outline) (i : Nat) : Prop :=
  ∃ a kind, s.op? a = some (.openBlock kind) ∧ kind.isLoop = true ∧ s.OpenAt a i

/-- What is wrong with the place of an action. -/
inductive Misplaced (s : Outline) (i : Nat) : Problem → Prop
  | branch {d : PrimitiveDef} {kind : BlockKind} (hd : s[i]? = some (some d))
      (hop : d.op = .openBlock kind) (hkind : kind.followsConditional = true)
      (h : ¬s.Continuable i) : Misplaced s i (.mustFollowConditional d.id)
  | exitLoop (hop : s.op? i = some .exitLoop) (h : ¬s.InLoop i) : Misplaced s i .breakOutsideLoop
  | nextIteration (hop : s.op? i = some .nextIteration) (h : ¬s.InLoop i) :
      Misplaced s i .continueOutsideLoop

/-- Actions that close every block they open, and no other. -/
inductive Balanced : Outline → Prop
  | nil : Balanced []
  | skip {d? : Option PrimitiveDef} {rest : Outline} (hd : rise (d?.map PrimitiveDef.op) = 0)
      (hrest : Balanced rest) : Balanced (d? :: rest)
  | block {head last : PrimitiveDef} {kind : BlockKind} {inner rest : Outline}
      (hhead : head.op = .openBlock kind) (hlast : last.op = .closeBlock) (hinner : Balanced inner)
      (hrest : Balanced rest) : Balanced (some head :: inner ++ some last :: rest)

/-! ### Open blocks, one action after the other -/

theorem depth_succ (s : Outline) (i : Nat) : s.depth (i + 1) = s.depth i + rise (s.op? i) := rfl

theorem rise_of_not_close {op? : Option PrimitiveOp} (h : op? ≠ some .closeBlock) : 0 ≤ rise op? := by
  unfold rise
  split <;> simp_all

/-- An action other than an end leaves all blocks open and may open one. -/
theorem openAt_succ (h : s.op? i ≠ some .closeBlock) : s.OpenAt a (i + 1) ↔
    s.OpenAt a i ∨ a = i ∧ ∃ kind, s.op? i = some (.openBlock kind) := by
  have hrise := rise_of_not_close h
  constructor
  · intro hopen
    have hbefore := hopen.before
    by_cases ha : a = i
    · subst ha
      exact Or.inr ⟨rfl, hopen.opens⟩
    · exact Or.inl ⟨hopen.opens, by omega, fun j hj hji => hopen.above j hj (by omega)⟩
  · rintro (hopen | ⟨rfl, kind, hkind⟩)
    · refine ⟨hopen.opens, Nat.lt_succ_of_lt hopen.before, fun j hj hji => ?_⟩
      have hi := hopen.above i hopen.before (Nat.le_refl i)
      by_cases hji' : j = i + 1
      · subst hji'
        rw [depth_succ]
        omega
      · exact hopen.above j hj (by omega)
    · refine ⟨⟨kind, hkind⟩, Nat.lt_succ_self a, fun j hj hji => ?_⟩
      obtain rfl : j = a + 1 := by omega
      rw [depth_succ, hkind, rise]
      omega

/-- An end leaves those blocks open that lie deeper than what it leaves. -/
theorem openAt_succ_of_close (h : s.op? i = some .closeBlock) :
    s.OpenAt a (i + 1) ↔ s.OpenAt a i ∧ s.depth a < s.depth (i + 1) := by
  constructor
  · intro hopen
    have hbefore := hopen.before
    have ha : a ≠ i := by
      rintro rfl
      obtain ⟨kind, hkind⟩ := hopen.opens
      rw [h] at hkind
      cases hkind
    exact ⟨⟨hopen.opens, by omega, fun j hj hji => hopen.above j hj (by omega)⟩,
      hopen.above _ hbefore (Nat.le_refl _)⟩
  · rintro ⟨hopen, hdepth⟩
    refine ⟨hopen.opens, Nat.lt_succ_of_lt hopen.before, fun j hj hji => ?_⟩
    by_cases hji' : j = i + 1
    · subst hji'
      exact hdepth
    · exact hopen.above j hj (by omega)

/-- The depths at which blocks were opened, the innermost first, fall by one down to zero. -/
def Levels (s : Outline) (i : Nat) : List Nat → Prop
  | [] => s.depth i = 0
  | a :: rest => s.depth a + 1 = s.depth i ∧ s.Levels a rest

/-- The blocks that are open before an action, the innermost first. -/
structure Nesting (s : Outline) (i : Nat) (opened : List Nat) : Prop where
  mem_iff (a : Nat) : a ∈ opened ↔ s.OpenAt a i
  sorted : opened.Pairwise (· > ·)
  levels : s.Levels i opened

theorem Levels.depth_eq (h : s.Levels i opened) : s.depth i = opened.length := by
  induction opened generalizing i with
  | nil => exact h
  | cons a rest ih =>
    rw [← h.1, ih h.2, List.length_cons]
    omega

theorem nesting_zero (s : Outline) : s.Nesting 0 [] := by
  refine ⟨fun a => ?_, .nil, rfl⟩
  constructor
  · intro ha
    cases ha
  · intro hopen
    exact absurd hopen.before (Nat.not_lt_zero a)

/-- An action that has to do with no block leaves the open blocks as they are. -/
theorem Nesting.skip (h : s.Nesting i opened) (hop : rise (s.op? i) = 0) : s.Nesting (i + 1) opened := by
  have hclose : s.op? i ≠ some .closeBlock := by
    intro heq
    rw [heq] at hop
    cases hop
  refine ⟨fun a => ?_, h.sorted, ?_⟩
  · rw [h.mem_iff, openAt_succ hclose]
    refine ⟨Or.inl, fun hopen => hopen.resolve_right ?_⟩
    rintro ⟨-, kind, hkind⟩
    rw [hkind] at hop
    cases hop
  · have hdepth : s.depth (i + 1) = s.depth i := by rw [depth_succ, hop, Int.add_zero]
    have hlevels := h.levels
    cases opened with
    | nil => exact hdepth.trans hlevels
    | cons a rest => exact ⟨hlevels.1.trans hdepth.symm, hlevels.2⟩

/-- An action that opens a block puts it inside the others. -/
theorem Nesting.push (h : s.Nesting i opened) (hop : s.op? i = some (.openBlock kind)) :
    s.Nesting (i + 1) (i :: opened) := by
  have hclose : s.op? i ≠ some .closeBlock := by
    rw [hop]
    intro heq
    cases heq
  refine ⟨fun a => ?_, List.pairwise_cons.mpr ⟨fun a ha => ?_, h.sorted⟩, ?_, h.levels⟩
  · rw [List.mem_cons, h.mem_iff, openAt_succ hclose]
    constructor
    · rintro (rfl | hopen)
      · exact Or.inr ⟨rfl, kind, hop⟩
      · exact Or.inl hopen
    · rintro (hopen | ⟨rfl, -⟩)
      · exact Or.inr hopen
      · exact Or.inl rfl
  · exact ((h.mem_iff a).mp ha).before
  · rw [depth_succ, hop, rise]

/-- An end closes the innermost block. -/
theorem Nesting.pop (h : s.Nesting i (a :: opened)) (hop : s.op? i = some .closeBlock) :
    s.Nesting (i + 1) opened ∧ s.Closes a i := by
  have hdepth : s.depth (i + 1) = s.depth a := by
    have htop := h.levels.1
    rw [depth_succ, hop, rise]
    omega
  have hsorted := List.pairwise_cons.mp h.sorted
  have ha : s.OpenAt a i := (h.mem_iff a).mp List.mem_cons_self
  have hclosed : ¬s.OpenAt a (i + 1) := by
    rw [openAt_succ_of_close hop]
    omega
  refine ⟨⟨fun b => ?_, hsorted.2, ?_⟩, hop, ha, hclosed⟩
  · constructor
    · intro hb
      have hopen := (h.mem_iff b).mp (List.mem_cons_of_mem a hb)
      rw [openAt_succ_of_close hop, hdepth]
      -- The outer block was open when the innermost one was opened.
      exact ⟨hopen, hopen.above a (hsorted.1 b hb) (Nat.le_of_lt ha.before)⟩
    · intro hopen
      have hb := (h.mem_iff b).mpr ((openAt_succ_of_close hop).mp hopen).1
      refine (List.mem_cons.mp hb).resolve_left ?_
      rintro rfl
      exact hclosed hopen
  · have hlevels := h.levels.2
    cases opened with
    | nil => exact hdepth.trans hlevels
    | cons b rest => exact ⟨hlevels.1.trans hdepth.symm, hlevels.2⟩

/-- An end closes at most one block. -/
theorem Nesting.closes_unique (h : s.Nesting i (a :: opened)) (hclose : s.Closes b i) : b = a := by
  have hb := (h.mem_iff b).mpr hclose.isOpen
  refine (List.mem_cons.mp hb).resolve_right fun hmem => ?_
  exact hclose.isClosed (((h.pop hclose.ends).1.mem_iff b).mp hmem)

theorem Nesting.stray_iff (h : s.Nesting i opened) (hop : s.op? i = some .closeBlock) :
    s.Stray i ↔ opened = [] := by
  rw [List.eq_nil_iff_forall_not_mem]
  constructor
  · intro hstray a ha
    exact hstray.2 a ((h.mem_iff a).mp ha)
  · intro hnil
    exact ⟨hop, fun a ha => hnil a ((h.mem_iff a).mpr ha)⟩

/-- Up to the first stray end, the open blocks are nested. -/
theorem exists_nesting (h : s.Reached i) : ∃ opened, s.Nesting i opened := by
  induction i with
  | zero => exact ⟨[], nesting_zero s⟩
  | succ i ih =>
    obtain ⟨opened, hnesting⟩ := ih fun b hb => h b (Nat.lt_succ_of_lt hb)
    rcases hop : s.op? i with - | op
    · exact ⟨opened, hnesting.skip (by rw [hop]; rfl)⟩
    · cases op with
      | openBlock kind => exact ⟨i :: opened, hnesting.push hop⟩
      | closeBlock =>
        cases opened with
        | nil => exact absurd ((hnesting.stray_iff hop).mpr rfl) (h i (Nat.lt_succ_self i))
        | cons a rest => exact ⟨rest, (hnesting.pop hop).1⟩
      | _ => exact ⟨opened, hnesting.skip (by rw [hop]; rfl)⟩

/-- If an end is stray, there is a first one. -/
theorem exists_first_stray (h : s.Stray b) : ∃ c, s.Stray c ∧ s.Reached c := by
  classical
  have hexists : ∃ c, s.Stray c := ⟨b, h⟩
  exact ⟨Nat.find hexists, Nat.find_spec hexists, fun c hc => Nat.find_min hexists hc⟩

theorem Nesting.ncard (h : s.Nesting i opened) : {a | s.OpenAt a i}.ncard = opened.length := by
  have hset : {a | s.OpenAt a i} = (opened.toFinset : Set Nat) := by
    ext a
    rw [Set.mem_ofPred_eq, ← h.mem_iff, Finset.mem_coe, List.mem_toFinset]
  rw [hset, Set.ncard_coe_finset]
  exact List.toFinset_card_of_nodup (h.sorted.imp fun hab => Nat.ne_of_gt hab)

theorem Nesting.inLoop_iff (h : s.Nesting i opened) :
    (∃ a ∈ opened, ∃ kind, s.op? a = some (.openBlock kind) ∧ kind.isLoop = true) ↔ s.InLoop i := by
  constructor
  · rintro ⟨a, ha, kind, hop, hloop⟩
    exact ⟨a, kind, hop, hloop, (h.mem_iff a).mp ha⟩
  · rintro ⟨a, kind, hop, hloop, hopen⟩
    exact ⟨a, (h.mem_iff a).mpr hopen, kind, hop, hloop⟩

/-! ### Branches -/

theorem not_continuable_zero (s : Outline) : ¬s.Continuable 0 := by
  generalize hi : 0 = i
  intro h
  cases h <;> cases hi

/-- Only behind an end may a branch stand. -/
theorem not_continuable_succ (h : s.op? i ≠ some .closeBlock) : ¬s.Continuable (i + 1) := by
  generalize hj : i + 1 = j
  intro hcontinuable
  cases hcontinuable with
  | cond hop hclose =>
    cases hj
    exact h hclose.ends
  | elseCond hop ha hclose =>
    cases hj
    exact h hclose.ends

/-- A block that a branch may continue. -/
def IsBranch (s : Outline) (a : Nat) : Prop :=
  s.op? a = some (.openBlock .cond) ∨ s.op? a = some (.openBlock .elseCond) ∧ s.Continuable a

/-- Behind an end, a branch may stand if the block that was closed is one that it may continue. -/
theorem Nesting.continuable_iff (h : s.Nesting i (a :: opened)) (hop : s.op? i = some .closeBlock) :
    s.Continuable (i + 1) ↔ s.IsBranch a := by
  have hclose := (h.pop hop).2
  constructor
  · generalize hj : i + 1 = j
    intro hcontinuable
    cases hcontinuable with
    | cond hcond hclose' =>
      cases hj
      obtain rfl := h.closes_unique hclose'
      exact Or.inl hcond
    | elseCond helse ha hclose' =>
      cases hj
      obtain rfl := h.closes_unique hclose'
      exact Or.inr ⟨helse, ha⟩
  · rintro (hcond | ⟨helse, ha⟩)
    · exact .cond hcond hclose
    · exact .elseCond helse ha hclose

/-! ### Balanced actions -/

theorem depth_cons (d? : Option PrimitiveDef) (s : Outline) (i : Nat) :
    depth (d? :: s) (i + 1) = rise (d?.map PrimitiveDef.op) + s.depth i := by
  induction i with
  | zero =>
    show 0 + rise _ = rise _ + 0
    rw [Int.zero_add, Int.add_zero]
    rfl
  | succ i ih =>
    rw [depth_succ, ih, depth_succ, Int.add_assoc]
    rfl

theorem depth_nil (i : Nat) : depth [] i = 0 := by
  induction i with
  | zero => rfl
  | succ i ih =>
    rw [depth_succ, ih]
    rfl

theorem depth_append_left (q : Outline) (h : i ≤ s.length) : depth (s ++ q) i = s.depth i := by
  induction s generalizing i with
  | nil =>
    obtain rfl : i = 0 := by simpa using h
    rfl
  | cons d? s ih =>
    cases i with
    | zero => rfl
    | succ i => rw [List.cons_append, depth_cons, depth_cons, ih (Nat.le_of_succ_le_succ h)]

theorem depth_append_right (s q : Outline) (i : Nat) :
    depth (s ++ q) (s.length + i) = s.depth s.length + q.depth i := by
  induction s with
  | nil => simp [depth]
  | cons d? s ih =>
    rw [List.cons_append, List.length_cons, Nat.add_right_comm, depth_cons, depth_cons, ih,
      Int.add_assoc]

/-- Balanced actions never close more than they open, and close as much in the end. -/
theorem Balanced.depth (h : Balanced s) : (∀ i, 0 ≤ s.depth i) ∧ s.depth s.length = 0 := by
  induction h with
  | nil =>
    refine ⟨fun i => ?_, rfl⟩
    rw [depth_nil]
  | skip hd hrest ih =>
    refine ⟨fun i => ?_, ?_⟩
    · cases i with
      | zero => exact Int.le_refl 0
      | succ i =>
        rw [depth_cons, hd, Int.zero_add]
        exact ih.1 i
    · rw [List.length_cons, depth_cons, hd, Int.zero_add]
      exact ih.2
  | @block head last kind inner rest hhead hlast hinner hrest ihinner ihrest =>
    have hopen (i : Nat) : Outline.depth (some head :: inner) (i + 1) = 1 + Outline.depth inner i := by
      rw [depth_cons, Option.map_some, hhead, rise]
    have hclose (i : Nat) : Outline.depth (some last :: rest) (i + 1) = -1 + Outline.depth rest i := by
      rw [depth_cons, Option.map_some, hlast, rise]
    refine ⟨fun i => ?_, ?_⟩
    · by_cases hi : i ≤ (some head :: inner).length
      · rw [depth_append_left _ hi]
        cases i with
        | zero => exact Int.le_refl 0
        | succ i =>
          have := ihinner.1 i
          rw [hopen]
          omega
      · obtain ⟨j, rfl⟩ : ∃ j, i = (some head :: inner).length + (j + 1) :=
          ⟨i - (some head :: inner).length - 1, by omega⟩
        have := ihrest.1 j
        rw [depth_append_right, List.length_cons, hopen, hclose, ihinner.2]
        omega
    · rw [List.length_append, depth_append_right, List.length_cons, hopen, List.length_cons, hclose,
        ihinner.2, ihrest.2]
      omega

/-- Actions that close a number of blocks opened before them, and are balanced otherwise. -/
def Closing : Nat → Outline → Prop
  | 0, s => Balanced s
  | k + 1, s => ∃ first last rest, last.op = .closeBlock ∧ Balanced first ∧ Closing k rest ∧
      s = first ++ some last :: rest

theorem Closing.skip {d? : Option PrimitiveDef} {k : Nat} (hd : rise (d?.map PrimitiveDef.op) = 0)
    (h : Closing k s) : Closing k (d? :: s) := by
  cases k with
  | zero => exact Balanced.skip hd h
  | succ k =>
    obtain ⟨first, last, rest, hlast, hfirst, hrest, rfl⟩ := h
    exact ⟨d? :: first, last, rest, hlast, .skip hd hfirst, hrest, rfl⟩

theorem Closing.block {head : PrimitiveDef} {k : Nat} (hhead : head.op = .openBlock kind)
    (h : Closing (k + 1) s) : Closing k (some head :: s) := by
  obtain ⟨inner, last, rest, hlast, hinner, hrest, rfl⟩ := h
  cases k with
  | zero => exact Balanced.block hhead hlast hinner hrest
  | succ k =>
    obtain ⟨first, last', rest, hlast', hfirst, hrest, rfl⟩ := hrest
    refine ⟨some head :: inner ++ some last :: first, last', rest, hlast',
      .block hhead hlast hinner hfirst, hrest, ?_⟩
    simp

theorem closing_of_depth {k : Nat} (hdepth : ∀ i, 0 ≤ k + s.depth i)
    (hlength : k + s.depth s.length = 0) : Closing k s := by
  induction s generalizing k with
  | nil =>
    obtain rfl : k = 0 := by
      rw [depth_nil] at hlength
      omega
    exact Balanced.nil
  | cons d? s ih =>
    have hrest (i : Nat) := hdepth (i + 1)
    simp only [depth_cons] at hrest
    rw [List.length_cons, depth_cons] at hlength
    have hskip (hd : rise (d?.map PrimitiveDef.op) = 0) : Closing k (d? :: s) := by
      rw [hd, Int.zero_add] at hlength
      simp only [hd, Int.zero_add] at hrest
      exact (ih hrest hlength).skip hd
    rcases d? with - | d
    · exact hskip rfl
    · cases hop : d.op with
      | openBlock kind =>
        simp only [Option.map_some, hop, rise] at hrest hlength
        refine Closing.block hop (ih (fun i => ?_) ?_)
        · have := hrest i
          omega
        · omega
      | closeBlock =>
        simp only [Option.map_some, hop, rise] at hrest hlength
        have hzero := hrest 0
        rw [Outline.depth] at hzero
        obtain ⟨k, rfl⟩ : ∃ n, k = n + 1 := ⟨k - 1, by omega⟩
        refine ⟨[], d, s, hop, .nil, ih (fun i => ?_) ?_, rfl⟩
        · have := hrest i
          omega
        · omega
      | _ => exact hskip (by rw [Option.map_some, hop]; rfl)

/-- Actions are balanced if no end is stray and no block is open behind them. -/
theorem balanced_iff : Balanced s ↔ (∀ b, ¬s.Stray b) ∧ ∀ a, ¬s.OpenAt a s.length := by
  constructor
  · intro h
    have hstray : ∀ b, ¬s.Stray b := by
      intro b
      induction b using Nat.strong_induction_on with
      | _ b ih =>
        intro hstray
        obtain ⟨opened, hnesting⟩ := exists_nesting ih
        have hdepth := hnesting.levels.depth_eq
        rw [(hnesting.stray_iff hstray.1).mp hstray] at hdepth
        have hnonneg := h.depth.1 (b + 1)
        rw [depth_succ, hstray.1, hdepth] at hnonneg
        cases hnonneg
    obtain ⟨opened, hnesting⟩ := exists_nesting (i := s.length) fun b _ => hstray b
    have hlength := hnesting.levels.depth_eq
    rw [h.depth.2] at hlength
    obtain rfl : opened = [] := List.eq_nil_of_length_eq_zero (by omega)
    exact ⟨hstray, fun a ha => by cases (hnesting.mem_iff a).mpr ha⟩
  · rintro ⟨hstray, hopen⟩
    have hdepth (i : Nat) : ∃ opened, s.Nesting i opened := exists_nesting fun b _ => hstray b
    refine closing_of_depth (k := 0) (fun i => ?_) ?_
    · obtain ⟨opened, hnesting⟩ := hdepth i
      rw [hnesting.levels.depth_eq]
      omega
    · obtain ⟨opened, hnesting⟩ := hdepth s.length
      have hnil : opened = [] := List.eq_nil_iff_forall_not_mem.mpr fun a ha =>
        hopen a ((hnesting.mem_iff a).mp ha)
      rw [hnesting.levels.depth_eq, hnil]
      rfl

end Outline

end TriggerCompiler
