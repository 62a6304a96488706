import TriggerCompiler.Proofs.ProgramSteps

/-! The heap along the steps of emission. The names of variables stay apart, whatever is requested and
merged in whatever order: a merge gives its variables a number that no name on the heap carries. -/

open Relation

namespace TriggerCompiler

/-- A context with the catalogue of every program in which the modules that the program uses have heaps
with proper names. -/
structure Context.Proper (ctx : Context) : Prop where
  catalogue : ctx.catalogue = .builtin
  uses {m : Linkable} : ctx.Uses m → m.Proper

namespace SymbolTable

variable {ctx : Context} {t t' : SymbolTable} {ordinal : Nat}

/-- With the events of every program, a change keeps the names apart and the variables in place. -/
theorem Change.apart (hcatalogue : ctx.catalogue = .builtin) (h : t.Change ctx t')
    (ha : t.Apart ordinal) : t'.Apart ordinal ∧ t.Extends t' := by
  -- Apart from constants and variables of blocks, a change is an edit for some source.
  have hedit {t' : SymbolTable} (h : t.Edit { Footprint.full with params := ctx.footprint.params } t') :
      t'.Apart ordinal ∧ t.Extends t' :=
    ⟨h.apart (by exact @Context.isVariableName_of_params ctx false {} hcatalogue) ha, (h.evolves ha.consistent).keeps⟩
  cases h with
  | constant type value => exact ⟨ha.constant type value, (yields_constant ha.consistent type value).keeps⟩
  | blockLocal name type =>
    have hyields := yields_declareLocal ha.consistent name type
    have hgrown : Grown (fun v => v.kind = .blockLocal) t (t.declareLocal name type).2 :=
      grown_insert (t := t.countUp) ha.consistent.countUp rfl
    exact ⟨ha.of_grown hyields.consistent (ha.proper.declareLocal ha.consistent name type) hgrown
      fun v hv => by simp [hv], hyields.keeps⟩
  | declared hname h => exact hedit (.declared trivial hname h)
  | watched hname h => exact hedit (.watched trivial hname h)
  | literal position type value => exact hedit (.literal trivial)
  | system which => exact hedit (.system which)
  | boundLocal guid name type => exact hedit (.boundLocal trivial type)
  | parameter name type guid hevent hstart =>
    exact hedit (.parameter (p := ⟨guid, name, type, false⟩) trivial hevent hstart)
  | eventParam guid hd hspec => exact hedit (.eventParam guid ⟨_, _, hd, hspec⟩)
  | replayCounter event => exact hedit (.replayCounter event)
  | replayedCounter event => exact hedit (.replayedCounter event)
  | leased type => exact hedit (.leased type)
  | released id => exact hedit (.released id)
  | unbound id => exact hedit (.unbound trivial id)
  | shadowed hv hwatched => exact hedit (.shadowed hv hwatched)

end SymbolTable

/-- A merge only appends code. -/
theorem Linker.continues_mergeOwn (m : Linkable) (includeHooks : Bool) (aliases : List Renaming.Alias)
    (s : Linkage) :
    s.program.methods.Continues ((mergeOwn m includeHooks aliases).run s).2.program.methods := by
  rcases run_mergeOwn m includeHooks aliases s with ⟨failure, -, hrun⟩ | ⟨-, hrun⟩
  · rw [hrun]
    exact .refl _
  · rw [hrun]
    obtain ⟨added, hadded⟩ := (keeps_addModule m ((s.linker.instances.get? m.key).getD []) s.program
      (Renaming.build m ⟨mergedPrefix s.linker.nextOrdinal, includeHooks, aliases⟩)).methods
    show s.program.methods.Continues (addModule _ _ _ _).program.methods
    rw [hadded]
    exact MethodTable.continues_foldl_merge added _

namespace Emission

variable {ctx : Context} {tracked : Bool} {e e' : Emission}

/-- The names on the heap are apart. -/
def Apart (e : Emission) : Prop := e.program.symbols.Apart e.linker.nextOrdinal

theorem Advance.evolves (h : Advance ctx tracked e e') (hc : e.program.symbols.Consistent) :
    e.Evolves e' := by
  cases h with
  | altered h => exact h.evolves hc
  | merged aliases _ =>
    exact .of_heap (Linker.spares_mergeOwn _ _ aliases e.linkage hc).toEvolves rfl rfl

theorem Advances.evolves (h : Advances ctx tracked e e') (hc : e.program.symbols.Consistent) :
    e.Evolves e' :=
  h.keeps (P := e.Evolves) (fun _ _ hstep he => he.trans (hstep.evolves he.heap.consistent)) (.refl hc)

theorem Step.apart (h : Step ctx e e') (hctx : ctx.Proper) (ha : e.Apart) :
    e'.Apart ∧ e.program.symbols.Extends e'.program.symbols := by
  cases h with
  | symbols h => exact h.apart hctx.catalogue ha
  | merged aliases hm =>
    exact ⟨Linker.apart_mergeOwn (s := e.linkage) (hctx.uses hm) ha _ aliases,
      (Linker.spares_mergeOwn _ _ aliases e.linkage ha.consistent).keeps⟩
  | _ => exact ⟨ha, .refl _⟩

theorem Steps.apart (h : Steps ctx e e') (hctx : ctx.Proper) (ha : e.Apart) :
    e'.Apart ∧ e.program.symbols.Extends e'.program.symbols := by
  induction h with
  | refl => exact ⟨ha, .refl _⟩
  | tail _ hlast ih =>
    obtain ⟨hlast, hgrows⟩ := hlast.apart hctx ih.1
    exact ⟨hlast, ih.2.trans hgrows⟩

theorem Advances.apart (h : SourceSteps ctx e e') (hctx : ctx.Proper) (ha : e.Apart) :
    e'.Apart ∧ e.program.symbols.Extends e'.program.symbols := h.steps.apart hctx ha

/-- A literal, and a variable that the program makes for itself, is an older one or is made by a
request: a merge adds no such variable. -/
theorem Advance.made (h : SourceStep ctx e e') (hctx : ctx.Proper) (ha : e.Apart) {id : VarId} {v : Variable}
    (hv : e'.program.symbols.get? id = some v) (hkind : v.kind = .internal ∨ v.kind = .literal) :
    (∃ w, e.program.symbols.get? id = some w ∧ w.Same v) ∨
      v.IsMade (ctx.tracking false e.linker) e.program.symbols := by
  have hold (hv : e.program.symbols.get? id = some v) :
      ∃ w, e.program.symbols.get? id = some w ∧ w.Same v := ⟨v, hv, rfl, rfl, rfl, rfl⟩
  cases h with
  | altered h =>
    cases h with
    | pooled type value =>
      rcases SymbolTable.grown_constant ha.consistent type value hv with
        ⟨w, hw, hsame, -⟩ | ⟨-, hnew⟩
      · exact Or.inl ⟨w, hw, hsame⟩
      · simp [hnew] at hkind
    | edited h =>
      rcases h.made ha.consistent hv with ⟨w, hw, hsame, -⟩ | ⟨-, hnew⟩
      · exact Or.inl ⟨w, hw, hsame⟩
      · exact Or.inr hnew
    | _ => exact Or.inl (hold hv)
  | @merged m aliases hm =>
    left
    rcases Linker.run_mergeOwn m ctx.settings.includeEventHooks aliases e.linkage with
      ⟨failure, -, hrun⟩ | ⟨-, hrun⟩
    · rw [hrun] at hv
      exact hold hv
    · rw [hrun] at hv
      have hout := Linker.outcome_of_apart (s := e.linkage) (hctx.uses hm.uses) ha
        ctx.settings.includeEventHooks aliases ((e.linker.instances.get? m.key).getD [])
      rcases hout.adding.imported.new hv with hv | ⟨-, himport⟩
      · exact hold hv
      · cases himport with
        | copied _ _ _ hcopied _ _ _ _ => simp [hcopied] at hkind
        | constant _ _ hconstant => simp [hconstant.kind] at hkind
        | system which => simp [SystemVariable.toVariable] at hkind
        | eventParam _ _ => simp at hkind

theorem apart_start (source : ProgramSource) : (Emission.start source).Apart :=
  SymbolTable.apart_empty _

/-! ### Steps that keep track of names -/

/-- The outcome of a merge in a usual context. -/
theorem Named.outcome (h : e.Named) (hsane : ctx.Sane) {m : Linkable}
    (hm : ctx.modules.get? m.key = some m) (includeHooks : Bool) (aliases : List Renaming.Alias)
    (instances : List Guid) :
    Linker.Outcome m ⟨mergedPrefix e.linker.nextOrdinal, includeHooks, aliases⟩ instances e.program
      (Linker.addModule m instances e.program (Renaming.build m
        ⟨mergedPrefix e.linker.nextOrdinal, includeHooks, aliases⟩)) :=
  Linker.outcome_of_apart (s := e.linkage) (hsane.heap hm) h.toApart includeHooks aliases instances

/-- Without an error, a step only appends code. -/
theorem Advance.methods (h : Move ctx e e') (he : e.hasErrors = false) :
    e.program.methods.Continues e'.program.methods := by
  cases h with
  | altered h => exact h.methods rfl he
  | merged _ _ _ => exact Linker.continues_mergeOwn _ _ _ e.linkage

theorem Advances.methods (h : Moves ctx e e') (he : e'.hasErrors = false) :
    e.program.methods.Continues e'.program.methods := by
  induction h with
  | refl => exact .refl _
  | @tail mid last _ hlast ih =>
    have hmid : mid.hasErrors = false := (Advances.of_step hlast).noErrors he
    exact (ih hmid).trans (Advance.methods hlast hmid)

theorem Advance.nextOrdinal_le (h : Advance ctx tracked e e') :
    e.linker.nextOrdinal ≤ e'.linker.nextOrdinal := by
  cases h with
  | altered h => exact Nat.le_of_eq (by rw [Stays.linker (.of_step h)])
  | @merged m aliases _ _ =>
    rcases Linker.run_mergeOwn m ctx.settings.includeEventHooks aliases e.linkage with
      ⟨failure, -, hrun⟩ | ⟨-, hrun⟩
    · rw [hrun]
      exact Nat.le_refl _
    · rw [hrun]
      exact Nat.le_succ _

theorem Advances.nextOrdinal_le (h : Advances ctx tracked e e') :
    e.linker.nextOrdinal ≤ e'.linker.nextOrdinal := by
  induction h with
  | refl => exact Nat.le_refl _
  | tail _ hlast ih => exact Nat.le_trans ih hlast.nextOrdinal_le

end Emission

end TriggerCompiler
