import TriggerCompiler.Proofs.Preparation

/-! The addresses of a program. They can be given out exactly if no name of a method and no label stands
twice, and filled in exactly if every jump and every variable that holds a label finds its address. -/

namespace TriggerCompiler

variable {methods : List Method} {known : AddressMap} {l : String}

namespace Layout

theorem map_fst_codeLabels (start : Nat) (code : List Instruction) :
    (codeLabels start code).map Prod.fst = placedIn code := by
  induction code generalizing start with
  | nil => rfl
  | cons i code ih =>
    rw [codeLabels, placedIn, List.filterMap_cons]
    cases i.placedLabel? with
    | none => exact ih _
    | some l => exact congrArg (l :: ·) (ih _)

/-- The names that get addresses: those of the methods and the labels in them. -/
theorem perm_methodLabels (start : Nat) (methods : List Method) :
    ((methodLabels start methods).map Prod.fst).Perm
      (methods.map Method.name ++ methods.flatMap fun m => placedIn m.code) := by
  induction methods generalizing start with
  | nil => exact .refl _
  | cons m rest ih =>
    rw [methodLabels, List.cons_append, List.map_cons, List.map_append, map_fst_codeLabels,
      List.map_cons, List.flatMap_cons, List.cons_append]
    refine .cons _ ?_
    refine (List.Perm.append_left _ (ih _)).trans ?_
    rw [← List.append_assoc, ← List.append_assoc]
    exact List.perm_append_comm.append_right _

theorem firstRepeated_eq_none {seen l : List String} :
    firstRepeated seen l = none ↔ l.Nodup ∧ ∀ s ∈ l, s ∉ seen := by
  induction l generalizing seen with
  | nil => simp [firstRepeated]
  | cons s l ih =>
    rw [firstRepeated]
    by_cases hs : s ∈ seen
    · rw [if_pos hs]
      exact ⟨nofun, fun h => absurd hs (h.2 s List.mem_cons_self)⟩
    · rw [if_neg hs, ih, List.nodup_cons]
      constructor
      · rintro ⟨hnodup, hseen⟩
        refine ⟨⟨fun hmem => hseen s hmem List.mem_cons_self, hnodup⟩, fun x hx => ?_⟩
        rcases List.mem_cons.mp hx with rfl | hx
        · exact hs
        · exact fun hmem => hseen x hx (List.mem_cons_of_mem _ hmem)
      · rintro ⟨⟨hnot, hnodup⟩, hseen⟩
        refine ⟨hnodup, fun x hx hmem => ?_⟩
        rcases List.mem_cons.mp hmem with rfl | hmem
        · exact hnot hx
        · exact hseen x (List.mem_cons_of_mem _ hx) hmem

theorem addresses_of_nodup
    (h : ((methodLabels 0 methods).map Prod.fst).Nodup) :
    addresses methods =
      .ok ((methodLabels 0 methods).map fun e => (e.1, UInt32.ofNat e.2)) := by
  rw [addresses, firstRepeated_eq_none.mpr ⟨h, fun _ _ => List.not_mem_nil⟩]

theorem lookup_isSome :
    (known.lookup l).isSome = true ↔ l ∈ known.map Prod.fst := by
  induction known with
  | nil => simp
  | cons e known ih =>
    obtain ⟨name, a⟩ := e
    rw [List.lookup_cons, List.map_cons, List.mem_cons]
    cases hname : l == name with
    | true => simp [beq_iff_eq.mp hname]
    | false =>
      rw [ih]
      simp [beq_eq_false_iff_ne.mp hname]

/-- The names with addresses are those of the methods and the labels in them. -/
theorem mem_of_addresses
    (h : addresses methods = .ok known) :
    (known.lookup l).isSome = true ↔
      l ∈ methods.map Method.name ∨ ∃ m ∈ methods, l ∈ placedIn m.code := by
  rw [addresses] at h
  split at h
  · cases h
  · cases h
    rw [lookup_isSome, List.map_map]
    refine ((perm_methodLabels 0 methods).mem_iff (a := l)).trans ?_
    rw [List.mem_append, List.mem_flatMap]

end Layout

namespace MethodTable

theorem run_resolveAddresses (t : MethodTable) :
    resolveAddresses.run t = match Layout.addresses t.toList with
      | .error failure => (.error failure, t)
      | .ok known => match (resolveJumps known t.names).run t with
        | (.ok (), t') => (.ok known, t')
        | (.error failure, t') => (.error failure, t') := by
  rw [resolveAddresses, Attempt.run_get_bind]
  cases Layout.addresses t.toList with
  | error failure => rfl
  | ok known =>
    show ((resolveJumps known t.names >>= fun _ => pure known : Attempt _ _)).run t = _
    rw [Attempt.run_bind]
    dsimp only
    rcases (resolveJumps known t.names).run t with ⟨result, t'⟩
    cases result with
    | ok _ => rfl
    | error failure => rfl

end MethodTable

namespace Program

variable {p p' : Program} {known : AddressMap}

/-- The variables among the given ones that hold a label hold one that has an address. -/
def KnowsDefaults (known : AddressMap) (ids : List VarId) (p : Program) : Prop :=
  ∀ id ∈ ids, ∀ v l, p.symbols.get? id = some v → v.default = .label l →
    (known.lookup l).isSome = true

/-- The labels that variables hold are replaced exactly if each has an address. -/
theorem resolveDefaults_isOk (ids : List VarId) (p : Program) :
    ((resolveDefaults known ids).run p).1 = .ok () ↔ KnowsDefaults known ids p := by
  induction ids generalizing p with
  | nil => exact iff_of_true rfl fun _ hid => by cases hid
  | cons id rest ih =>
    have hskip (hother : ∀ v l, p.symbols.get? id = some v → v.default ≠ .label l) :
        KnowsDefaults known rest p ↔ KnowsDefaults known (id :: rest) p := by
      constructor
      · intro h j hj v l hv hl
        rcases List.mem_cons.mp hj with rfl | hj
        · exact absurd hl (hother v l hv)
        · exact h j hj v l hv hl
      · exact fun h j hj => h j (List.mem_cons_of_mem _ hj)
    rw [resolveDefaults, Attempt.run_get_bind]
    cases hv : p.symbols.get? id with
    | none =>
      refine (ih p).trans (hskip fun v l hv' => ?_)
      rw [hv] at hv'
      cases hv'
    | some v =>
      have hplain (hother : ∀ l, v.default ≠ .label l) :
          KnowsDefaults known rest p ↔ KnowsDefaults known (id :: rest) p :=
        hskip fun w l hw => by
          rw [hv] at hw
          cases hw
          exact hother l
      rw [Option.map_some]
      cases hdefault : v.default with
      | label l =>
        dsimp only
        cases hknown : known.lookup l with
        | none =>
          refine iff_of_false nofun fun h => ?_
          have hl := h id List.mem_cons_self v l hv hdefault
          rw [hknown] at hl
          cases hl
        | some a =>
          refine (ih _).trans ⟨fun h j hj w l' hw hl' => ?_, fun h j hj w l' hw hl' => ?_⟩
          · by_cases hid : j = id
            · subst hid
              rw [hv] at hw
              cases hw
              rw [hdefault] at hl'
              cases hl'
              rw [hknown]
              rfl
            · refine h j ((List.mem_cons.mp hj).resolve_left hid) w l' ?_ hl'
              exact (p.symbols.get?_modifyVar id j _).trans (by rw [if_neg hid, hw])
          · replace hw := (p.symbols.get?_modifyVar id j _).symm.trans hw
            split at hw
            · obtain ⟨u, -, rfl⟩ := Option.map_eq_some_iff.mp hw
              cases hl'
            · exact h j (List.mem_cons_of_mem _ hj) w l' hw hl'
      | _ => exact (ih p).trans (hplain fun l hl => by rw [hdefault] at hl; cases hl)

theorem run_resolveAddresses (p : Program) :
    resolveAddresses.run p = match MethodTable.resolveAddresses.run p.methods with
      | (.ok known, methods) =>
          (resolveDefaults known p.symbols.vars.keys).run { p with methods }
      | (.error failure, methods) => (.error failure, { p with methods }) := by
  have hmethods : (resolveAddresses.onMethods MethodTable.resolveAddresses).run p =
      ((MethodTable.resolveAddresses.run p.methods).1,
        { p with methods := (MethodTable.resolveAddresses.run p.methods).2 }) := rfl
  rw [resolveAddresses, Attempt.run_bind, hmethods]
  rcases MethodTable.resolveAddresses.run p.methods with ⟨result, methods⟩
  cases result with
  | ok known => rfl
  | error failure => rfl

theorem run_finish (sync : SyncMethod) (settings : Settings) (p : Program) :
    (finish sync settings).run p = match resolveAddresses.run (p.prepare sync settings).2 with
      | (.ok (), q) => (.ok (p.prepare sync settings).1, q)
      | (.error failure, q) => (.error failure, q) := by
  rw [finish, Attempt.run_get_bind]
  dsimp only
  rw [Attempt.run_set_bind, Attempt.run_bind]
  rcases resolveAddresses.run (p.prepare sync settings).2 with ⟨result, q⟩
  cases result with
  | ok _ => rfl
  | error failure => rfl

/-- In a program that is finished, a label that a variable holds is a label or a method of the program, or
belongs to the start, the entry or the end of a method. -/
theorem label_of_finish {sync : SyncMethod} {settings : Settings} {report : FinishReport}
    (hsane : p.Sane) (h : (finish sync settings).run p = (.ok report, p')) {id : VarId} {v : Variable}
    (hv : p.symbols.get? id = some v) (hkind : v.kind ≠ .system)
    (hl : v.default = .label l) :
    l ∈ p.methods.placed ∨ p.methods.contains l = true ∨ l = startMethod ∨
      ∃ x, l = entryLabel x ∨ l = endLabel x := by
  have hkept := @Sane.get?_prepare p sync settings id v hsane hv hkind
  have hknows := @contains_prepare p l sync settings
  have hplaces := @mem_placed_prepare p sync settings hsane.consistent.toGrounded l
  rw [run_finish, run_resolveAddresses, MethodTable.run_resolveAddresses] at h
  generalize (p.prepare sync settings).2 = q at h hkept hknows hplaces
  cases haddresses : Layout.addresses q.methods.toList with
  | error failure =>
    rw [haddresses] at h
    cases h
  | ok known =>
    rw [haddresses] at h
    dsimp only at h
    rcases hjumps : (MethodTable.resolveJumps known q.methods.names).run q.methods with ⟨result, t⟩
    rw [hjumps] at h
    cases result with
    | error failure => cases h
    | ok _ =>
      dsimp only at h
      have hok : ((resolveDefaults known q.symbols.vars.keys).run
          { q with methods := t }).1 = .ok () := by
        rcases hrun : (resolveDefaults known q.symbols.vars.keys).run { q with methods := t } with
          ⟨result, r⟩
        rw [hrun] at h
        cases result with
        | error failure => cases h
        | ok _ => rfl
      have hknown := (resolveDefaults_isOk _ _).mp hok id ?_ v l hkept hl
      · rcases (Layout.mem_of_addresses haddresses).mp hknown with hname | ⟨m, hm, hplaced⟩
        · obtain ⟨m, hm, rfl⟩ := List.mem_map.mp hname
          rcases hknows (MethodTable.contains_of_mem hm) with hmethod | hstart
          · exact Or.inr (Or.inl hmethod)
          · exact Or.inr (Or.inr (Or.inl hstart))
        · have hmem : l ∈ q.methods.placed := MethodTable.mem_placed.mpr
            ⟨m.name, by rwa [MethodTable.codeOf_of_mem hm]⟩
          rcases hplaces hmem with hmem | hx
          · exact Or.inl hmem
          · exact Or.inr (Or.inr (Or.inr hx))
      · rw [OrderedMap.keys]
        exact List.mem_map_of_mem (f := Prod.fst) (OrderedMap.get?_eq_some_iff.mp hkept)

end Program

end TriggerCompiler
