import TriggerCompiler.Machine.Bytecode
import TriggerCompiler.Proofs.FilledAddresses

/-! The addresses of a program are offsets into its code. The addresses are sums of the declared sizes of
instructions; the encoder writes the instructions one by one and adds up the sizes of methods again for
the exported ones. An instruction is written in as many bytes as it declares, so the three counts agree. -/

namespace TriggerCompiler

/-! ### Positions of labels -/

variable {code : List Instruction} {methods : List Method}

namespace Layout

theorem mem_codeLabels (start : Nat) {k : Nat} {l : String} (h : code[k]? = some (.label l)) :
    (l, start + codeSize (code.take (k + 1))) ∈ codeLabels start code := by
  induction code generalizing start k with
  | nil => cases h
  | cons i code ih =>
    rw [codeLabels, List.take_succ_cons, codeSize_cons, ← Nat.add_assoc]
    cases k with
    | zero =>
      cases h
      exact List.mem_cons_self
    | succ k =>
      have hrest := ih (start + i.size) h
      cases i.placedLabel? with
      | none => exact hrest
      | some l' => exact List.mem_cons_of_mem _ hrest

theorem mem_methodLabels_name (start : Nat) (before after : List Method) (m : Method) :
    (m.name, start + codeSize (before.flatMap Method.code)) ∈
      methodLabels start (before ++ m :: after) := by
  induction before generalizing start with
  | nil => exact List.mem_cons_self
  | cons m' before ih =>
    rw [List.cons_append, methodLabels, List.flatMap_cons, codeSize_append, ← Nat.add_assoc]
    exact List.mem_append_right _ (ih _)

/-- A label stands behind the instructions up to it. -/
theorem mem_methodLabels_label (start : Nat) {k : Nat} {l : String}
    (h : (methods.flatMap Method.code)[k]? = some (.label l)) :
    (l, start + codeSize ((methods.flatMap Method.code).take (k + 1))) ∈
      methodLabels start methods := by
  induction methods generalizing start k with
  | nil => cases h
  | cons m methods ih =>
    rw [List.flatMap_cons] at h ⊢
    rw [methodLabels, List.cons_append]
    refine List.mem_cons_of_mem _ (List.mem_append.mpr ?_)
    by_cases hk : k < m.code.length
    · left
      rw [List.getElem?_append_left hk] at h
      rw [List.take_append_of_le_length hk]
      exact mem_codeLabels start h
    · right
      rw [List.getElem?_append_right (by omega)] at h
      have hrest := ih (start + m.size) h
      rw [Nat.add_assoc, show m.size = codeSize m.code from rfl, ← codeSize_append] at hrest
      have htake : (m.code ++ methods.flatMap Method.code).take (k + 1) =
          m.code ++ (methods.flatMap Method.code).take (k - m.code.length + 1) := by
        rw [List.take_append, List.take_of_length_le (by omega)]
        congr 2
        omega
      rwa [htake]

theorem lookup_eq_some_of_mem {known : AddressMap} (hnodup : (known.map Prod.fst).Nodup) {l : String}
    {a : UInt32} (h : (l, a) ∈ known) : known.lookup l = some a := by
  induction known with
  | nil => cases h
  | cons e known ih =>
    obtain ⟨l', a'⟩ := e
    rw [List.map_cons, List.nodup_cons] at hnodup
    rw [List.lookup_cons]
    rcases List.mem_cons.mp h with heq | hmem
    · cases heq
      simp
    · have hne : l ≠ l' := by
        rintro rfl
        exact hnodup.1 (List.mem_map.mpr ⟨_, hmem, rfl⟩)
      rw [beq_eq_false_iff_ne.mpr hne]
      exact ih hnodup.2 hmem

end Layout

namespace Program

variable {p : Program} {l : String} {k : Nat}

/-- A name or a label stands behind the first instructions of a program: the name of a method behind
the methods before it, a label behind the instructions up to it. -/
inductive StandsBehind (p : Program) : String → Nat → Prop
  | method {before after : List Method} {m : Method} (h : p.methods.toList = before ++ m :: after) :
      StandsBehind p m.name (before.flatMap Method.code).length
  | label {l : String} {k : Nat} (h : p.code[k]? = some (.label l)) : StandsBehind p l (k + 1)

theorem mem_labelNames_iff : l ∈ p.labelNames ↔ ∃ k, p.StandsBehind l k := by
  rw [labelNames, List.mem_append, ← map_name_toList, List.mem_map, mem_placedIn,
    List.mem_iff_getElem?]
  constructor
  · rintro (⟨m, hm, rfl⟩ | ⟨k, hk⟩)
    · obtain ⟨before, after, hsplit⟩ := List.append_of_mem hm
      exact ⟨_, .method hsplit⟩
    · exact ⟨k + 1, .label hk⟩
  · rintro ⟨k, hmethod | hlabel⟩
    · rename_i before after m
      exact Or.inl ⟨m, by rw [hmethod]; simp, rfl⟩
    · exact Or.inr ⟨_, hlabel⟩

theorem StandsBehind.mem (h : p.StandsBehind l k) :
    (l, codeSize (p.code.take k)) ∈ Layout.methodLabels 0 p.methods.toList := by
  cases h with
  | @method before after m h =>
    have hname := Layout.mem_methodLabels_name 0 before after m
    have htake : p.code.take (before.flatMap Method.code).length = before.flatMap Method.code := by
      rw [code, h, List.flatMap_append, List.take_left]
    rwa [htake, h, ← Nat.zero_add (codeSize _)]
  | label h =>
    have hlabel := Layout.mem_methodLabels_label 0 h
    rwa [Nat.zero_add] at hlabel

/-- The address of a name is the size of the code that it stands behind. -/
theorem StandsBehind.addressOf (h : p.StandsBehind l k) (hnodup : p.labelNames.Nodup)
    (hsize : codeSize p.code < 2 ^ 32) :
    (p.layout.addressOf l).toNat = codeSize (p.code.take k) := by
  have hkeys : (p.layout.map Prod.fst).Nodup := by
    rw [layout, List.map_map]
    exact p.perm_labelNames.nodup_iff.mpr hnodup
  have hmem : (l, UInt32.ofNat (codeSize (p.code.take k))) ∈ p.layout :=
    List.mem_map_of_mem (f := fun e : String × Nat => (e.1, UInt32.ofNat e.2)) h.mem
  have hle : codeSize (p.code.take k) ≤ codeSize p.code := by
    conv_rhs => rw [← List.take_append_drop k p.code, codeSize_append]
    exact Nat.le_add_right _ _
  rw [AddressMap.addressOf, Layout.lookup_eq_some_of_mem hkeys hmem, Option.getD_some,
    UInt32.toNat_ofNat_of_lt' (Nat.lt_of_le_of_lt hle hsize)]

end Program

/-! ### Encoded instructions -/

variable {chunks : List (List UInt8)} {address : String → UInt32} {image : Image} {bytes : List UInt8}

namespace Bytecode

/-- The bytes of the instructions of an image, instruction by instruction. -/
def Encodes (image : Image) : List Instruction → List (List UInt8) → Prop :=
  List.Forall₂ fun i bytes => ∃ method, instruction ⟨image, signatures image.methods, method⟩ i = .ok bytes

/-- An instruction is written in as many bytes as it declares. -/
theorem length_instruction {f : Frame} {i : Instruction}
    (h : instruction f i = .ok bytes) : bytes.length = i.size := by
  cases i with
  | push s =>
    rw [instruction] at h
    cases hs : f.slotOf s with
    | error cause => rw [hs] at h; cases h
    | ok n => rw [hs] at h; cases h; rfl
  | jumpIndirect s =>
    rw [instruction] at h
    cases hs : f.slotOf s with
    | error cause => rw [hs] at h; cases h
    | ok n => rw [hs] at h; cases h; rfl
  | jump t =>
    rw [instruction] at h
    cases ht : f.addressOf t with
    | error cause => rw [ht] at h; cases h
    | ok a => rw [ht] at h; cases h; rfl
  | jumpIfFalse t =>
    rw [instruction] at h
    cases ht : f.addressOf t with
    | error cause => rw [ht] at h; cases h
    | ok a => rw [ht] at h; cases h; rfl
  | _ =>
    cases h
    rfl

theorem exists_encodes_of_code {method : String}
    (h : Bytecode.code ⟨image, signatures image.methods, method⟩ code = .ok bytes) :
    ∃ chunks, Encodes image code chunks ∧ bytes = chunks.flatten := by
  induction code generalizing bytes with
  | nil =>
    cases h
    exact ⟨[], .nil, rfl⟩
  | cons i code ih =>
    rw [Bytecode.code] at h
    cases hhead : instruction ⟨image, signatures image.methods, method⟩ i with
    | error cause => rw [hhead] at h; cases h
    | ok head =>
      cases htail : Bytecode.code ⟨image, signatures image.methods, method⟩ code with
      | error cause => rw [hhead, htail] at h; cases h
      | ok tail =>
        rw [hhead, htail] at h
        cases h
        obtain ⟨chunks, hchunks, rfl⟩ := ih htail
        exact ⟨head :: chunks, .cons ⟨method, hhead⟩ hchunks, rfl⟩

/-- The code of methods is the code of their instructions, one behind the other. -/
theorem exists_encodes (h : methodsCode image (signatures image.methods) methods = .ok bytes) :
    ∃ chunks, Encodes image (methods.flatMap Method.code) chunks ∧ bytes = chunks.flatten := by
  induction methods generalizing bytes with
  | nil =>
    cases h
    exact ⟨[], .nil, rfl⟩
  | cons m methods ih =>
    rw [methodsCode] at h
    cases hhead : code ⟨image, signatures image.methods, m.name⟩ m.code with
    | error cause => rw [hhead] at h; cases h
    | ok head =>
      cases htail : methodsCode image (signatures image.methods) methods with
      | error cause => rw [hhead, htail] at h; cases h
      | ok tail =>
        rw [hhead, htail] at h
        cases h
        obtain ⟨first, hfirst, rfl⟩ := exists_encodes_of_code hhead
        obtain ⟨rest, hrest, rfl⟩ := ih htail
        refine ⟨first ++ rest, ?_, List.flatten_append.symm⟩
        rw [List.flatMap_cons]
        exact List.rel_append hfirst hrest

theorem Encodes.length_flatten
    (h : Encodes image code chunks) : chunks.flatten.length = codeSize code := by
  induction h with
  | nil => rfl
  | cons hhead _ ih =>
    obtain ⟨method, hhead⟩ := hhead
    rw [List.flatten_cons, List.length_append, length_instruction hhead, codeSize_cons, ih]

theorem Encodes.take
    (h : Encodes image code chunks) (k : Nat) : Encodes image (code.take k) (chunks.take k) :=
  List.forall₂_take k h

/-- The exported methods stand in the table with the sizes of the methods before them. -/
theorem exportsFrom_eq {start : Nat} (h : ∀ before m after, methods = before ++ m :: after →
      (address m.name).toNat = start + codeSize (before.flatMap Method.code)) :
    exportsFrom start methods =
      (methods.filter Method.exported).map fun m => (m.name, (address m.name).toNat) := by
  induction methods generalizing start with
  | nil => rfl
  | cons m methods ih =>
    have hhead := h [] m methods rfl
    have htail : exportsFrom (start + m.size) methods =
        (methods.filter Method.exported).map fun m => (m.name, (address m.name).toNat) := by
      refine ih fun before m' after hsplit => ?_
      rw [h (m :: before) m' after (by rw [hsplit]; rfl), List.flatMap_cons, codeSize_append,
        Nat.add_assoc]
      rfl
    rw [exportsFrom, htail, List.filter_cons]
    cases m.exported with
    | false => rfl
    | true =>
      rw [if_pos rfl, if_pos rfl, List.map_cons, hhead]
      rfl

end Bytecode

/-- What an image that is encoded consists of. -/
theorem Image.assemble_eq_ok {heapSize : UInt32} {x : Executable}
    (h : image.assemble heapSize = .ok x) : x.heapSize = heapSize ∧
      ∃ chunks, Bytecode.Encodes image (image.methods.flatMap Method.code) chunks ∧
        x.bytes = Bytecode.preamble image ++ chunks.flatten := by
  rw [assemble] at h
  split at h
  · cases h
  · cases hcode : Bytecode.methodsCode image (Bytecode.signatures image.methods) image.methods with
    | error cause => rw [hcode] at h; cases h
    | ok bytes =>
      rw [hcode] at h
      cases h
      obtain ⟨chunks, hchunks, rfl⟩ := Bytecode.exists_encodes hcode
      exact ⟨rfl, chunks, hchunks, rfl⟩

namespace Program

variable {p : Program} {l : String} {k : Nat}

theorem methods_toList_fillIn (address : String → UInt32) (p : Program) :
    (p.fillIn address).methods.toList = p.methods.toList.map (Method.fillIn address) := by
  simp [MethodTable.toList, fillIn, OrderedMap.mapValues, MethodBody.fillIn, Method.fillIn]

theorem code_fillIn (address : String → UInt32) (p : Program) :
    (p.fillIn address).code = p.code.map (Instruction.fillIn address) := by
  rw [code, code, methods_toList_fillIn, List.flatMap_map, List.map_flatMap]
  rfl

/-- A method of the program with addresses stands where it stood before, behind code of the same size. -/
theorem StandsBehind.of_fillIn {before after : List Method} {m : Method}
    (h : (p.fillIn address).methods.toList = before ++ m :: after) :
    ∃ k, p.StandsBehind m.name k ∧ codeSize (before.flatMap Method.code) = codeSize (p.code.take k) := by
  rw [methods_toList_fillIn] at h
  obtain ⟨before', rest, hsplit, rfl, hrest⟩ := List.map_eq_append_iff.mp h
  obtain ⟨m', after', rfl, rfl, rfl⟩ := List.map_eq_cons_iff.mp hrest
  refine ⟨_, .method (m := m') hsplit, ?_⟩
  have hcode : (before'.map (Method.fillIn address)).flatMap Method.code =
      (before'.flatMap Method.code).map (Instruction.fillIn address) := by
    rw [List.flatMap_map, List.map_flatMap]
    rfl
  rw [hcode, codeSize_map_fillIn, code, hsplit, List.flatMap_append, List.take_left]

/-- The operand of a jump is the address of its label. -/
theorem encoded_jump {q : Program}
    (hq : q = p.fillIn address) (h : Bytecode.Encodes (Image.ofProgram q) q.code chunks)
    (hl : (p.code[k]?).bind Instruction.targetLabel? = some l) :
    ∃ opcode, chunks[k]? = some (Bytecode.word opcode ++ Bytecode.word (address l)) := by
  obtain ⟨i, hi, htarget⟩ := Option.bind_eq_some_iff.mp hl
  have hfilled : q.code[k]? = some (i.withAddress (address l)) := by
    rw [hq, code_fillIn, List.getElem?_map, hi, Option.map_some, Instruction.fillIn, htarget]
  obtain ⟨hk, hget⟩ := List.getElem?_eq_some_iff.mp hfilled
  have hk' : k < chunks.length := h.length_eq ▸ hk
  obtain ⟨method, hencoded⟩ := (List.forall₂_iff_get.mp h).2 k hk hk'
  rw [List.get_eq_getElem, List.get_eq_getElem, hget] at hencoded
  rw [List.getElem?_eq_getElem hk']
  generalize chunks[k] = bytes at hencoded
  cases i with
  | jump t =>
    cases t with
    | address a => cases htarget
    | label l' => cases hencoded; exact ⟨5, rfl⟩
  | jumpIfFalse t =>
    cases t with
    | address a => cases htarget
    | label l' => cases hencoded; exact ⟨4, rfl⟩
  | _ => cases htarget

/-- The addresses that are filled in are the offsets that the encoder gives. For a program of less than
2 ^ 32 bytes of code, addresses can be filled in exactly if the names of methods and the labels are
distinct and include every label in use. The program is then the one before with its labels replaced by
addresses. If it can be encoded, its code is written in as many bytes as announced, the address of every
name is the number of bytes in front of it, and so are the addresses of the exported methods. -/
theorem resolveAddresses_agrees (p : Program) (hsize : codeSize p.code < 2 ^ 32) :
    ((resolveAddresses.run p).1 = .ok () ↔
      p.labelNames.Nodup ∧ ∀ l ∈ p.labelUses, l ∈ p.labelNames) ∧
    ∀ q heapSize x, resolveAddresses.run p = (.ok (), q) →
      (Image.ofProgram q).assemble heapSize = .ok x →
      ∃ (address : String → UInt32) (chunks : List (List UInt8)),
        q = p.fillIn address ∧
        Bytecode.Encodes (Image.ofProgram q) q.code chunks ∧
        x.bytes = Bytecode.preamble (Image.ofProgram q) ++ chunks.flatten ∧
        (∃ front, Bytecode.preamble (Image.ofProgram q) =
          front ++ Bytecode.word (UInt32.ofNat chunks.flatten.length)) ∧
        chunks.flatten.length < 2 ^ 32 ∧
        (∀ l ∈ p.labelUses, ∃ k, p.StandsBehind l k) ∧
        (∀ l k, p.StandsBehind l k → (address l).toNat = (chunks.take k).flatten.length) ∧
        (∀ (k : Nat) l, (p.code[k]?).bind Instruction.targetLabel? = some l →
          ∃ opcode, chunks[k]? = some (Bytecode.word opcode ++ Bytecode.word (address l))) ∧
        Bytecode.exportsFrom 0 (Image.ofProgram q).methods =
          (p.methods.toList.filter Method.exported).map fun m =>
            (m.name, (address m.name).toNat) := by
  refine ⟨resolveAddresses_isOk p, fun q heapSize x hrun hencoded => ?_⟩
  obtain ⟨hnodup, huses⟩ := (resolveAddresses_isOk p).mp (congrArg Prod.fst hrun)
  rw [run_resolveAddresses_of_names hnodup huses] at hrun
  cases hrun
  obtain ⟨-, chunks, hchunks, hbytes⟩ := Image.assemble_eq_ok hencoded
  have hlength : chunks.flatten.length = codeSize p.code := by
    rw [hchunks.length_flatten]
    exact (congrArg codeSize (code_fillIn _ p)).trans (codeSize_map_fillIn _ _)
  have hoffset (k : Nat) : (chunks.take k).flatten.length = codeSize (p.code.take k) := by
    have htake : ((Image.ofProgram (p.fillIn p.layout.addressOf)).methods.flatMap Method.code).take k =
        (p.code.take k).map (Instruction.fillIn p.layout.addressOf) :=
      (congrArg (List.take k) (code_fillIn _ p)).trans (List.map_take).symm
    rw [(hchunks.take k).length_flatten, htake, codeSize_map_fillIn]
  refine ⟨p.layout.addressOf, chunks, rfl, hchunks, hbytes, ?_, hlength ▸ hsize,
    fun l hl => mem_labelNames_iff.mp (huses l hl), fun l k h => ?_, fun k l => encoded_jump rfl hchunks, ?_⟩
  · rw [hchunks.length_flatten, ← sum_map_size]
    exact ⟨_, rfl⟩
  · rw [hoffset, h.addressOf hnodup hsize]
  · have hstart (before : List Method) (m : Method) (after : List Method)
        (hsplit : (p.fillIn p.layout.addressOf).methods.toList = before ++ m :: after) :
        (p.layout.addressOf m.name).toNat = 0 + codeSize (before.flatMap Method.code) := by
      obtain ⟨k, hstands, hbefore⟩ := StandsBehind.of_fillIn hsplit
      rw [hstands.addressOf hnodup hsize, hbefore, Nat.zero_add]
    refine (Bytecode.exportsFrom_eq hstart).trans ?_
    rw [methods_toList_fillIn, List.filter_map, List.map_map]
    rfl

/-- A jump over the end of a method to a label behind code without size, and a variable that holds the
label. -/
def sampleJump : Program where
  symbols := ((({} : SymbolTable).declareInternal "x" .int (.int 0)).2.labelConstant "there").2
  methods :=
    ((({} : MethodTable).emit "first" [.nop, .push "x", .jumpTo "there"]).emit "second"
      [.comment "no size", .pop, .label "there"]).setExported "second" true

/-- The label stands behind 4 + 8 + 8 bytes of the first method and 4 bytes of the second one, which is
exported with its address 20. -/
theorem resolveAddresses_agrees_sampleJump :
    ∃ q x, resolveAddresses.run sampleJump = (.ok (), q) ∧
      (Image.ofProgram q).assemble 2 = .ok x ∧
      ∃ (address : String → UInt32) (chunks : List (List UInt8)),
        q = sampleJump.fillIn address ∧ address "there" = 24 ∧
        (chunks.take 6).flatten.length = 24 ∧
        (∃ opcode, chunks[2]? = some (Bytecode.word opcode ++ Bytecode.word 24)) ∧
        Bytecode.exportsFrom 0 (Image.ofProgram q).methods = [("second", 20)] := by
  have hok : (resolveAddresses.run sampleJump).1 = .ok () := by decide +kernel
  have hrun := Attempt.run_eq_of_fst hok
  have hencodes : ((Image.ofProgram (resolveAddresses.run sampleJump).2).assemble 2).toOption.isSome =
      true := by decide +kernel
  have hjump : (resolveAddresses.run sampleJump).2.code[2]? = some (.jump (.address 24)) := by
    decide +kernel
  have hexports : Bytecode.exportsFrom 0
      (Image.ofProgram (resolveAddresses.run sampleJump).2).methods = [("second", 20)] := by
    decide +kernel
  generalize (resolveAddresses.run sampleJump).2 = q at hrun hencodes hjump hexports
  cases hx : (Image.ofProgram q).assemble 2 with
  | error cause =>
      rw [hx] at hencodes
      cases hencodes
  | ok x =>
      obtain ⟨address, chunks, hq, -, -, -, -, -, hoffsets, hjumps, -⟩ :=
        (resolveAddresses_agrees sampleJump (by decide +kernel)).2 q 2 x hrun hx
      have haddress : address "there" = 24 := by
        rw [hq, code_fillIn, List.getElem?_map] at hjump
        have hlabel : sampleJump.code[2]? = some (.jumpTo "there") := by decide +kernel
        rw [hlabel] at hjump
        exact Target.address.inj (Instruction.jump.inj (Option.some.inj hjump))
      have hstands : sampleJump.StandsBehind "there" 6 := .label (by decide +kernel)
      have hoffset := hoffsets "there" 6 hstands
      rw [haddress] at hoffset
      have hoperand := hjumps 2 "there" (by decide +kernel)
      rw [haddress] at hoperand
      exact ⟨q, x, hrun, hx, address, chunks, hq, haddress, hoffset.symm, hoperand, hexports⟩

end Program

end TriggerCompiler
