import TriggerCompiler.Proofs.EncodedAddresses

/-! A decoder for the binary container of a program. It reads the container from the front: counts say how
many items follow, a text begins with the number of its bytes, a value with a tag, and an instruction with
its operation code, which tells whether an operand follows. Each reader takes exactly the bytes that the
encoder writes for an item, whatever stands behind them, so the container of an image gives back all that
the encoder has put into it. -/

namespace TriggerCompiler

/-- An instruction as it stands in a container. -/
inductive Operation where
  | nop
  | push (slot : Nat)
  | pop
  | jumpIfFalse (address : UInt32)
  | jump (address : UInt32)
  /-- Calls a function of the machine by its place in the table of functions. -/
  | invoke (function : Nat)
  | jumpIndirect (slot : Nat)
  | copy
deriving DecidableEq

/-- What a container holds. -/
structure Contents where
  /-- The heap slots: name, name of the type in assembly, and initial value. -/
  heap : List (String × String × Value)
  /-- The exported methods with their addresses. -/
  entries : List (String × Nat)
  /-- The functions of the machine that the code calls. -/
  functions : List String
  code : List Operation
deriving DecidableEq

/-- A value as it stands in a container, where the name of a method is a text. -/
def Value.stored : Value → Value
  | .method s => .str s
  | v => v

namespace Image

/-- The instruction of a container for an instruction of an image. Labels and comments have none, nor has
a jump to a label, which no image that can be encoded has. -/
def operation? (image : Image) : Instruction → Option Operation
  | .nop => some .nop
  | .sentinel => some .nop
  | .push s => some (.push (image.heap.findIdx (·.name = s)))
  | .pop => some .pop
  | .copy => some .copy
  | .jump (.address a) => some (.jump a)
  | .jumpIfFalse (.address a) => some (.jumpIfFalse a)
  | .jumpIndirect s => some (.jumpIndirect (image.heap.findIdx (·.name = s)))
  | .invoke signature => some (.invoke ((Bytecode.signatures image.methods).idxOf signature))
  | .jump (.label _) => none
  | .jumpIfFalse (.label _) => none
  | .label _ => none
  | .comment _ => none

/-- What the container of an image holds. -/
def contents (image : Image) : Contents where
  heap := image.heap.map fun e => (e.name, e.type.machineName, e.default.stored)
  entries := Bytecode.exportsFrom 0 image.methods
  functions := Bytecode.signatures image.methods
  code := (image.methods.flatMap Method.code).filterMap image.operation?

end Image

/-! ### Readers -/

variable {chunks : List (List UInt8)} {methods : List Method} {image : Image} {bytes : List UInt8}
  {e : String × Nat}

namespace Container

/-- A reader takes an item from the front of some bytes. -/
abbrev Reader := StateT (List UInt8) Option

/-- One byte. -/
def byte : Reader UInt8
  | [] => none
  | b :: rest => some (b, rest)

/-- The number of four bytes, the lowest first. -/
def ofBytes (a b c d : UInt8) : UInt32 :=
  UInt32.ofNat (a.toNat + 256 * (b.toNat + 256 * (c.toNat + 256 * d.toNat)))

/-- A number of 32 bits. -/
def word : Reader UInt32
  | a :: b :: c :: d :: rest => some (ofBytes a b c d, rest)
  | _ => none

/-- As many bytes as asked for. -/
def block (n : Nat) : Reader (List UInt8) := fun bytes =>
  if n ≤ bytes.length then some (bytes.take n, bytes.drop n) else none

/-- A count or an address. -/
def count : Reader Nat := do return (← word).toNat

/-- A text. -/
def text : Reader String := do
  let bytes ← block (← count)
  StateT.lift (String.fromUTF8? ⟨bytes.toArray⟩)

/-- A number of single precision. -/
def single : Reader Single := do return ⟨← word⟩

/-- A value behind its tag. -/
def valueOf : Nat → Reader Value
  | 0 => return .null
  | 1 => do return .bool ((← byte) ≠ 0)
  | 2 => do return .int (← word).toInt32
  | 3 => do return .uint (← word)
  | 4 => do return .float (← single)
  | 5 => do return .str (← text)
  | 6 => do return .vector3 (← single) (← single) (← single)
  | 7 => return .this
  | 8 => do return .label (← text)
  | _ => failure

/-- A value. -/
def value : Reader Value := do valueOf (← byte).toNat

/-- A slot of the heap. -/
def slot : Reader (String × String × Value) := do return (← text, ← text, ← value)

/-- An exported method with its address. -/
def entry : Reader (String × Nat) := do return (← text, ← count)

/-- Items of one kind, as many as asked for. -/
def many {α : Type} (item : Reader α) : Nat → Reader (List α)
  | 0 => return []
  | n + 1 => do return (← item) :: (← many item n)

/-- Items of one kind behind their number. -/
def counted {α : Type} (item : Reader α) : Reader (List α) := do many item (← count)

/-- The numbers that bytes consist of. -/
def words : List UInt8 → Option (List UInt32)
  | [] => some []
  | a :: b :: c :: d :: rest => do return ofBytes a b c d :: (← words rest)
  | _ => none

/-- The instruction of an operation code without an operand. -/
def plain? : Nat → Option Operation
  | 0 => some .nop
  | 2 => some .pop
  | 9 => some .copy
  | _ => none

/-- The instruction of an operation code with its operand. -/
def withOperand? (operand : UInt32) : Nat → Option Operation
  | 1 => some (.push operand.toNat)
  | 4 => some (.jumpIfFalse operand)
  | 5 => some (.jump operand)
  | 6 => some (.invoke operand.toNat)
  | 8 => some (.jumpIndirect operand.toNat)
  | _ => none

/-- The instructions that numbers stand for. -/
def operations : List UInt32 → Option (List Operation)
  | [] => some []
  | code :: rest =>
      match plain? code.toNat with
      | some o => do return o :: (← operations rest)
      | none =>
          match rest with
          | [] => none
          | operand :: rest => do return (← withOperand? operand code.toNat) :: (← operations rest)

/-- The instructions of a container: their number of bytes and the bytes. -/
def code : Reader (List Operation) := do
  let bytes ← block (← count)
  StateT.lift ((words bytes).bind operations)

/-- What follows the mark and the version of a container. -/
def contents : Reader Contents := do
  return {
    heap := ← counted slot
    entries := ← counted entry
    functions := ← counted text
    code := ← code }

/-- A container. Its mark and its version must be right. -/
def container : Reader Contents := do
  if (← block Bytecode.header.length) = Bytecode.header then contents else failure

/-- Decodes bytes that are a container and nothing else. -/
def decode (bytes : List UInt8) : Option Contents := do
  let (c, rest) ← container.run bytes
  if rest = [] then some c else none

/-! ### Reading what was written -/

/-- A reader takes exactly the given bytes and yields a value, whatever follows. -/
def Reads {α : Type} (r : Reader α) (bytes : List UInt8) (a : α) : Prop :=
  ∀ rest, r.run (bytes ++ rest) = some (a, rest)

section

variable {α β : Type} {r : Reader α} {bytes bytes' : List UInt8} {a : α} {b : β}

theorem Reads.pure (a : α) : Reads (Pure.pure a) [] a := fun _ => rfl

theorem Reads.lift (a : α) : Reads (StateT.lift (some a)) [] a := fun _ => rfl

theorem Reads.bind (f : α → Reader β) (hr : Reads r bytes a) (hf : Reads (f a) bytes' b) :
    Reads (r >>= f) (bytes ++ bytes') b := by
  intro rest
  rw [StateT.run_bind, List.append_assoc, hr]
  exact hf rest

theorem Reads.map (hr : Reads r bytes a) (f : α → β) :
    Reads (r >>= fun a => Pure.pure (f a)) bytes (f a) := by
  have h := hr.bind (fun a => Pure.pure (f a)) (Reads.pure (f a))
  rwa [List.append_nil] at h

end

theorem ofBytes_word (n : UInt32) :
    ofBytes n.toUInt8 (n >>> 8).toUInt8 (n >>> 16).toUInt8 (n >>> 24).toUInt8 = n := by
  apply UInt32.toNat_inj.mp
  have hn := n.toNat_lt
  simp [ofBytes, UInt32.toNat_ofNat', UInt32.toNat_toUInt8, UInt32.toNat_shiftRight,
    Nat.shiftRight_eq_div_pow]
  omega

theorem reads_byte (b : UInt8) : Reads byte [b] b := fun _ => rfl

theorem reads_word (n : UInt32) : Reads word (Bytecode.word n) n := fun rest =>
  congrArg (fun m => some (m, rest)) (ofBytes_word n)

theorem reads_count {n : Nat} (h : n < 2 ^ 32) : Reads count (Bytecode.count n) n := by
  have hread := (reads_word (UInt32.ofNat n)).map UInt32.toNat
  rwa [UInt32.toNat_ofNat_of_lt' h] at hread

theorem reads_block (bytes : List UInt8) : Reads (block bytes.length) bytes bytes := by
  intro rest
  show (if bytes.length ≤ (bytes ++ rest).length then _ else none) = _
  rw [if_pos (by simp), List.take_left, List.drop_left]

theorem fromUTF8?_toUTF8 (s : String) : String.fromUTF8? s.toUTF8 = some s := by
  have hvalid : s.toUTF8.IsValidUTF8 := s.isValidUTF8
  rw [String.fromUTF8?, dif_pos hvalid]
  rfl

theorem reads_text {s : String} (h : s.utf8ByteSize < 2 ^ 32) : Reads text (Bytecode.text s) s := by
  have hblock := reads_block s.toUTF8.data.toList
  have hlift := Reads.lift s
  rw [← fromUTF8?_toUTF8] at hlift
  let decode (bytes : List UInt8) : Reader String := StateT.lift (String.fromUTF8? ⟨bytes.toArray⟩)
  have hbytes := hblock.bind decode hlift
  rw [List.append_nil] at hbytes
  exact (reads_count h).bind (fun n => block n >>= decode) hbytes

theorem reads_single (x : Single) : Reads single (Bytecode.word x.bits) x :=
  (reads_word x.bits).map Single.mk

/-- The number of bytes of the text in a value. -/
def textSize : Value → Nat
  | .str s => s.utf8ByteSize
  | .method s => s.utf8ByteSize
  | .label s => s.utf8ByteSize
  | _ => 0

theorem reads_value {v : Value} (h : textSize v < 2 ^ 32) :
    Reads value (Bytecode.value v) v.stored := by
  -- The tag selects the reader of what follows it.
  have htag (tag : UInt8) {bytes : List UInt8} {w : Value} (hw : Reads (valueOf tag.toNat) bytes w) :
      Reads value (tag :: bytes) w :=
    (reads_byte tag).bind (fun b : UInt8 => valueOf b.toNat) hw
  cases v with
  | null => exact htag 0 (.pure _)
  | bool b =>
    cases b with
    | false => exact htag 1 ((reads_byte 0).map fun b => Value.bool (b ≠ 0))
    | true => exact htag 1 ((reads_byte 1).map fun b => Value.bool (b ≠ 0))
  | int n =>
    have hread := (reads_word n.toUInt32).map fun n => Value.int n.toInt32
    rw [Int32.toInt32_toUInt32] at hread
    exact htag 2 hread
  | uint n => exact htag 3 ((reads_word n).map Value.uint)
  | float x => exact htag 4 ((reads_single x).map Value.float)
  | str s => exact htag 5 ((reads_text h).map Value.str)
  | method s => exact htag 5 ((reads_text h).map Value.str)
  | vector3 x y z =>
    have hy := (reads_single y).bind (fun y => single >>= fun z => pure (Value.vector3 x y z))
      ((reads_single z).map (Value.vector3 x y))
    have hx := (reads_single x).bind
      (fun x => single >>= fun y => single >>= fun z => pure (Value.vector3 x y z)) hy
    rw [← List.append_assoc] at hx
    exact htag 6 hx
  | this => exact htag 7 (.pure _)
  | label l => exact htag 8 ((reads_text h).map Value.label)

theorem reads_slot {e : HeapEntry} (hname : e.name.utf8ByteSize < 2 ^ 32)
    (htype : e.type.machineName.utf8ByteSize < 2 ^ 32) (hvalue : textSize e.default < 2 ^ 32) :
    Reads slot (Bytecode.slot e) (e.name, e.type.machineName, e.default.stored) := by
  have hrest := (reads_text htype).bind (fun t => value >>= fun v => pure (e.name, t, v))
    ((reads_value hvalue).map fun v => (e.name, e.type.machineName, v))
  have hread := (reads_text hname).bind
    (fun n => text >>= fun t => value >>= fun v => pure (n, t, v)) hrest
  rwa [← List.append_assoc] at hread

theorem reads_entry (hname : e.1.utf8ByteSize < 2 ^ 32) (haddress : e.2 < 2 ^ 32) :
    Reads entry (Bytecode.text e.1 ++ Bytecode.count e.2) e :=
  (reads_text hname).bind (fun n => count >>= fun a => pure (n, a))
    ((reads_count haddress).map (Prod.mk e.1))

theorem reads_many {α β : Type} {item : Reader β} {encode : α → List UInt8} {f : α → β} {l : List α}
    (h : ∀ a ∈ l, Reads item (encode a) (f a)) :
    Reads (many item l.length) (l.flatMap encode) (l.map f) := by
  induction l with
  | nil => exact .pure _
  | cons a l ih =>
    have hrest := ih fun b hb => h b (List.mem_cons_of_mem _ hb)
    exact (h a List.mem_cons_self).bind (fun b => many item l.length >>= fun bs => pure (b :: bs))
      (hrest.map (f a :: ·))

theorem reads_counted {α β : Type} {item : Reader β} {encode : α → List UInt8} {f : α → β}
    {l : List α} (hlength : l.length < 2 ^ 32) (h : ∀ a ∈ l, Reads item (encode a) (f a)) :
    Reads (counted item) (Bytecode.count l.length ++ l.flatMap encode) (l.map f) :=
  (reads_count hlength).bind (many item) (reads_many h)

/-! ### Code -/

theorem words_word (n : UInt32) (bytes : List UInt8) :
    words (Bytecode.word n ++ bytes) = (words bytes).map (n :: ·) := by
  show (do return ofBytes _ _ _ _ :: (← words bytes)) = _
  rw [ofBytes_word]
  cases words bytes <;> rfl

/-- The instructions of code that begins with an instruction without an operand. -/
theorem operations_plain {code : UInt32} {o : Operation} (ho : plain? code.toNat = some o)
    (bytes : List UInt8) :
    (words (Bytecode.word code ++ bytes)).bind operations =
      ((words bytes).bind operations).map (o :: ·) := by
  rw [words_word]
  cases words bytes with
  | none => rfl
  | some rest =>
    show operations (code :: rest) = (operations rest).map _
    rw [operations.eq_def]
    simp only [ho]
    cases operations rest <;> rfl

/-- The instructions of code that begins with an instruction with an operand. -/
theorem operations_withOperand (code : UInt32) {operand : UInt32} {o : Operation}
    (hplain : plain? code.toNat = none) (ho : withOperand? operand code.toNat = some o) (bytes : List UInt8) :
    (words (Bytecode.word code ++ Bytecode.word operand ++ bytes)).bind operations =
      ((words bytes).bind operations).map (o :: ·) := by
  rw [List.append_assoc, words_word, words_word]
  cases words bytes with
  | none => rfl
  | some rest =>
    show operations (code :: operand :: rest) = (operations rest).map _
    rw [operations.eq_def]
    simp only [hplain, ho]
    cases operations rest <;> rfl

/-- The slot of a variable is a place in the heap. -/
theorem slotOf_eq_ok {functions : List String} {method symbol : String} {n : Nat}
    (h : Bytecode.Frame.slotOf ⟨image, functions, method⟩ symbol = .ok n) :
    n = image.heap.findIdx (·.name = symbol) ∧ n < image.heap.length := by
  rw [Bytecode.Frame.slotOf] at h
  cases hindex : image.heapIndex? symbol with
  | none => rw [hindex] at h; cases h
  | some i =>
    rw [hindex] at h
    cases h
    have hlt := (List.findIdx?_eq_some_iff_findIdx_eq.mp hindex)
    exact ⟨hlt.2.symm, hlt.1⟩

theorem idxOf_signatures_lt {signature : String}
    (h : .invoke signature ∈ methods.flatMap Method.code) :
    (Bytecode.signatures methods).idxOf signature < (Bytecode.signatures methods).length := by
  rw [List.idxOf_lt_length_iff, Bytecode.signatures, List.mem_eraseDups, List.mem_filterMap]
  exact ⟨.invoke signature, h, rfl⟩

/-- An instruction is read back from the front of the bytes of code. -/
theorem operations_instruction {method : String} {i : Instruction}
    (hheap : image.heap.length < 2 ^ 32)
    (hfunctions : (Bytecode.signatures image.methods).length < 2 ^ 32)
    (hi : i ∈ image.methods.flatMap Method.code)
    (h : Bytecode.instruction ⟨image, Bytecode.signatures image.methods, method⟩ i = .ok bytes)
    (rest : List UInt8) : (words (bytes ++ rest)).bind operations =
      ((words rest).bind operations).map ((image.operation? i).toList ++ ·) := by
  have htoNat {n m : Nat} (hn : n < m) (hm : m < 2 ^ 32) : (UInt32.ofNat n).toNat = n :=
    UInt32.toNat_ofNat_of_lt' (Nat.lt_trans hn hm)
  cases i with
  | nop => cases h; exact operations_plain rfl rest
  | sentinel => cases h; exact operations_plain rfl rest
  | pop => cases h; exact operations_plain rfl rest
  | copy => cases h; exact operations_plain rfl rest
  | push s =>
    rw [Bytecode.instruction] at h
    cases hs : Bytecode.Frame.slotOf ⟨image, Bytecode.signatures image.methods, method⟩ s with
    | error cause => rw [hs] at h; cases h
    | ok n =>
      rw [hs] at h
      cases h
      obtain ⟨rfl, hlt⟩ := slotOf_eq_ok hs
      refine operations_withOperand 1 rfl ?_ rest
      exact congrArg (fun n => some (Operation.push n)) (htoNat hlt hheap)
  | jumpIndirect s =>
    rw [Bytecode.instruction] at h
    cases hs : Bytecode.Frame.slotOf ⟨image, Bytecode.signatures image.methods, method⟩ s with
    | error cause => rw [hs] at h; cases h
    | ok n =>
      rw [hs] at h
      cases h
      obtain ⟨rfl, hlt⟩ := slotOf_eq_ok hs
      refine operations_withOperand 8 rfl ?_ rest
      exact congrArg (fun n => some (Operation.jumpIndirect n)) (htoNat hlt hheap)
  | invoke signature =>
    cases h
    have hlt := idxOf_signatures_lt hi
    refine operations_withOperand 6 rfl ?_ rest
    exact congrArg (fun n => some (Operation.invoke n)) (htoNat hlt hfunctions)
  | jump t =>
    cases t with
    | address a => cases h; exact operations_withOperand _ rfl rfl rest
    | label l => cases h
  | jumpIfFalse t =>
    cases t with
    | address a => cases h; exact operations_withOperand _ rfl rfl rest
    | label l => cases h
  | label l => cases h; exact Option.map_id'.symm
  | comment text => cases h; exact Option.map_id'.symm

/-- Encoded instructions are read back one by one. -/
theorem operations_encodes (hheap : image.heap.length < 2 ^ 32)
    (hfunctions : (Bytecode.signatures image.methods).length < 2 ^ 32) {instructions : List Instruction}
    (hsub : ∀ i ∈ instructions, i ∈ image.methods.flatMap Method.code)
    (h : Bytecode.Encodes image instructions chunks) :
    (words chunks.flatten).bind operations = some (instructions.filterMap image.operation?) := by
  induction h with
  | nil => rfl
  | @cons i bytes instructions chunks hhead _ ih =>
    obtain ⟨method, hhead⟩ := hhead
    rw [List.flatten_cons, operations_instruction hheap hfunctions (hsub i List.mem_cons_self) hhead,
      ih fun j hj => hsub j (List.mem_cons_of_mem _ hj), List.filterMap_cons]
    cases image.operation? i <;> rfl

end Container

/-! ### Images that fit -/

/-- The counts and the lengths of an image are numbers of 32 bits. -/
structure Image.Fits (image : Image) : Prop where
  heap : image.heap.length < 2 ^ 32
  names : ∀ e ∈ image.heap, e.name.utf8ByteSize < 2 ^ 32
  types : ∀ e ∈ image.heap, e.type.machineName.utf8ByteSize < 2 ^ 32
  texts : ∀ e ∈ image.heap, Container.textSize e.default < 2 ^ 32
  exports : (image.methods.filter Method.exported).length < 2 ^ 32
  exportNames : ∀ m ∈ image.methods, m.exported → m.name.utf8ByteSize < 2 ^ 32
  functions : (Bytecode.signatures image.methods).length < 2 ^ 32
  functionNames : ∀ s ∈ Bytecode.signatures image.methods, s.utf8ByteSize < 2 ^ 32
  code : codeSize (image.methods.flatMap Method.code) < 2 ^ 32

/-- The exported methods of a table are those of the image. -/
theorem Bytecode.map_fst_exportsFrom (start : Nat) (methods : List Method) :
    (exportsFrom start methods).map Prod.fst = (methods.filter Method.exported).map Method.name := by
  induction methods generalizing start with
  | nil => rfl
  | cons m methods ih =>
    rw [exportsFrom, List.filter_cons]
    cases m.exported with
    | false => exact ih _
    | true => exact congrArg (m.name :: ·) (ih _)

/-- The address of an exported method lies within the code. -/
theorem Bytecode.le_of_mem_exportsFrom {start : Nat}
    (h : e ∈ exportsFrom start methods) : e.2 ≤ start + codeSize (methods.flatMap Method.code) := by
  induction methods generalizing start with
  | nil => cases h
  | cons m methods ih =>
    have htail (h : e ∈ exportsFrom (start + m.size) methods) :
        e.2 ≤ start + codeSize ((m :: methods).flatMap Method.code) := by
      rw [List.flatMap_cons, codeSize_append, ← Nat.add_assoc]
      exact ih h
    rw [exportsFrom] at h
    split at h
    · rcases List.mem_cons.mp h with rfl | h
      · exact Nat.le_add_right _ _
      · exact htail h
    · exact htail h

namespace Container

section

variable {image : Image} (hfits : image.Fits)
include hfits

theorem reads_heap : Reads (counted slot)
    (Bytecode.count image.heap.length ++ image.heap.flatMap Bytecode.slot) image.contents.heap :=
  reads_counted hfits.heap fun e he =>
    reads_slot (hfits.names e he) (hfits.types e he) (hfits.texts e he)

theorem reads_entries : Reads (counted entry)
    (Bytecode.count image.contents.entries.length ++
      image.contents.entries.flatMap fun e => Bytecode.text e.1 ++ Bytecode.count e.2)
    image.contents.entries := by
  have hnames := Bytecode.map_fst_exportsFrom 0 image.methods
  have hlength : image.contents.entries.length < 2 ^ 32 := by
    rw [← List.length_map (f := Prod.fst), Image.contents, hnames, List.length_map]
    exact hfits.exports
  have hentry : ∀ e ∈ image.contents.entries,
      Reads entry (Bytecode.text e.1 ++ Bytecode.count e.2) e := by
    intro e he
    have hname := List.mem_map_of_mem (f := Prod.fst) he
    rw [Image.contents, hnames] at hname
    obtain ⟨m, hm, hname⟩ := List.mem_map.mp hname
    rw [List.mem_filter] at hm
    have hle := Bytecode.le_of_mem_exportsFrom he
    rw [Nat.zero_add] at hle
    exact reads_entry (hname ▸ hfits.exportNames m hm.1 hm.2) (Nat.lt_of_le_of_lt hle hfits.code)
  have hread := reads_counted (f := id) hlength hentry
  rwa [List.map_id] at hread

theorem reads_functions : Reads (counted text)
    (Bytecode.count image.contents.functions.length ++ image.contents.functions.flatMap Bytecode.text)
    image.contents.functions := by
  have htext : ∀ s ∈ image.contents.functions, Reads text (Bytecode.text s) s := fun s hs =>
    reads_text (hfits.functionNames s hs)
  have hread := reads_counted (f := id) hfits.functions htext
  rwa [List.map_id] at hread

theorem reads_code
    (h : Bytecode.Encodes image (image.methods.flatMap Method.code) chunks) :
    Reads code (Bytecode.count (image.methods.map Method.size).sum ++ chunks.flatten)
      image.contents.code := by
  have hlift := Reads.lift image.contents.code
  rw [Image.contents, ← operations_encodes hfits.heap hfits.functions (fun _ hi => hi) h] at hlift
  have hbytes := (reads_block chunks.flatten).bind
    (fun bytes => StateT.lift ((words bytes).bind operations)) hlift
  rw [List.append_nil, h.length_flatten] at hbytes
  rw [sum_map_size]
  exact (reads_count hfits.code).bind
    (fun n => block n >>= fun bytes => StateT.lift ((words bytes).bind operations)) hbytes

/-- The container of an image is read to its end. -/
theorem reads_container
    (h : Bytecode.Encodes image (image.methods.flatMap Method.code) chunks) :
    Reads container (Bytecode.preamble image ++ chunks.flatten) image.contents := by
  let c := image.contents
  have hfunctions := (reads_functions hfits).bind
    (fun fs => code >>= fun os => pure (Contents.mk c.heap c.entries fs os))
    ((reads_code hfits h).map (Contents.mk c.heap c.entries c.functions))
  have hentries := (reads_entries hfits).bind
    (fun es => counted text >>= fun fs => code >>= fun os => pure (Contents.mk c.heap es fs os))
    hfunctions
  have hcontents : Reads contents _ c := (reads_heap hfits).bind
    (fun hs => counted entry >>= fun es => counted text >>= fun fs => code >>= fun os =>
      pure (Contents.mk hs es fs os)) hentries
  have hcontainer : Reads container _ c := (reads_block Bytecode.header).bind
    (fun mark => if mark = Bytecode.header then contents else failure) hcontents
  simp only [List.append_assoc] at hcontainer
  simp only [Bytecode.preamble, List.append_assoc]
  exact hcontainer

end

theorem decode_of_reads {c : Contents} (h : Reads container bytes c) :
    decode bytes = some c := by
  have hrun := h []
  rw [List.append_nil] at hrun
  rw [decode, hrun]
  rfl

end Container

/-- The container of a program can be read back. For an image whose counts and lengths are numbers of 32
bits, decoding the bytes that it is encoded in gives its heap, its exported methods with their addresses,
the functions it calls and its instructions, and no image that holds anything else has the same bytes. -/
theorem Image.decode_assemble {image : Image} (hfits : image.Fits) {heapSize : UInt32} {x : Executable}
    (h : image.assemble heapSize = .ok x) :
    Container.decode x.bytes = some image.contents ∧
      ∀ (other : Image) (heapSize' : UInt32) (x' : Executable), other.Fits →
        other.assemble heapSize' = .ok x' → x'.bytes = x.bytes → other.contents = image.contents := by
  have hdecode {image : Image} (hfits : image.Fits) {heapSize : UInt32} {x : Executable}
      (h : image.assemble heapSize = .ok x) : Container.decode x.bytes = some image.contents := by
    obtain ⟨-, chunks, hchunks, hbytes⟩ := assemble_eq_ok h
    rw [hbytes]
    exact Container.decode_of_reads (Container.reads_container hfits hchunks)
  refine ⟨hdecode hfits h, fun other heapSize' x' hfits' h' hbytes => ?_⟩
  have hsame := hdecode hfits' h'
  rw [hbytes, hdecode hfits h] at hsame
  exact (Option.some.inj hsame).symm

/-- An image with values of several kinds and two slots of one name. -/
def sampleContainer : Image where
  heap := [
    { name := "label", type := .other "Über", default := .label "é" },
    { name := "label", type := .string, default := .method "_start" },
    { name := "end", type := .uint, default := .uint 0xFFFFFFFC },
    { name := "at", type := .vector3, default := .vector3 ⟨0x3F800000⟩ ⟨0x80000000⟩ ⟨0x7FC00001⟩ }]
  methods := [
    { name := "_helper", code := [.sentinel, .jumpIfFalse (.address 4)] },
    { name := "_start", exported := true,
      code := [.comment "start", .push "label", .invoke "f", .label "l", .push "end", .invoke "g",
        .invoke "f", .jump (.address 12), .jumpIndirect "end"] }]

/-- Its second slot of a name is no operand, and no label or comment is left of its code. -/
theorem Image.decode_assemble_sampleContainer : sampleContainer.Fits ∧
    ∃ x, sampleContainer.assemble 8 = .ok x ∧ Container.decode x.bytes = some {
      heap := [("label", "Über", .label "é"), ("label", "SystemString", .str "_start"),
        ("end", "SystemUInt32", .uint 0xFFFFFFFC),
        ("at", "Vector3", .vector3 ⟨0x3F800000⟩ ⟨0x80000000⟩ ⟨0x7FC00001⟩)]
      entries := [("_start", 12)]
      functions := ["f", "g"]
      code := [.nop, .jumpIfFalse 4, .push 0, .invoke 0, .push 2, .invoke 1, .invoke 0, .jump 12,
        .jumpIndirect 2] } := by
  have hfits : sampleContainer.Fits := by
    constructor <;> decide +kernel
  obtain ⟨x, hx⟩ : ∃ x, sampleContainer.assemble 8 = .ok x := ⟨_, rfl⟩
  refine ⟨hfits, x, hx, ?_⟩
  rw [(decode_assemble hfits hx).1]
  decide +kernel

end TriggerCompiler
