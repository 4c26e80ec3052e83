import Sirit.Defining
import Sirit.ResultIds
import Sirit.SizedRuns

/- Reading a module back. The reader knows of an opcode only what the grammar says of its
   result; what it reads back from an assembled module is the listing of the run. -/
namespace Sirit
open Framing Interning
variable (pf : Platform)

/-- The grammar gives every result a type, but for types, labels, strings and imports. -/
def Op.hasResultType (o : Op) : Bool :=
  o.hasResult &&
    match o with
    | .opString | .opExtInstImport | .opLabel | .opTypeVoid | .opTypeBool | .opTypeInt
    | .opTypeFloat | .opTypeVector | .opTypeMatrix | .opTypeImage | .opTypeSampler
    | .opTypeSampledImage | .opTypeArray | .opTypeRuntimeArray | .opTypeStruct | .opTypeOpaque
    | .opTypePointer | .opTypeFunction | .opTypeEvent | .opTypeDeviceEvent | .opTypeReserveId
    | .opTypeQueue | .opTypePipe => false
    | _ => true

theorem Op.hasResult_of_hasResultType {o : Op} (typed : o.hasResultType = true) :
    o.hasResult = true := by
  unfold Op.hasResultType at typed
  exact (Bool.and_eq_true_iff.mp typed).1

structure Instruction.Grammatical (i : Instruction) : Prop where
  result : i.result.isSome = i.op.hasResult
  resultType : i.resultType ≠ 0 ↔ i.op.hasResultType = true

def Instruction.Formed (i : Instruction) : Prop := i.Grammatical ∧ i.width ≤ 65535

theorem Op.mem_all (o : Op) : o ∈ (List.range 208).map Op.ofNat := by
  have listed : o.ctorIdx < 208 := by cases o <;> decide
  exact List.mem_map.mpr ⟨o.ctorIdx, List.mem_range.mpr listed, Op.ofNat_ctorIdx o⟩

def Platform.decodeOp (c : BitVec 16) : Option Op :=
  ((List.range 208).map Op.ofNat).find? fun o => pf.opcode o = c

theorem Platform.decodeOp_eq_some_iff {c : BitVec 16} {o : Op} :
    pf.decodeOp c = some o ↔ pf.opcode o = c := by
  constructor
  · intro found
    simpa using List.find?_some found
  · intro same
    cases found : pf.decodeOp c with
    | none =>
      have absent := List.find?_eq_none.mp found o o.mem_all
      exact absurd same (by simpa using absent)
    | some p =>
      have other : pf.opcode p = c := by simpa using List.find?_some found
      rw [pf.opcode_injective (other.trans same.symm)]

def readTail (o : Op) (ws : List U32) : Option Instruction :=
  if o.hasResultType then
    match ws with
    | resultType :: result :: operands =>
        if resultType = 0 then none else some ⟨o, resultType, some result, operands⟩
    | _ => none
  else if o.hasResult then
    match ws with
    | result :: operands => some ⟨o, 0, some result, operands⟩
    | [] => none
  else some ⟨o, 0, none, ws⟩

theorem readTail_tail {i : Instruction} (grammatical : i.Grammatical) :
    readTail i.op i.tail = some i := by
  obtain ⟨op, resultType, result, operands⟩ := i
  obtain ⟨hasResult, hasResultType⟩ := grammatical
  simp only at hasResult hasResultType
  by_cases typed : op.hasResultType = true
  · have given : resultType ≠ 0 := hasResultType.mpr typed
    rw [Op.hasResult_of_hasResultType typed] at hasResult
    obtain ⟨id, rfl⟩ := Option.isSome_iff_exists.mp hasResult
    simp only [readTail, typed, if_true, Instruction.tail, typeWords_some given,
      Option.toList_some, List.cons_append, List.nil_append, if_neg given]
  · have absent : resultType = 0 := by
      by_contra given
      exact typed (hasResultType.mp given)
    subst absent
    cases result with
    | some id =>
      have held : op.hasResult = true := hasResult.symm
      simp only [readTail, typed, held, Instruction.tail, typeWords_none, Option.toList_some]
      rfl
    | none =>
      have held : op.hasResult = false := hasResult.symm
      simp only [readTail, typed, held, Instruction.tail, typeWords_none, Option.toList_none]
      rfl

theorem tail_readTail {o : Op} {ws : List U32} {i : Instruction}
    (read : readTail o ws = some i) : i.op = o ∧ i.Grammatical ∧ i.tail = ws := by
  unfold readTail at read
  split at read
  · rename_i typed
    split at read
    · rename_i resultType result operands
      split at read
      · cases read
      · rename_i given
        cases read
        refine ⟨rfl, ⟨(Op.hasResult_of_hasResultType typed).symm, iff_of_true given typed⟩, ?_⟩
        simp only [Instruction.tail, typeWords_some given]
        rfl
    · cases read
  · rename_i untyped
    split at read
    · rename_i held
      split at read
      · cases read
        exact ⟨rfl, ⟨held.symm, iff_of_false (fun none => none rfl) untyped⟩, rfl⟩
      · cases read
    · rename_i resultless
      cases read
      refine ⟨rfl, ⟨?_, iff_of_false (fun none => none rfl) untyped⟩, rfl⟩
      exact (Bool.not_eq_true _ ▸ resultless : o.hasResult = false).symm

def readInstruction : List U32 → Option Instruction
  | [] => none
  | header :: tail => (pf.decodeOp (headerOpcode header)).bind fun o => readTail o tail

theorem makeWord0_halves {o : Op} {header : U32} (opcode : pf.opcode o = headerOpcode header) :
    makeWord0 (pf.op o) (wordCount header) = header := by
  have fits := header.isLt
  have low : (pf.op o).toNat = header.toNat % 2 ^ 16 := by
    rw [Platform.op, opcode, headerOpcode, BitVec.toNat_setWidth, BitVec.toNat_setWidth]
    omega
  have high : (BitVec.ofNat 32 (wordCount header) <<< 16).toNat =
      (header.toNat / 2 ^ 16) <<< 16 := by
    rw [BitVec.toNat_shiftLeft, BitVec.toNat_ofNat, wordCount, BitVec.toNat_ushiftRight,
      Nat.shiftRight_eq_div_pow, Nat.shiftLeft_eq, Nat.shiftLeft_eq]
    omega
  have inLow : header.toNat % 2 ^ 16 < 2 ^ 16 := Nat.mod_lt _ (by decide)
  apply BitVec.eq_of_toNat_eq
  rw [makeWord0, BitVec.toNat_or, low, high, Nat.or_comm,
    ← Nat.shiftLeft_add_eq_or_of_lt inLow, Nat.shiftLeft_eq]
  omega

def instructionCodec : Codec wordCount Instruction where
  write := Instruction.words pf
  read := readInstruction pf
  Formed := Instruction.Formed
  framed := fun i formed => i.frame pf formed.2
  read_write := by
    rintro i ⟨grammatical, _⟩
    have opcode := (pf.decodeOp_eq_some_iff (o := i.op)).mpr rfl
    simp only [Instruction.words, readInstruction, headerOpcode_makeWord0, opcode,
      Option.bind_some, readTail_tail grammatical]
  write_read := by
    rintro _ i ⟨header, tail, rfl, counted⟩ read
    obtain ⟨o, opcode, rest⟩ := Option.bind_eq_some_iff.mp read
    obtain ⟨rfl, grammatical, rfl⟩ := tail_readTail rest
    have same := makeWord0_halves pf ((pf.decodeOp_eq_some_iff).mp opcode)
    have short : wordCount header < 2 ^ 16 := by
      rw [wordCount, BitVec.toNat_ushiftRight, Nat.shiftRight_eq_div_pow]
      have := header.isLt
      omega
    have width : i.width = wordCount header := counted.symm
    refine ⟨⟨grammatical, by omega⟩, ?_⟩
    rw [counted] at same
    exact congrArg (· :: i.tail) same

structure Disassembly where
  version : U32
  bound : U32
  instructions : List Instruction
  deriving DecidableEq

def Disassembly.words (d : Disassembly) : List U32 :=
  [pf.magicNumber, d.version, generatorMagicNumber, d.bound, 0] ++
    d.instructions.flatMap (Instruction.words pf)

def disassemble : List U32 → Option Disassembly
  | magic :: version :: generator :: bound :: schema :: ws =>
      if magic = pf.magicNumber ∧ generator = generatorMagicNumber ∧ schema = 0 then
        ((instructionCodec pf).readAll ws).map fun is => ⟨version, bound, is⟩
      else none
  | _ => none

theorem disassemble_eq_some_iff {ws : List U32} {d : Disassembly} :
    disassemble pf ws = some d ↔ (∀ i ∈ d.instructions, i.Formed) ∧ d.words pf = ws := by
  constructor
  · intro read
    unfold disassemble at read
    split at read
    · split at read
      · rename_i magic version generator bound schema ws header
        obtain ⟨rfl, rfl, rfl⟩ := header
        obtain ⟨is, all, rfl⟩ := Option.map_eq_some_iff.mp read
        obtain ⟨formed, written⟩ := (instructionCodec pf).readAll_eq_some_iff.mp all
        exact ⟨formed, congrArg (_ ++ ·) written⟩
      · cases read
    · cases read
  · rintro ⟨formed, rfl⟩
    have all := (instructionCodec pf).readAll_eq_some_iff.mpr ⟨formed, rfl⟩
    have header : pf.magicNumber = pf.magicNumber ∧
      generatorMagicNumber = generatorMagicNumber ∧ (0 : U32) = 0 := ⟨rfl, rfl, rfl⟩
    change (if _ then _ else _) = _
    rw [if_pos header]
    exact Option.map_eq_some_iff.mpr ⟨d.instructions, all, rfl⟩

/-- The id of a label is its result. -/
def Instruction.parsed (i : Instruction) : Instruction :=
  if i.op = .opLabel ∧ i.result = none then
    ⟨i.op, i.resultType, i.operands.head?, i.operands.tail⟩
  else i

theorem Instruction.words_parsed (i : Instruction) : i.parsed.words pf = i.words pf := by
  unfold Instruction.parsed
  split
  · rename_i label
    obtain ⟨op, resultType, result, operands⟩ := i
    obtain ⟨_, rfl⟩ := label
    cases operands <;> simp [Instruction.words, Instruction.tail]
  · rfl

theorem Instruction.width_parsed (i : Instruction) : i.parsed.width = i.width :=
  congrArg List.length (i.words_parsed linuxX86)

theorem Instruction.parsed_of_result {i : Instruction} (given : i.result ≠ none) :
    i.parsed = i := if_neg fun label => given label.2

def Head.grammatical : Head → Bool
  | .op o => !o.hasResult
  | .opId (.bare o) => o.hasResult && !o.hasResultType
  | .opId (.typed o _) => o.hasResultType

def Action.grammatical : Action → Bool
  | .emit _ e _ => e.head.grammatical
  | .declare e => e.emission.head.grammatical
  | _ => true

theorem Call.grammatical_iff (c : Call) :
    c.action.grammatical = true ↔ ¬ c.IsAtomicStore := by
  cases c with
  | type c => cases c <;> exact iff_of_true rfl fun none => none
  | constant c => cases c <;> exact iff_of_true rfl fun none => none
  | annotate c => cases c <;> exact iff_of_true rfl fun none => none
  | debug c => cases c <;> exact iff_of_true rfl fun none => none
  | flow c => cases c <;> exact iff_of_true rfl fun none => none
  | memory c => cases c <;> exact iff_of_true rfl fun none => none
  | atomic c =>
    cases c with
    | opAtomicStore _ _ _ _ => exact iff_of_false Bool.false_ne_true (not_not_intro trivial)
    | _ => exact iff_of_true rfl fun none => none
  | barrier c => cases c <;> exact iff_of_true rfl fun none => none
  | misc c => cases c <;> exact iff_of_true rfl fun none => none
  | arithmetic c => cases c <;> exact iff_of_true rfl fun none => none
  | conversion c => cases c <;> exact iff_of_true rfl fun none => none
  | derivatives c => cases c <;> exact iff_of_true rfl fun none => none
  | logical c => cases c <;> exact iff_of_true rfl fun none => none
  | bit c => cases c <;> exact iff_of_true rfl fun none => none
  | group c => cases c <;> exact iff_of_true rfl fun none => none
  | image c => cases c <;> exact iff_of_true rfl fun none => none
  | _ => exact iff_of_true rfl fun none => none

inductive Action.Writes : Action → Instruction → Prop where
  | emit (sec : Section) (e : Emission) (returned : Returned) (bound : U32) :
      Writes (.emit sec e returned) (e.instruction pf bound)
  | declare (e : Declaration) (id : U32) : Writes (.declare e) ((e.key pf).instruction id)
  | deferPhi (resultType : Id) (blocks : List Id) (bound : U32) :
      Writes (.deferPhi resultType blocks)
        ((Sirit.deferredOpPhi resultType blocks).instruction pf bound)
  | glslImport (inst : GlslInst) (bound : U32) :
      Writes (.glsl inst) (glslStd450Import.instruction pf bound)
  | glsl (inst : GlslInst) (set : Id) (bound : U32) :
      Writes (.glsl inst) ((opExtInst inst.resultType set (pf.glslStd450 inst.opcode)
        inst.operands).instruction pf bound)
  | addLabel (label : Id) : Writes (.addLabel label) (labelInstruction label)

theorem Listing.emitted_emit {l : Listing} {sec : Section} {e : Emission} {i : Instruction}
    (member : i ∈ (l.emit pf sec e).2.emitted) :
    i ∈ l.emitted ∨ i = e.instruction pf l.bound := by
  rw [Listing.mem_emitted_iff] at member ⊢
  rcases member with ⟨other, inside⟩ | declared
  · rw [l.instructions_emit pf other sec e] at inside
    rcases List.mem_append.mp inside with old | new
    · exact Or.inl (Or.inl ⟨other, old⟩)
    · split at new
      · exact Or.inr (List.mem_singleton.mp new)
      · exact absurd new List.not_mem_nil
  · exact Or.inl (Or.inr declared)

theorem Listing.emitted_getGLSLstd450 {l : Listing} {i : Instruction}
    (member : i ∈ (l.getGLSLstd450 pf).2.emitted) :
    i ∈ l.emitted ∨ i = glslStd450Import.instruction pf l.bound := by
  unfold Listing.getGLSLstd450 at member
  split at member
  · exact Or.inl member
  · have streamed : i ∈ (l.emit pf .extInstImports glslStd450Import).2.emitted := member
    exact Listing.emitted_emit pf streamed

theorem Listing.emitted_declare {l : Listing} {e : Declaration} {i : Instruction}
    (member : i ∈ (l.declare pf e).2.emitted) :
    i ∈ l.emitted ∨ i = (e.key pf).instruction (l.bound + 1) := by
  rw [Listing.mem_emitted_iff] at member ⊢
  rcases member with plain | declared
  · exact Or.inl (Or.inl plain)
  · obtain ⟨entry, listed, rfl⟩ := List.mem_map.mp declared
    simp only [Listing.declare] at listed
    cases found : l.declarations.find (e.key pf) with
    | some id =>
      rw [Table.intern_known found] at listed
      exact Or.inl (Or.inr (List.mem_map_of_mem listed))
    | none =>
      rw [Table.intern_new found] at listed
      rcases List.mem_append.mp listed with old | new
      · exact Or.inl (Or.inr (List.mem_map_of_mem old))
      · rw [List.mem_singleton.mp new]
        exact Or.inr rfl

theorem Listing.emitted_addLabel {l : Listing} {label : Id} {i : Instruction}
    (member : i ∈ (l.addLabel label).emitted) : i ∈ l.emitted ∨ i = labelInstruction label := by
  rw [Listing.mem_emitted_iff] at member ⊢
  rcases member with ⟨sec, inside⟩ | declared
  · by_cases code : sec = .code
    · subst code
      simp only [Listing.addLabel, Function.update_self] at inside
      rcases List.mem_append.mp inside with old | new
      · exact Or.inl (Or.inl ⟨.code, old⟩)
      · exact Or.inr (List.mem_singleton.mp new)
    · simp only [Listing.addLabel, Function.update_of_ne code] at inside
      exact Or.inl (Or.inl ⟨sec, inside⟩)
  · exact Or.inl (Or.inr declared)

theorem Listing.writes_of_emitted {l : Listing} {c : Call} {i : Instruction}
    (member : i ∈ (l.step pf c).2.emitted) : i ∈ l.emitted ∨ c.action.Writes pf i := by
  unfold Listing.step at member
  cases action : c.action with
  | emit sec e returned =>
    rw [action] at member
    rcases Listing.emitted_emit pf member with old | rfl
    · exact Or.inl old
    · exact Or.inr (.emit sec e returned l.bound)
  | declare e =>
    rw [action] at member
    rcases Listing.emitted_declare pf member with old | rfl
    · exact Or.inl old
    · exact Or.inr (.declare e _)
  | deferPhi resultType blocks =>
    rw [action] at member
    rcases Listing.emitted_emit pf member with old | rfl
    · exact Or.inl old
    · exact Or.inr (.deferPhi resultType blocks l.bound)
  | glsl inst =>
    rw [action] at member
    have streamed : i ∈ ((l.getGLSLstd450 pf).2.emit pf .code (opExtInst inst.resultType
      (l.getGLSLstd450 pf).1 (pf.glslStd450 inst.opcode) inst.operands)).2.emitted := member
    rcases Listing.emitted_emit pf streamed with imported | rfl
    · rcases Listing.emitted_getGLSLstd450 pf imported with old | rfl
      · exact Or.inl old
      · exact Or.inr (.glslImport inst l.bound)
    · exact Or.inr (.glsl inst (l.getGLSLstd450 pf).1 (l.getGLSLstd450 pf).2.bound)
  | addLabel label =>
    rw [action] at member
    rcases Listing.emitted_addLabel member with old | rfl
    · exact Or.inl old
    · exact Or.inr (.addLabel label)
  | _ =>
    rw [action] at member
    exact Or.inl member

theorem listing_writes {version : U32} {calls : List Call} {i : Instruction}
    (member : i ∈ (listing pf version calls).emitted) :
    ∃ c ∈ calls, c.action.Writes pf i := by
  have invariant : ∀ i ∈ (listing pf version calls).emitted,
      ∃ c ∈ calls, c.action.Writes pf i := by
    apply Runs.invariant_run
      (I := fun l : Listing => ∀ i ∈ l.emitted, ∃ c ∈ calls, c.action.Writes pf i)
    · intro l c listed before i member
      rcases Listing.writes_of_emitted pf member with old | new
      · exact before i old
      · exact ⟨c, listed, new⟩
    · exact fun i member => absurd member List.not_mem_nil
  exact invariant i member

theorem grammatical_opId {o : OpId} (grammatical : (Head.opId o).grammatical = true)
    (asserts : o.Asserts) (id : U32) (operands : List U32) :
    (⟨o.opcode, o.resultType.value, some id, operands⟩ : Instruction).parsed.Grammatical := by
  rw [Instruction.parsed_of_result (Option.some_ne_none id)]
  cases o with
  | bare op =>
    obtain ⟨held, untyped⟩ := Bool.and_eq_true_iff.mp grammatical
    refine ⟨held.symm, iff_of_false (fun none => none rfl) ?_⟩
    intro typed
    rw [show op.hasResultType = true from typed] at untyped
    cases untyped
  | typed op resultType =>
    exact ⟨(Op.hasResult_of_hasResultType grammatical).symm, iff_of_true asserts grammatical⟩

theorem Emission.grammatical {e : Emission} (grammatical : e.head.grammatical = true)
    (asserts : e.head.Asserts) (bound : U32) :
    (e.instruction pf bound).parsed.Grammatical := by
  cases head : e.head with
  | op op =>
    rw [head] at grammatical
    have resultless : op.hasResult = false := by simpa [Head.grammatical] using grammatical
    have plain : (e.instruction pf bound).parsed = e.instruction pf bound := by
      refine if_neg ?_
      rintro ⟨label, _⟩
      rw [Emission.instruction_op, head] at label
      obtain rfl : op = .opLabel := label
      cases resultless
    rw [plain, Emission.instruction, head]
    refine ⟨resultless.symm, iff_of_false (fun none => none rfl) ?_⟩
    intro typed
    rw [Op.hasResult_of_hasResultType typed] at resultless
    cases resultless
  | opId o =>
    rw [head] at grammatical asserts
    simp only [Emission.instruction, head]
    exact grammatical_opId grammatical asserts _ _

theorem Action.Writes.grammatical {a : Action} {i : Instruction} (writes : a.Writes pf i)
    (grammatical : a.grammatical = true) (asserts : a.Asserts) : i.parsed.Grammatical := by
  cases writes with
  | emit sec e returned bound => exact Emission.grammatical pf grammatical asserts.1 bound
  | declare e id => exact grammatical_opId grammatical asserts.1 id _
  | deferPhi resultType blocks bound => exact Emission.grammatical pf rfl asserts.1 bound
  | glslImport inst bound =>
    have typeless : glslStd450Import.head.Asserts := trivial
    exact Emission.grammatical pf rfl typeless bound
  | glsl inst set bound =>
    have typed : (opExtInst inst.resultType set (pf.glslStd450 inst.opcode)
      inst.operands).head.Asserts := asserts.1
    exact Emission.grammatical pf rfl typed bound
  | addLabel label => exact ⟨rfl, iff_of_false (fun none => none rfl) Bool.false_ne_true⟩

theorem Listing.version_step (l : Listing) (c : Call) : (l.step pf c).2.version = l.version := by
  have imported : (l.getGLSLstd450 pf).2.version = l.version := by
    unfold Listing.getGLSLstd450
    split <;> rfl
  unfold Listing.step
  cases c.action with
  | glsl inst => exact imported
  | _ => rfl

theorem listing_version (version : U32) (calls : List Call) :
    (listing pf version calls).version = version := by
  apply Runs.invariant_run (I := fun l : Listing => l.version = version)
  · exact fun l c _ same => (l.version_step pf c).trans same
  · rfl

theorem Listing.forall_all {l : Listing} {P : Instruction → Prop}
    (emitted : ∀ i ∈ l.emitted, P i)
    (capability : ∀ capability, P (capabilityInstruction capability))
    (extension : ∀ extensionName, P (extensionInstruction pf extensionName))
    (model : ∀ addressingModel memoryModel,
      P (memoryModelInstruction addressingModel memoryModel)) :
    ∀ i ∈ l.all pf, P i := by
  intro i member
  simp only [Listing.emitted, List.mem_append] at emitted
  simp only [Listing.all, Listing.preamble, Listing.globals, List.mem_append, List.mem_map,
    List.mem_singleton] at member
  rcases member with (((((((((⟨x, _, rfl⟩ | ⟨x, _, rfl⟩) | inside) | rfl) | inside) | inside) |
    inside) | inside) | (inside | inside)) | inside)
  case inl.inl.inl.inl.inl.inl.inl.inl.inl => exact capability x
  case inl.inl.inl.inl.inl.inl.inl.inl.inr => exact extension x
  case inl.inl.inl.inl.inl.inl.inr => exact model _ _
  all_goals exact emitted i (by simp only [inside, true_or, or_true])

theorem atomic_store_emitted (version : U32) {calls : List Call} {c : Call} (member : c ∈ calls)
    (store : c.IsAtomicStore) :
    ∃ i ∈ (listing pf version calls).emitted, ¬ i.parsed.Grammatical := by
  obtain ⟨before, after, rfl⟩ := List.append_of_mem member
  unfold Call.IsAtomicStore at store
  split at store
  · rename_i pointer memory semantics value
    have streamed := (listing pf version before).mem_emitted_emit pf .code
      (AtomicCall.opAtomicStore pointer memory semantics value).emission
    have kept := run_emitted pf streamed after
    have listed : (AtomicCall.opAtomicStore pointer memory semantics value).emission.instruction
        pf (listing pf version before).bound ∈ (listing pf version (before ++
          .atomic (.opAtomicStore pointer memory semantics value) :: after)).emitted := by
      rw [listing, Runs.run_append, Runs.run_cons]
      exact kept
    exact ⟨_, listed, fun grammatical => Bool.false_ne_true grammatical.result.symm⟩
  · exact store.elim

/-- A reader that knows the results of the opcodes takes the words of a module apart, and
    only these. If no store of a run missed its vector, it takes the assembled module apart
    into the listing exactly when no instruction is too long to be counted and no
    `OpAtomicStore` is in it. -/
theorem disassemble_assemble_iff :
    (∀ (ws : List U32) (d : Disassembly), disassemble pf ws = some d ↔
      (∀ i ∈ d.instructions, i.Formed) ∧ d.words pf = ws) ∧
    ∀ (version : U32) (calls : List Call), (∀ c ∈ calls, ¬ c.action.IsPatch) →
      (∀ c ∈ calls, c.Asserts) → ((SizedModule.new pf version).run pf calls).missed = 0 →
      (disassemble pf (((SizedModule.new pf version).run pf calls).assemble pf) =
          some ⟨version, ((SizedModule.new pf version).run pf calls).bound + 1,
            ((listing pf version calls).all pf).map Instruction.parsed⟩ ↔
        (listing pf version calls).Short pf ∧ ∀ c ∈ calls, ¬ c.IsAtomicStore) := by
  refine ⟨fun ws d => disassemble_eq_some_iff pf, ?_⟩
  intro version calls unpatched asserts inside
  obtain ⟨_, refines⟩ := run_refines_unpatched pf version unpatched
  obtain ⟨_, follows⟩ := sized_follows pf version calls
  rw [follows.assemble_eq pf inside, follows.bound]
  have words : (⟨version, ((Module.new pf version).run pf calls).bound + 1,
      ((listing pf version calls).all pf).map Instruction.parsed⟩ : Disassembly).words pf =
      ((Module.new pf version).run pf calls).assemble pf := by
    have code : ((Module.new pf version).run pf calls).code.written = _ :=
      refines.sections .code trivial
    rw [refines.assemble_eq fun _ _ => trivial, code, listing_version, ← refines.bound,
      Disassembly.words, List.flatMap_map, List.append_assoc, ← List.flatMap_append]
    simp only [Instruction.words_parsed]
    rfl
  rw [disassemble_eq_some_iff, and_iff_left words]
  constructor
  · intro formed
    refine ⟨?_, ?_⟩
    · intro i member
      exact i.width_parsed ▸ (formed i.parsed (List.mem_map_of_mem member)).2
    · intro c member store
      obtain ⟨i, listed, irregular⟩ := atomic_store_emitted pf version member store
      have listed := (listing pf version calls).emitted_subset_all pf listed
      exact irregular (formed i.parsed (List.mem_map_of_mem listed)).1
  · rintro ⟨short, storeless⟩ j member
    obtain ⟨i, listed, rfl⟩ := List.mem_map.mp member
    refine ⟨?_, Nat.le_trans (Nat.le_of_eq i.width_parsed) (short i listed)⟩
    apply Listing.forall_all pf (P := fun i => i.parsed.Grammatical) ?_ ?_ ?_ ?_ i listed
    · intro i emitted
      obtain ⟨c, given, writes⟩ := listing_writes pf emitted
      exact writes.grammatical pf (c.grammatical_iff.mpr (storeless c given)) (asserts c given).1
    · exact fun _ => ⟨rfl, iff_of_false (fun none => none rfl) Bool.false_ne_true⟩
    · exact fun _ => ⟨rfl, iff_of_false (fun none => none rfl) Bool.false_ne_true⟩
    · exact fun _ _ => ⟨rfl, iff_of_false (fun none => none rfl) Bool.false_ne_true⟩

theorem disassemble_assemble_iff_label :
    disassemble linuxX86 (((SizedModule.new linuxX86 0).run linuxX86 [.type (.typeFloat 32),
      .opLabel, .addLabel ⟨2⟩, .glsl (.opSin ⟨1⟩ ⟨1⟩)]).assemble linuxX86) =
    some ⟨0, 5, ((listing linuxX86 0 [.type (.typeFloat 32), .opLabel, .addLabel ⟨2⟩,
      .glsl (.opSin ⟨1⟩ ⟨1⟩)]).all linuxX86).map Instruction.parsed⟩ := by
  refine ((disassemble_assemble_iff linuxX86).2 0 [.type (.typeFloat 32), .opLabel,
    .addLabel ⟨2⟩, .glsl (.opSin ⟨1⟩ ⟨1⟩)] (by decide) (by decide) (by decide)).mpr
      ⟨by decide, ?_⟩
  intro c member
  simp only [List.mem_cons, List.not_mem_nil, or_false] at member
  rcases member with rfl | rfl | rfl | rfl
  all_goals exact fun none => none

end Sirit
