import Sirit.Interleaving

/- Whether an instruction takes an id is decided by the first argument of its stream
   expression alone. The grammar of SPIR-V says for which opcodes it should. -/
namespace Sirit
open VectorCursor
variable (pf : Platform)

/-- The grammar gives every opcode the library emits a result id, but these. -/
def Op.hasResult : Op → Bool
  | .opName | .opMemberName | .opLine | .opExtension | .opMemoryModel | .opEntryPoint
  | .opExecutionMode | .opCapability | .opFunctionEnd | .opStore | .opDecorate
  | .opMemberDecorate | .opImageWrite | .opEmitVertex | .opEndPrimitive | .opEmitStreamVertex
  | .opEndStreamPrimitive | .opControlBarrier | .opMemoryBarrier | .opAtomicStore
  | .opLoopMerge | .opSelectionMerge | .opBranch | .opBranchConditional | .opSwitch | .opKill
  | .opReturn | .opReturnValue | .opUnreachable | .opTerminateInvocation
  | .opDemoteToHelperInvocation => false
  | _ => true

def parameterWords : Call → Option (List U32)
  | .addEntryPoint executionModel entryPoint name interfaces =>
      some ([executionModel, entryPoint.value] ++ stringWords pf.charSigned name ++
        interfaces.map Id.value)
  | .addExecutionMode entryPoint mode literals =>
      some ([entryPoint.value, mode] ++ literals.flatMap Literal.words)
  | .annotate (.decorate target decoration literals) =>
      some ([target.value, decoration] ++ literals.flatMap Literal.words)
  | .annotate (.memberDecorate structureType member decoration literals) =>
      some ([structureType.value] ++ member.words ++ [decoration] ++
        literals.flatMap Literal.words)
  | .debug (.name target name) => some ([target.value] ++ stringWords pf.charSigned name)
  | .debug (.memberName type member name) =>
      some ([type.value, member] ++ stringWords pf.charSigned name)
  | .debug (.opLine file line column) => some ([file.value] ++ line.words ++ column.words)
  | .flow (.opLoopMerge mergeBlock continueTarget loopControl literals) =>
      some ([mergeBlock.value, continueTarget.value, loopControl] ++ literals.map Id.value)
  | .flow (.opSelectionMerge mergeBlock selectionControl) =>
      some [mergeBlock.value, selectionControl]
  | .flow (.opBranch targetLabel) => some [targetLabel.value]
  | .flow (.opBranchConditional condition trueLabel falseLabel trueWeight falseWeight) =>
      some ([condition.value, trueLabel.value, falseLabel.value] ++
        if trueWeight = 0 ∧ falseWeight = 0 then [] else [trueWeight, falseWeight])
  | .flow (.opSwitch selector defaultLabel literals labels) =>
      some ([selector.value, defaultLabel.value] ++
        (literals.zip labels).flatMap fun arm => arm.1.words ++ [arm.2.value])
  | .flow .opReturn => some []
  | .flow .opUnreachable => some []
  | .flow (.opReturnValue value) => some [value.value]
  | .flow .opKill => some []
  | .flow .opDemoteToHelperInvocation => some []
  | .flow .opDemoteToHelperInvocationEXT => some []
  | .flow .opTerminateInvocation => some []
  | .flow .opFunctionEnd => some []
  | .memory (.opStore pointer object memoryAccess) =>
      some ([pointer.value, object.value] ++ memoryAccess.toList)
  | .atomic (.opAtomicStore pointer memory semantics value) =>
      some [pointer.value, memory.value, semantics.value, value.value]
  | .barrier (.opControlBarrier execution memory semantics) =>
      some [execution.value, memory.value, semantics.value]
  | .barrier (.opMemoryBarrier scope semantics) => some [scope.value, semantics.value]
  | .misc .opEmitVertex => some []
  | .misc .opEndPrimitive => some []
  | .misc (.opEmitStreamVertex stream) => some [stream.value]
  | .misc (.opEndStreamPrimitive stream) => some [stream.value]
  | .image (.opImageWrite image coordinate texel imageOperands operands) =>
      some ([image.value, coordinate.value, texel.value] ++ imageOperands.toList ++
        operands.map Id.value)
  | _ => none

def Call.IsAtomicStore : Call → Prop
  | .atomic (.opAtomicStore _ _ _ _) => True
  | _ => False

instance decidableCallIsAtomicStore (c : Call) : Decidable c.IsAtomicStore := by
  unfold Call.IsAtomicStore
  split <;> infer_instance

/-- The call changes one stream of the module and nothing else of it, and what it appends
    there is a header with the number of words, and these words. -/
def AppendsOnly (m : Module) (c : Call) (sec : Section) (o : Op) (words : List U32) : Prop :=
  ∃ s : Stream, (m.exec pf c).2 = m.setStream sec s ∧
    s.written = (m.stream sec).written ++ makeWord0 (pf.op o) (words.length + 1) :: words

theorem appendsOnly_op {c : Call} {sec : Section} {e : Emission} {returned : Returned} {o : Op}
    (action : c.action = .emit sec e returned) (bare : e.head = .op o) (m : Module) :
    AppendsOnly pf m c sec o (operandWords pf e.operands) := by
  refine ⟨((m.stream sec).emit pf e m.bound).2.1, ?_, ?_⟩
  · have counter := congrArg Prod.snd ((m.stream sec).emit_op pf bare m.bound)
    simp only [Module.exec, action, Module.perform, Module.emit, counter]
    cases sec <;> rfl
  · rw [Stream.written_emit]
    simp [Emission.instruction, bare, Instruction.words, Instruction.tail, typeWords]

theorem Module.bound_setStream (m : Module) (sec : Section) (s : Stream) :
    (m.setStream sec s).bound = m.bound := by
  cases sec <;> rfl

theorem not_appendsOnly_opId {c : Call} {sec : Section} {e : Emission} {returned : Returned}
    {op : OpId} (action : c.action = .emit sec e returned) (head : e.head = .opId op)
    (m : Module) (o : Op) (words : List U32) : ¬ AppendsOnly pf m c sec o words := by
  rintro ⟨s, whole, _⟩
  have counter := congrArg Module.bound whole
  have raised := Stream.emit_bound pf e (m.stream sec) m.bound
  simp only [Emission.nextBound, head] at raised
  simp only [Module.exec, action, Module.perform, Module.emit, Module.bound_setStream, raised]
    at counter
  bv_omega

theorem operandWords_weights (trueWeight falseWeight : U32) :
    operandWords pf (if ¬ trueWeight = 0#32 ∨ ¬ falseWeight = 0#32 then
        [.u32 trueWeight, .u32 falseWeight] else []) =
      if trueWeight = 0#32 ∧ falseWeight = 0#32 then [] else [trueWeight, falseWeight] := by
  rw [if_congr not_and_or.symm rfl rfl, ite_not]
  split <;> rfl

theorem parameterWords_eq {c : Call} {sec : Section} {e : Emission} {returned : Returned}
    (action : c.action = .emit sec e returned) (resultless : e.head.opcode.hasResult = false) :
    parameterWords pf c = some (operandWords pf e.operands) ∧
      if c.IsAtomicStore then ∃ op, e.head = .opId op else ∃ o, e.head = .op o := by
  cases c with
  | addEntryPoint executionModel entryPoint name interfaces =>
    cases action
    simp [parameterWords, Call.IsAtomicStore, Sirit.addEntryPoint, Operand.words]
  | addExecutionMode entryPoint mode literals =>
    cases action
    simp [parameterWords, Call.IsAtomicStore, Sirit.addExecutionMode, Operand.words]
  | annotate c =>
    cases c <;> cases action <;>
      simp [parameterWords, Call.IsAtomicStore, AnnotationCall.emission, Operand.words]
  | debug c =>
    cases c <;> cases action <;> first
      | (cases resultless; done)
      | simp [parameterWords, Call.IsAtomicStore, DebugCall.emission, Operand.words]
  | flow c =>
    cases c <;> cases action <;> first
      | (cases resultless; done)
      | simp [parameterWords, Call.IsAtomicStore, FlowCall.emission, Operand.words,
          opDemoteToHelperInvocation, operandWords_weights, operandWords_arms]
  | memory c =>
    cases c <;> cases action <;> first
      | (cases resultless; done)
      | simp [parameterWords, Call.IsAtomicStore, MemoryCall.emission, Operand.words]
  | atomic c =>
    cases c <;> cases action <;> first
      | (cases resultless; done)
      | simp [parameterWords, Call.IsAtomicStore, AtomicCall.emission, Operand.words, Head.bare]
  | barrier c =>
    cases c <;> cases action <;>
      simp [parameterWords, Call.IsAtomicStore, BarrierCall.emission, Operand.words]
  | misc c =>
    cases c <;> cases action <;> first
      | (cases resultless; done)
      | simp [parameterWords, Call.IsAtomicStore, MiscCall.emission, Operand.words]
  | image c =>
    cases c <;> cases action <;> first
      | (cases resultless; done)
      | simp [parameterWords, Call.IsAtomicStore, ImageCall.emission, Operand.words]
  | addLocalVariable _ _ _ | addGlobalVariable _ _ _ | opExtInst _ _ _ _ =>
    cases action
    cases resultless
  | arithmetic c | conversion c | derivatives c | logical c | bit c | group c =>
    cases c <;> cases action <;> cases resultless
  | _ => cases action

/-- A call whose opcode has no result id leaves the counter and every other stream alone,
    and appends its header and its parameters, exactly when it is not `OpAtomicStore`. -/
theorem resultless_appends_only_iff (m : Module) (c : Call) {sec : Section} {e : Emission}
    {returned : Returned} (action : c.action = .emit sec e returned)
    (resultless : e.head.opcode.hasResult = false) :
    ∃ words, parameterWords pf c = some words ∧
      (AppendsOnly pf m c sec e.head.opcode words ↔ ¬ c.IsAtomicStore) := by
  obtain ⟨streamed, head⟩ := parameterWords_eq pf action resultless
  refine ⟨_, streamed, ?_⟩
  by_cases store : c.IsAtomicStore
  · rw [if_pos store] at head
    obtain ⟨op, head⟩ := head
    exact iff_of_false (not_appendsOnly_opId pf action head m _ _) (not_not_intro store)
  · rw [if_neg store] at head
    obtain ⟨o, head⟩ := head
    refine iff_of_true ?_ store
    rw [head]
    exact appendsOnly_op pf action head m

theorem resultless_appends_only_iff_switch : ∃ words,
    parameterWords linuxX86 (.flow (.opSwitch ⟨1⟩ ⟨2⟩ [.u32 7, .u64 8] [⟨3⟩, ⟨4⟩])) =
        some words ∧
      (AppendsOnly linuxX86 (Module.new linuxX86 0)
          (.flow (.opSwitch ⟨1⟩ ⟨2⟩ [.u32 7, .u64 8] [⟨3⟩, ⟨4⟩])) .code .opSwitch words ↔
        ¬ (Call.flow (.opSwitch ⟨1⟩ ⟨2⟩ [.u32 7, .u64 8] [⟨3⟩, ⟨4⟩])).IsAtomicStore) := by
  have action : (Call.flow (.opSwitch ⟨1⟩ ⟨2⟩ [.u32 7, .u64 8] [⟨3⟩, ⟨4⟩])).action =
    .emit .code (FlowCall.opSwitch ⟨1⟩ ⟨2⟩ [.u32 7, .u64 8] [⟨3⟩, ⟨4⟩]).emission .endOp := rfl
  have covered := resultless_appends_only_iff linuxX86 (Module.new linuxX86 0) _ action rfl
  exact covered

/-- `OpAtomicStore` takes an id, and streams it before the pointer. -/
theorem atomic_store_takes_id : ¬ ∀ (pf : Platform) (m : Module) (c : Call) (sec : Section)
    (e : Emission) (returned : Returned), c.action = .emit sec e returned →
    e.head.opcode.hasResult = false →
    ∃ words, parameterWords pf c = some words ∧
      AppendsOnly pf m c sec e.head.opcode words := by
  intro always
  obtain ⟨words, _, s, whole, _⟩ := always linuxX86 (Module.new linuxX86 0)
    (.atomic (.opAtomicStore ⟨1⟩ ⟨2⟩ ⟨3⟩ ⟨4⟩)) .code _ .endOp rfl rfl
  have counter : (1 : U32) = 0 := congrArg Module.bound whole
  exact absurd counter (by decide)

end Sirit
