import Sirit.Stream

/- instructions/arithmetic.cpp, instructions/conversion.cpp, instructions/derivatives.cpp,
   instructions/logical.cpp, instructions/bit.cpp and instructions/group.cpp. The first
   four define their methods by macros of the same bodies. -/
namespace Sirit

def defineUnary (opcode : Op) (resultType operand : Id) : Emission :=
  ⟨4, .typed opcode resultType, [.id operand]⟩

def defineBinary (opcode : Op) (resultType operand1 operand2 : Id) : Emission :=
  ⟨5, .typed opcode resultType, [.id operand1, .id operand2]⟩

def defineTrinary (opcode : Op) (resultType operand1 operand2 operand3 : Id) : Emission :=
  ⟨6, .typed opcode resultType, [.id operand1, .id operand2, .id operand3]⟩

inductive ArithmeticCall where
  | opSNegate (resultType operand : Id)
  | opFNegate (resultType operand : Id)
  | opIAdd (resultType operand1 operand2 : Id)
  | opFAdd (resultType operand1 operand2 : Id)
  | opISub (resultType operand1 operand2 : Id)
  | opFSub (resultType operand1 operand2 : Id)
  | opIMul (resultType operand1 operand2 : Id)
  | opFMul (resultType operand1 operand2 : Id)
  | opUDiv (resultType operand1 operand2 : Id)
  | opSDiv (resultType operand1 operand2 : Id)
  | opFDiv (resultType operand1 operand2 : Id)
  | opUMod (resultType operand1 operand2 : Id)
  | opSMod (resultType operand1 operand2 : Id)
  | opFMod (resultType operand1 operand2 : Id)
  | opSRem (resultType operand1 operand2 : Id)
  | opFRem (resultType operand1 operand2 : Id)
  | opIAddCarry (resultType operand1 operand2 : Id)

def ArithmeticCall.emission : ArithmeticCall → Emission
  | .opSNegate t a => defineUnary .opSNegate t a
  | .opFNegate t a => defineUnary .opFNegate t a
  | .opIAdd t a b => defineBinary .opIAdd t a b
  | .opFAdd t a b => defineBinary .opFAdd t a b
  | .opISub t a b => defineBinary .opISub t a b
  | .opFSub t a b => defineBinary .opFSub t a b
  | .opIMul t a b => defineBinary .opIMul t a b
  | .opFMul t a b => defineBinary .opFMul t a b
  | .opUDiv t a b => defineBinary .opUDiv t a b
  | .opSDiv t a b => defineBinary .opSDiv t a b
  | .opFDiv t a b => defineBinary .opFDiv t a b
  | .opUMod t a b => defineBinary .opUMod t a b
  | .opSMod t a b => defineBinary .opSMod t a b
  | .opFMod t a b => defineBinary .opFMod t a b
  | .opSRem t a b => defineBinary .opSRem t a b
  | .opFRem t a b => defineBinary .opFRem t a b
  | .opIAddCarry t a b => defineBinary .opIAddCarry t a b

inductive ConversionCall where
  | opConvertFToU (resultType operand : Id)
  | opConvertFToS (resultType operand : Id)
  | opConvertSToF (resultType operand : Id)
  | opConvertUToF (resultType operand : Id)
  | opUConvert (resultType operand : Id)
  | opSConvert (resultType operand : Id)
  | opFConvert (resultType operand : Id)
  | opQuantizeToF16 (resultType operand : Id)
  | opBitcast (resultType operand : Id)

def ConversionCall.emission : ConversionCall → Emission
  | .opConvertFToU t a => defineUnary .opConvertFToU t a
  | .opConvertFToS t a => defineUnary .opConvertFToS t a
  | .opConvertSToF t a => defineUnary .opConvertSToF t a
  | .opConvertUToF t a => defineUnary .opConvertUToF t a
  | .opUConvert t a => defineUnary .opUConvert t a
  | .opSConvert t a => defineUnary .opSConvert t a
  | .opFConvert t a => defineUnary .opFConvert t a
  | .opQuantizeToF16 t a => defineUnary .opQuantizeToF16 t a
  | .opBitcast t a => defineUnary .opBitcast t a

inductive DerivativesCall where
  | opDPdx (resultType operand : Id)
  | opDPdy (resultType operand : Id)
  | opFwidth (resultType operand : Id)
  | opDPdxFine (resultType operand : Id)
  | opDPdyFine (resultType operand : Id)
  | opFwidthFine (resultType operand : Id)
  | opDPdxCoarse (resultType operand : Id)
  | opDPdyCoarse (resultType operand : Id)
  | opFwidthCoarse (resultType operand : Id)

def DerivativesCall.emission : DerivativesCall → Emission
  | .opDPdx t a => defineUnary .opDPdx t a
  | .opDPdy t a => defineUnary .opDPdy t a
  | .opFwidth t a => defineUnary .opFwidth t a
  | .opDPdxFine t a => defineUnary .opDPdxFine t a
  | .opDPdyFine t a => defineUnary .opDPdyFine t a
  | .opFwidthFine t a => defineUnary .opFwidthFine t a
  | .opDPdxCoarse t a => defineUnary .opDPdxCoarse t a
  | .opDPdyCoarse t a => defineUnary .opDPdyCoarse t a
  | .opFwidthCoarse t a => defineUnary .opFwidthCoarse t a

inductive LogicalCall where
  | opAny (resultType operand : Id)
  | opAll (resultType operand : Id)
  | opIsNan (resultType operand : Id)
  | opIsInf (resultType operand : Id)
  | opLogicalEqual (resultType operand1 operand2 : Id)
  | opLogicalNotEqual (resultType operand1 operand2 : Id)
  | opLogicalOr (resultType operand1 operand2 : Id)
  | opLogicalAnd (resultType operand1 operand2 : Id)
  | opLogicalNot (resultType operand : Id)
  | opSelect (resultType operand1 operand2 operand3 : Id)
  | opIEqual (resultType operand1 operand2 : Id)
  | opINotEqual (resultType operand1 operand2 : Id)
  | opUGreaterThan (resultType operand1 operand2 : Id)
  | opSGreaterThan (resultType operand1 operand2 : Id)
  | opUGreaterThanEqual (resultType operand1 operand2 : Id)
  | opSGreaterThanEqual (resultType operand1 operand2 : Id)
  | opULessThan (resultType operand1 operand2 : Id)
  | opSLessThan (resultType operand1 operand2 : Id)
  | opULessThanEqual (resultType operand1 operand2 : Id)
  | opSLessThanEqual (resultType operand1 operand2 : Id)
  | opFOrdEqual (resultType operand1 operand2 : Id)
  | opFUnordEqual (resultType operand1 operand2 : Id)
  | opFOrdNotEqual (resultType operand1 operand2 : Id)
  | opFUnordNotEqual (resultType operand1 operand2 : Id)
  | opFOrdLessThan (resultType operand1 operand2 : Id)
  | opFUnordLessThan (resultType operand1 operand2 : Id)
  | opFOrdGreaterThan (resultType operand1 operand2 : Id)
  | opFUnordGreaterThan (resultType operand1 operand2 : Id)
  | opFOrdLessThanEqual (resultType operand1 operand2 : Id)
  | opFUnordLessThanEqual (resultType operand1 operand2 : Id)
  | opFOrdGreaterThanEqual (resultType operand1 operand2 : Id)
  | opFUnordGreaterThanEqual (resultType operand1 operand2 : Id)

def LogicalCall.emission : LogicalCall → Emission
  | .opAny t a => defineUnary .opAny t a
  | .opAll t a => defineUnary .opAll t a
  | .opIsNan t a => defineUnary .opIsNan t a
  | .opIsInf t a => defineUnary .opIsInf t a
  | .opLogicalEqual t a b => defineBinary .opLogicalEqual t a b
  | .opLogicalNotEqual t a b => defineBinary .opLogicalNotEqual t a b
  | .opLogicalOr t a b => defineBinary .opLogicalOr t a b
  | .opLogicalAnd t a b => defineBinary .opLogicalAnd t a b
  | .opLogicalNot t a => defineUnary .opLogicalNot t a
  | .opSelect t a b c => defineTrinary .opSelect t a b c
  | .opIEqual t a b => defineBinary .opIEqual t a b
  | .opINotEqual t a b => defineBinary .opINotEqual t a b
  | .opUGreaterThan t a b => defineBinary .opUGreaterThan t a b
  | .opSGreaterThan t a b => defineBinary .opSGreaterThan t a b
  | .opUGreaterThanEqual t a b => defineBinary .opUGreaterThanEqual t a b
  | .opSGreaterThanEqual t a b => defineBinary .opSGreaterThanEqual t a b
  | .opULessThan t a b => defineBinary .opULessThan t a b
  | .opSLessThan t a b => defineBinary .opSLessThan t a b
  | .opULessThanEqual t a b => defineBinary .opULessThanEqual t a b
  | .opSLessThanEqual t a b => defineBinary .opSLessThanEqual t a b
  | .opFOrdEqual t a b => defineBinary .opFOrdEqual t a b
  | .opFUnordEqual t a b => defineBinary .opFUnordEqual t a b
  | .opFOrdNotEqual t a b => defineBinary .opFOrdNotEqual t a b
  | .opFUnordNotEqual t a b => defineBinary .opFUnordNotEqual t a b
  | .opFOrdLessThan t a b => defineBinary .opFOrdLessThan t a b
  | .opFUnordLessThan t a b => defineBinary .opFUnordLessThan t a b
  | .opFOrdGreaterThan t a b => defineBinary .opFOrdGreaterThan t a b
  | .opFUnordGreaterThan t a b => defineBinary .opFUnordGreaterThan t a b
  | .opFOrdLessThanEqual t a b => defineBinary .opFOrdLessThanEqual t a b
  | .opFUnordLessThanEqual t a b => defineBinary .opFUnordLessThanEqual t a b
  | .opFOrdGreaterThanEqual t a b => defineBinary .opFOrdGreaterThanEqual t a b
  | .opFUnordGreaterThanEqual t a b => defineBinary .opFUnordGreaterThanEqual t a b

inductive BitCall where
  | opShiftRightLogical (resultType base shift : Id)
  | opShiftRightArithmetic (resultType base shift : Id)
  | opShiftLeftLogical (resultType base shift : Id)
  | opBitwiseOr (resultType operand1 operand2 : Id)
  | opBitwiseXor (resultType operand1 operand2 : Id)
  | opBitwiseAnd (resultType operand1 operand2 : Id)
  | opNot (resultType operand : Id)
  | opBitFieldInsert (resultType base insert offset count : Id)
  | opBitFieldSExtract (resultType base offset count : Id)
  | opBitFieldUExtract (resultType base offset count : Id)
  | opBitReverse (resultType base : Id)
  | opBitCount (resultType base : Id)

def BitCall.emission : BitCall → Emission
  | .opShiftRightLogical resultType base shift =>
      ⟨5, .typed .opShiftRightLogical resultType, [.id base, .id shift]⟩
  | .opShiftRightArithmetic resultType base shift =>
      ⟨5, .typed .opShiftRightArithmetic resultType, [.id base, .id shift]⟩
  | .opShiftLeftLogical resultType base shift =>
      ⟨5, .typed .opShiftLeftLogical resultType, [.id base, .id shift]⟩
  | .opBitwiseOr resultType operand1 operand2 =>
      ⟨5, .typed .opBitwiseOr resultType, [.id operand1, .id operand2]⟩
  | .opBitwiseXor resultType operand1 operand2 =>
      ⟨5, .typed .opBitwiseXor resultType, [.id operand1, .id operand2]⟩
  | .opBitwiseAnd resultType operand1 operand2 =>
      ⟨5, .typed .opBitwiseAnd resultType, [.id operand1, .id operand2]⟩
  | .opNot resultType operand => ⟨4, .typed .opNot resultType, [.id operand]⟩
  | .opBitFieldInsert resultType base insert offset count =>
      ⟨7, .typed .opBitFieldInsert resultType, [.id base, .id insert, .id offset, .id count]⟩
  | .opBitFieldSExtract resultType base offset count =>
      ⟨6, .typed .opBitFieldSExtract resultType, [.id base, .id offset, .id count]⟩
  | .opBitFieldUExtract resultType base offset count =>
      ⟨6, .typed .opBitFieldUExtract resultType, [.id base, .id offset, .id count]⟩
  | .opBitReverse resultType base => ⟨4, .typed .opBitReverse resultType, [.id base]⟩
  | .opBitCount resultType base => ⟨4, .typed .opBitCount resultType, [.id base]⟩

inductive GroupCall where
  | opSubgroupBallotKHR (resultType predicate : Id)
  | opSubgroupReadInvocationKHR (resultType value index : Id)
  | opSubgroupAllKHR (resultType predicate : Id)
  | opSubgroupAnyKHR (resultType predicate : Id)
  | opSubgroupAllEqualKHR (resultType predicate : Id)
  | opGroupNonUniformBroadcast (resultType scope value id : Id)
  | opGroupNonUniformShuffle (resultType scope value id : Id)
  | opGroupNonUniformShuffleXor (resultType scope value mask : Id)
  | opGroupNonUniformAll (resultType scope predicate : Id)
  | opGroupNonUniformAny (resultType scope predicate : Id)
  | opGroupNonUniformAllEqual (resultType scope value : Id)
  | opGroupNonUniformBallot (resultType scope predicate : Id)

def GroupCall.emission : GroupCall → Emission
  | .opSubgroupBallotKHR resultType predicate =>
      ⟨4, .typed .opSubgroupBallotKHR resultType, [.id predicate]⟩
  | .opSubgroupReadInvocationKHR resultType value index =>
      ⟨5, .typed .opSubgroupReadInvocationKHR resultType, [.id value, .id index]⟩
  | .opSubgroupAllKHR resultType predicate =>
      ⟨4, .typed .opSubgroupAllKHR resultType, [.id predicate]⟩
  | .opSubgroupAnyKHR resultType predicate =>
      ⟨4, .typed .opSubgroupAnyKHR resultType, [.id predicate]⟩
  | .opSubgroupAllEqualKHR resultType predicate =>
      ⟨4, .typed .opSubgroupAllEqualKHR resultType, [.id predicate]⟩
  | .opGroupNonUniformBroadcast resultType scope value id =>
      ⟨6, .typed .opGroupNonUniformBroadcast resultType, [.id scope, .id value, .id id]⟩
  | .opGroupNonUniformShuffle resultType scope value id =>
      ⟨6, .typed .opGroupNonUniformShuffle resultType, [.id scope, .id value, .id id]⟩
  | .opGroupNonUniformShuffleXor resultType scope value mask =>
      ⟨6, .typed .opGroupNonUniformShuffleXor resultType, [.id scope, .id value, .id mask]⟩
  | .opGroupNonUniformAll resultType scope predicate =>
      ⟨5, .typed .opGroupNonUniformAll resultType, [.id scope, .id predicate]⟩
  | .opGroupNonUniformAny resultType scope predicate =>
      ⟨5, .typed .opGroupNonUniformAny resultType, [.id scope, .id predicate]⟩
  | .opGroupNonUniformAllEqual resultType scope value =>
      ⟨5, .typed .opGroupNonUniformAllEqual resultType, [.id scope, .id value]⟩
  | .opGroupNonUniformBallot resultType scope predicate =>
      ⟨5, .typed .opGroupNonUniformBallot resultType, [.id scope, .id predicate]⟩

end Sirit
