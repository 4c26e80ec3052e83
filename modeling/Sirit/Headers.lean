import Mathlib.Data.List.Basic

/- Machine integers, identifiers and literals of the public interface, and what the
   library takes from outside its own sources: the enumerants of SPIRV-Headers, the
   signedness of plain char and the iteration order of the standard hash sets. -/
namespace Sirit

abbrev U8 := BitVec 8
abbrev U32 := BitVec 32
abbrev U64 := BitVec 64

structure Id where
  value : U32
  deriving DecidableEq, Repr

/-- Signed values are their two's complement patterns, floating-point values their
    bit patterns. -/
inductive Literal where
  | u32 (value : U32)
  | u64 (value : U64)
  | s32 (value : BitVec 32)
  | s64 (value : BitVec 64)
  | float (bits : U32)
  | double (bits : U64)
  deriving DecidableEq, Repr

def Literal.Wide : Literal → Prop
  | .u32 _ | .s32 _ | .float _ => False
  | .u64 _ | .s64 _ | .double _ => True

instance decidableLiteralWide (l : Literal) : Decidable l.Wide := by
  cases l <;> simp only [Literal.Wide] <;> infer_instance

/-- The enumerants of `spv::Op` the library emits, in the order of their values. -/
inductive Op where
  | opUndef | opName | opMemberName | opString | opLine | opExtension | opExtInstImport
  | opExtInst | opMemoryModel | opEntryPoint | opExecutionMode | opCapability | opTypeVoid
  | opTypeBool | opTypeInt | opTypeFloat | opTypeVector | opTypeMatrix | opTypeImage
  | opTypeSampler | opTypeSampledImage | opTypeArray | opTypeRuntimeArray | opTypeStruct
  | opTypeOpaque | opTypePointer | opTypeFunction | opTypeEvent | opTypeDeviceEvent
  | opTypeReserveId | opTypeQueue | opTypePipe | opConstantTrue | opConstantFalse | opConstant
  | opConstantComposite | opConstantSampler | opConstantNull | opFunction | opFunctionParameter
  | opFunctionEnd | opFunctionCall | opVariable | opImageTexelPointer | opLoad | opStore
  | opAccessChain | opDecorate | opMemberDecorate | opVectorExtractDynamic
  | opVectorInsertDynamic | opCompositeConstruct | opCompositeExtract | opCompositeInsert
  | opSampledImage | opImageSampleImplicitLod | opImageSampleExplicitLod
  | opImageSampleDrefImplicitLod | opImageSampleDrefExplicitLod | opImageSampleProjImplicitLod
  | opImageSampleProjExplicitLod | opImageSampleProjDrefImplicitLod
  | opImageSampleProjDrefExplicitLod | opImageFetch | opImageGather | opImageDrefGather
  | opImageRead | opImageWrite | opImage | opImageQuerySizeLod | opImageQuerySize
  | opImageQueryLod | opImageQueryLevels | opImageQuerySamples | opConvertFToU | opConvertFToS
  | opConvertSToF | opConvertUToF | opUConvert | opSConvert | opFConvert | opQuantizeToF16
  | opBitcast | opSNegate | opFNegate | opIAdd | opFAdd | opISub | opFSub | opIMul | opFMul
  | opUDiv | opSDiv | opFDiv | opUMod | opSRem | opSMod | opFRem | opFMod | opIAddCarry | opAny
  | opAll | opIsNan | opIsInf | opLogicalEqual | opLogicalNotEqual | opLogicalOr | opLogicalAnd
  | opLogicalNot | opSelect | opIEqual | opINotEqual | opUGreaterThan | opSGreaterThan
  | opUGreaterThanEqual | opSGreaterThanEqual | opULessThan | opSLessThan | opULessThanEqual
  | opSLessThanEqual | opFOrdEqual | opFUnordEqual | opFOrdNotEqual | opFUnordNotEqual
  | opFOrdLessThan | opFUnordLessThan | opFOrdGreaterThan | opFUnordGreaterThan
  | opFOrdLessThanEqual | opFUnordLessThanEqual | opFOrdGreaterThanEqual
  | opFUnordGreaterThanEqual | opShiftRightLogical | opShiftRightArithmetic
  | opShiftLeftLogical | opBitwiseOr | opBitwiseXor | opBitwiseAnd | opNot | opBitFieldInsert
  | opBitFieldSExtract | opBitFieldUExtract | opBitReverse | opBitCount | opDPdx | opDPdy
  | opFwidth | opDPdxFine | opDPdyFine | opFwidthFine | opDPdxCoarse | opDPdyCoarse
  | opFwidthCoarse | opEmitVertex | opEndPrimitive | opEmitStreamVertex | opEndStreamPrimitive
  | opControlBarrier | opMemoryBarrier | opAtomicLoad | opAtomicStore | opAtomicExchange
  | opAtomicCompareExchange | opAtomicIIncrement | opAtomicIDecrement | opAtomicIAdd
  | opAtomicISub | opAtomicSMin | opAtomicUMin | opAtomicSMax | opAtomicUMax | opAtomicAnd
  | opAtomicOr | opAtomicXor | opPhi | opLoopMerge | opSelectionMerge | opLabel | opBranch
  | opBranchConditional | opSwitch | opKill | opReturn | opReturnValue | opUnreachable
  | opImageSparseSampleImplicitLod | opImageSparseSampleExplicitLod
  | opImageSparseSampleDrefImplicitLod | opImageSparseSampleDrefExplicitLod
  | opImageSparseFetch | opImageSparseGather | opImageSparseDrefGather
  | opImageSparseTexelsResident | opImageSparseRead | opGroupNonUniformAll
  | opGroupNonUniformAny | opGroupNonUniformAllEqual | opGroupNonUniformBroadcast
  | opGroupNonUniformBallot | opGroupNonUniformShuffle | opGroupNonUniformShuffleXor
  | opTerminateInvocation | opSubgroupBallotKHR | opSubgroupAllKHR | opSubgroupAnyKHR
  | opSubgroupAllEqualKHR | opSubgroupReadInvocationKHR | opDemoteToHelperInvocation
  deriving DecidableEq

inductive GLSLstd450 where
  | fAbs | sAbs | round | roundEven | trunc | fSign | sSign | floor | ceil | fract | sin | cos
  | asin | acos | pow | exp | log | exp2 | log2 | sqrt | inverseSqrt | fMin | uMin | sMin
  | fMax | uMax | sMax | fClamp | uClamp | sClamp | fma | packHalf2x16 | unpackHalf2x16
  | findILsb | findSMsb | findUMsb | interpolateAtCentroid | interpolateAtSample
  | interpolateAtOffset
  deriving DecidableEq

/-- What the library is compiled against. SPIR-V opcodes are distinct and occupy the low
    half of an instruction's first word; a hash set is iterated once over each element. -/
structure Platform where
  opcode : Op → BitVec 16
  opcode_injective : Function.Injective opcode
  glslStd450 : GLSLstd450 → U32
  magicNumber : U32
  logical : U32
  glsl450 : U32
  charSigned : Bool
  capabilityOrder : List U32 → List U32
  capabilityOrder_perm : ∀ cs, (capabilityOrder cs).Perm cs
  extensionOrder : List (List U8) → List (List U8)
  extensionOrder_perm : ∀ es, (extensionOrder es).Perm es

def Platform.op (pf : Platform) (o : Op) : U32 := (pf.opcode o).setWidth 32

theorem Platform.op_injective (pf : Platform) : Function.Injective pf.op := by
  intro a b same
  apply pf.opcode_injective
  have narrow := congrArg (BitVec.setWidth 16) same
  simpa [Platform.op] using narrow

def unified1Opcode : Op → BitVec 16
  | .opUndef => 1 | .opName => 5 | .opMemberName => 6 | .opString => 7 | .opLine => 8
  | .opExtension => 10 | .opExtInstImport => 11 | .opExtInst => 12 | .opMemoryModel => 14
  | .opEntryPoint => 15 | .opExecutionMode => 16 | .opCapability => 17 | .opTypeVoid => 19
  | .opTypeBool => 20 | .opTypeInt => 21 | .opTypeFloat => 22 | .opTypeVector => 23
  | .opTypeMatrix => 24 | .opTypeImage => 25 | .opTypeSampler => 26 | .opTypeSampledImage => 27
  | .opTypeArray => 28 | .opTypeRuntimeArray => 29 | .opTypeStruct => 30 | .opTypeOpaque => 31
  | .opTypePointer => 32 | .opTypeFunction => 33 | .opTypeEvent => 34
  | .opTypeDeviceEvent => 35 | .opTypeReserveId => 36 | .opTypeQueue => 37 | .opTypePipe => 38
  | .opConstantTrue => 41 | .opConstantFalse => 42 | .opConstant => 43
  | .opConstantComposite => 44 | .opConstantSampler => 45 | .opConstantNull => 46
  | .opFunction => 54 | .opFunctionParameter => 55 | .opFunctionEnd => 56
  | .opFunctionCall => 57 | .opVariable => 59 | .opImageTexelPointer => 60 | .opLoad => 61
  | .opStore => 62 | .opAccessChain => 65 | .opDecorate => 71 | .opMemberDecorate => 72
  | .opVectorExtractDynamic => 77 | .opVectorInsertDynamic => 78 | .opCompositeConstruct => 80
  | .opCompositeExtract => 81 | .opCompositeInsert => 82 | .opSampledImage => 86
  | .opImageSampleImplicitLod => 87 | .opImageSampleExplicitLod => 88
  | .opImageSampleDrefImplicitLod => 89 | .opImageSampleDrefExplicitLod => 90
  | .opImageSampleProjImplicitLod => 91 | .opImageSampleProjExplicitLod => 92
  | .opImageSampleProjDrefImplicitLod => 93 | .opImageSampleProjDrefExplicitLod => 94
  | .opImageFetch => 95 | .opImageGather => 96 | .opImageDrefGather => 97 | .opImageRead => 98
  | .opImageWrite => 99 | .opImage => 100 | .opImageQuerySizeLod => 103
  | .opImageQuerySize => 104 | .opImageQueryLod => 105 | .opImageQueryLevels => 106
  | .opImageQuerySamples => 107 | .opConvertFToU => 109 | .opConvertFToS => 110
  | .opConvertSToF => 111 | .opConvertUToF => 112 | .opUConvert => 113 | .opSConvert => 114
  | .opFConvert => 115 | .opQuantizeToF16 => 116 | .opBitcast => 124 | .opSNegate => 126
  | .opFNegate => 127 | .opIAdd => 128 | .opFAdd => 129 | .opISub => 130 | .opFSub => 131
  | .opIMul => 132 | .opFMul => 133 | .opUDiv => 134 | .opSDiv => 135 | .opFDiv => 136
  | .opUMod => 137 | .opSRem => 138 | .opSMod => 139 | .opFRem => 140 | .opFMod => 141
  | .opIAddCarry => 149 | .opAny => 154 | .opAll => 155 | .opIsNan => 156 | .opIsInf => 157
  | .opLogicalEqual => 164 | .opLogicalNotEqual => 165 | .opLogicalOr => 166
  | .opLogicalAnd => 167 | .opLogicalNot => 168 | .opSelect => 169 | .opIEqual => 170
  | .opINotEqual => 171 | .opUGreaterThan => 172 | .opSGreaterThan => 173
  | .opUGreaterThanEqual => 174 | .opSGreaterThanEqual => 175 | .opULessThan => 176
  | .opSLessThan => 177 | .opULessThanEqual => 178 | .opSLessThanEqual => 179
  | .opFOrdEqual => 180 | .opFUnordEqual => 181 | .opFOrdNotEqual => 182
  | .opFUnordNotEqual => 183 | .opFOrdLessThan => 184 | .opFUnordLessThan => 185
  | .opFOrdGreaterThan => 186 | .opFUnordGreaterThan => 187 | .opFOrdLessThanEqual => 188
  | .opFUnordLessThanEqual => 189 | .opFOrdGreaterThanEqual => 190
  | .opFUnordGreaterThanEqual => 191 | .opShiftRightLogical => 194
  | .opShiftRightArithmetic => 195 | .opShiftLeftLogical => 196 | .opBitwiseOr => 197
  | .opBitwiseXor => 198 | .opBitwiseAnd => 199 | .opNot => 200 | .opBitFieldInsert => 201
  | .opBitFieldSExtract => 202 | .opBitFieldUExtract => 203 | .opBitReverse => 204
  | .opBitCount => 205 | .opDPdx => 207 | .opDPdy => 208 | .opFwidth => 209
  | .opDPdxFine => 210 | .opDPdyFine => 211 | .opFwidthFine => 212 | .opDPdxCoarse => 213
  | .opDPdyCoarse => 214 | .opFwidthCoarse => 215 | .opEmitVertex => 218
  | .opEndPrimitive => 219 | .opEmitStreamVertex => 220 | .opEndStreamPrimitive => 221
  | .opControlBarrier => 224 | .opMemoryBarrier => 225 | .opAtomicLoad => 227
  | .opAtomicStore => 228 | .opAtomicExchange => 229 | .opAtomicCompareExchange => 230
  | .opAtomicIIncrement => 232 | .opAtomicIDecrement => 233 | .opAtomicIAdd => 234
  | .opAtomicISub => 235 | .opAtomicSMin => 236 | .opAtomicUMin => 237 | .opAtomicSMax => 238
  | .opAtomicUMax => 239 | .opAtomicAnd => 240 | .opAtomicOr => 241 | .opAtomicXor => 242
  | .opPhi => 245 | .opLoopMerge => 246 | .opSelectionMerge => 247 | .opLabel => 248
  | .opBranch => 249 | .opBranchConditional => 250 | .opSwitch => 251 | .opKill => 252
  | .opReturn => 253 | .opReturnValue => 254 | .opUnreachable => 255
  | .opImageSparseSampleImplicitLod => 305 | .opImageSparseSampleExplicitLod => 306
  | .opImageSparseSampleDrefImplicitLod => 307 | .opImageSparseSampleDrefExplicitLod => 308
  | .opImageSparseFetch => 313 | .opImageSparseGather => 314 | .opImageSparseDrefGather => 315
  | .opImageSparseTexelsResident => 316 | .opImageSparseRead => 320
  | .opGroupNonUniformAll => 334 | .opGroupNonUniformAny => 335
  | .opGroupNonUniformAllEqual => 336 | .opGroupNonUniformBroadcast => 337
  | .opGroupNonUniformBallot => 339 | .opGroupNonUniformShuffle => 345
  | .opGroupNonUniformShuffleXor => 346 | .opTerminateInvocation => 4416
  | .opSubgroupBallotKHR => 4421 | .opSubgroupAllKHR => 4428 | .opSubgroupAnyKHR => 4429
  | .opSubgroupAllEqualKHR => 4430 | .opSubgroupReadInvocationKHR => 4432
  | .opDemoteToHelperInvocation => 5380

def unified1Glsl : GLSLstd450 → U32
  | .fAbs => 4 | .sAbs => 5 | .round => 1 | .roundEven => 2 | .trunc => 3 | .fSign => 6
  | .sSign => 7 | .floor => 8 | .ceil => 9 | .fract => 10 | .sin => 13 | .cos => 14
  | .asin => 16 | .acos => 17 | .pow => 26 | .exp => 27 | .log => 28 | .exp2 => 29
  | .log2 => 30 | .sqrt => 31 | .inverseSqrt => 32 | .fMin => 37 | .uMin => 38 | .sMin => 39
  | .fMax => 40 | .uMax => 41 | .sMax => 42 | .fClamp => 43 | .uClamp => 44 | .sClamp => 45
  | .fma => 50 | .packHalf2x16 => 58 | .unpackHalf2x16 => 62 | .findILsb => 73
  | .findSMsb => 74 | .findUMsb => 75 | .interpolateAtCentroid => 76
  | .interpolateAtSample => 77 | .interpolateAtOffset => 78

def unified1Index (c : BitVec 16) : Nat :=
  (List.range 208).countP fun i => decide ((unified1Opcode (Op.ofNat i)).toNat < c.toNat)

theorem unified1Index_opcode (o : Op) : unified1Index (unified1Opcode o) = o.ctorIdx := by
  have all : ∀ i < 208, unified1Index (unified1Opcode (Op.ofNat i)) = i := by decide +kernel
  have listed : o.ctorIdx < 208 := by cases o <;> decide
  have found := all o.ctorIdx listed
  rwa [Op.ofNat_ctorIdx] at found

theorem unified1Opcode_injective : Function.Injective unified1Opcode := by
  intro a b same
  rw [← Op.ofNat_ctorIdx a, ← Op.ofNat_ctorIdx b, ← unified1Index_opcode a,
    ← unified1Index_opcode b, same]

/-- A target with signed plain char whose hash sets keep insertion order. -/
def linuxX86 : Platform where
  opcode := unified1Opcode
  opcode_injective := unified1Opcode_injective
  glslStd450 := unified1Glsl
  magicNumber := 0x07230203
  logical := 0
  glsl450 := 1
  charSigned := true
  capabilityOrder := id
  capabilityOrder_perm := List.Perm.refl
  extensionOrder := id
  extensionOrder_perm := List.Perm.refl

end Sirit
