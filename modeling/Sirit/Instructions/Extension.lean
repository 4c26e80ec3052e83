import Sirit.Stream

/- instructions/extension.cpp: extended instructions, and the helpers that take their
   instruction set from the module's import of GLSL.std.450. -/
namespace Sirit

def opExtInst (resultType set : Id) (instruction : U32) (operands : List Id) : Emission :=
  ⟨5 + operands.length, .typed .opExtInst resultType,
    [.id set, .u32 instruction] ++ span .id operands⟩

/-- The arguments of `OpExtInst(resultType, GetGLSLstd450(), opcode, operands...)`. -/
structure GlslInst where
  resultType : Id
  opcode : GLSLstd450
  operands : List Id

def defineGlslUnary (opcode : GLSLstd450) (resultType operand : Id) : GlslInst :=
  ⟨resultType, opcode, [operand]⟩

def defineGlslBinary (opcode : GLSLstd450) (resultType operand1 operand2 : Id) : GlslInst :=
  ⟨resultType, opcode, [operand1, operand2]⟩

def defineGlslTrinary (opcode : GLSLstd450) (resultType operand1 operand2 operand3 : Id) :
    GlslInst :=
  ⟨resultType, opcode, [operand1, operand2, operand3]⟩

inductive GlslCall where
  | opFAbs (resultType operand : Id)
  | opSAbs (resultType operand : Id)
  | opRound (resultType operand : Id)
  | opRoundEven (resultType operand : Id)
  | opTrunc (resultType operand : Id)
  | opFSign (resultType operand : Id)
  | opSSign (resultType operand : Id)
  | opFloor (resultType operand : Id)
  | opCeil (resultType operand : Id)
  | opFract (resultType operand : Id)
  | opSin (resultType operand : Id)
  | opCos (resultType operand : Id)
  | opAsin (resultType operand : Id)
  | opAcos (resultType operand : Id)
  | opPow (resultType operand1 operand2 : Id)
  | opExp (resultType operand : Id)
  | opLog (resultType operand : Id)
  | opExp2 (resultType operand : Id)
  | opLog2 (resultType operand : Id)
  | opSqrt (resultType operand : Id)
  | opInverseSqrt (resultType operand : Id)
  | opFMin (resultType operand1 operand2 : Id)
  | opUMin (resultType operand1 operand2 : Id)
  | opSMin (resultType operand1 operand2 : Id)
  | opFMax (resultType operand1 operand2 : Id)
  | opUMax (resultType operand1 operand2 : Id)
  | opSMax (resultType operand1 operand2 : Id)
  | opFClamp (resultType operand1 operand2 operand3 : Id)
  | opUClamp (resultType operand1 operand2 operand3 : Id)
  | opSClamp (resultType operand1 operand2 operand3 : Id)
  | opFma (resultType operand1 operand2 operand3 : Id)
  | opPackHalf2x16 (resultType operand : Id)
  | opUnpackHalf2x16 (resultType operand : Id)
  | opFindILsb (resultType operand : Id)
  | opFindSMsb (resultType operand : Id)
  | opFindUMsb (resultType operand : Id)
  | opInterpolateAtCentroid (resultType operand : Id)
  | opInterpolateAtSample (resultType operand1 operand2 : Id)
  | opInterpolateAtOffset (resultType operand1 operand2 : Id)

def GlslCall.inst : GlslCall → GlslInst
  | .opFAbs t a => defineGlslUnary .fAbs t a
  | .opSAbs t a => defineGlslUnary .sAbs t a
  | .opRound t a => defineGlslUnary .round t a
  | .opRoundEven t a => defineGlslUnary .roundEven t a
  | .opTrunc t a => defineGlslUnary .trunc t a
  | .opFSign t a => defineGlslUnary .fSign t a
  | .opSSign t a => defineGlslUnary .sSign t a
  | .opFloor t a => defineGlslUnary .floor t a
  | .opCeil t a => defineGlslUnary .ceil t a
  | .opFract t a => defineGlslUnary .fract t a
  | .opSin t a => defineGlslUnary .sin t a
  | .opCos t a => defineGlslUnary .cos t a
  | .opAsin t a => defineGlslUnary .asin t a
  | .opAcos t a => defineGlslUnary .acos t a
  | .opPow t a b => defineGlslBinary .pow t a b
  | .opExp t a => defineGlslUnary .exp t a
  | .opLog t a => defineGlslUnary .log t a
  | .opExp2 t a => defineGlslUnary .exp2 t a
  | .opLog2 t a => defineGlslUnary .log2 t a
  | .opSqrt t a => defineGlslUnary .sqrt t a
  | .opInverseSqrt t a => defineGlslUnary .inverseSqrt t a
  | .opFMin t a b => defineGlslBinary .fMin t a b
  | .opUMin t a b => defineGlslBinary .uMin t a b
  | .opSMin t a b => defineGlslBinary .sMin t a b
  | .opFMax t a b => defineGlslBinary .fMax t a b
  | .opUMax t a b => defineGlslBinary .uMax t a b
  | .opSMax t a b => defineGlslBinary .sMax t a b
  | .opFClamp t a b c => defineGlslTrinary .fClamp t a b c
  | .opUClamp t a b c => defineGlslTrinary .uClamp t a b c
  | .opSClamp t a b c => defineGlslTrinary .sClamp t a b c
  | .opFma t a b c => defineGlslTrinary .fma t a b c
  | .opPackHalf2x16 t a => defineGlslUnary .packHalf2x16 t a
  | .opUnpackHalf2x16 t a => defineGlslUnary .unpackHalf2x16 t a
  | .opFindILsb t a => defineGlslUnary .findILsb t a
  | .opFindSMsb t a => defineGlslUnary .findSMsb t a
  | .opFindUMsb t a => defineGlslUnary .findUMsb t a
  | .opInterpolateAtCentroid t a => defineGlslUnary .interpolateAtCentroid t a
  | .opInterpolateAtSample t a b => defineGlslBinary .interpolateAtSample t a b
  | .opInterpolateAtOffset t a b => defineGlslBinary .interpolateAtOffset t a b

end Sirit
