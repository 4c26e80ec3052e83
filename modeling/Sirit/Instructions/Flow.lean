import Sirit.Instructions.Annotation

/- instructions/flow.cpp and instructions/function.cpp. -/
namespace Sirit

def opPhi (resultType : Id) (operands : List Id) : Emission :=
  ⟨3 + operands.length, .typed .opPhi resultType, span .id operands⟩

/-- The variable of every block is left zero for `PatchDeferredPhi`. -/
def deferredOpPhi (resultType : Id) (blocks : List Id) : Emission :=
  ⟨3 + blocks.length * 2, .typed .opPhi resultType,
    blocks.flatMap fun block => [.u32 0, .id block]⟩

inductive FlowCall where
  | opPhi (resultType : Id) (operands : List Id)
  | opLoopMerge (mergeBlock continueTarget : Id) (loopControl : U32) (literals : List Id)
  | opSelectionMerge (mergeBlock : Id) (selectionControl : U32)
  | opBranch (targetLabel : Id)
  | opBranchConditional (condition trueLabel falseLabel : Id) (trueWeight falseWeight : U32)
  | opSwitch (selector defaultLabel : Id) (literals : List Literal) (labels : List Id)
  | opReturn
  | opUnreachable
  | opReturnValue (value : Id)
  | opKill
  | opDemoteToHelperInvocation
  | opDemoteToHelperInvocationEXT
  | opTerminateInvocation
  | opFunction (resultType : Id) (functionControl : U32) (functionType : Id)
  | opFunctionEnd
  | opFunctionCall (resultType function : Id) (arguments : List Id)
  | opFunctionParameter (resultType : Id)

def opDemoteToHelperInvocation : Emission := ⟨1, .op .opDemoteToHelperInvocation, []⟩

def FlowCall.emission : FlowCall → Emission
  | .opPhi resultType operands => Sirit.opPhi resultType operands
  | .opLoopMerge mergeBlock continueTarget loopControl literals =>
      ⟨4 + literals.length, .op .opLoopMerge,
        [.id mergeBlock, .id continueTarget, .enum loopControl] ++ span .id literals⟩
  | .opSelectionMerge mergeBlock selectionControl =>
      ⟨3, .op .opSelectionMerge, [.id mergeBlock, .enum selectionControl]⟩
  | .opBranch targetLabel => ⟨2, .op .opBranch, [.id targetLabel]⟩
  | .opBranchConditional condition trueLabel falseLabel trueWeight falseWeight =>
      ⟨6, .op .opBranchConditional, [.id condition, .id trueLabel, .id falseLabel] ++
        if trueWeight ≠ 0 ∨ falseWeight ≠ 0 then [.u32 trueWeight, .u32 falseWeight] else []⟩
  | .opSwitch selector defaultLabel literals labels =>
      ⟨3 + literals.length * 2, .op .opSwitch, [.id selector, .id defaultLabel] ++
        (literals.zip labels).flatMap fun arm => [.literal arm.1, .id arm.2]⟩
  | .opReturn => ⟨1, .op .opReturn, []⟩
  | .opUnreachable => ⟨1, .op .opUnreachable, []⟩
  | .opReturnValue value => ⟨2, .op .opReturnValue, [.id value]⟩
  | .opKill => ⟨1, .op .opKill, []⟩
  | .opDemoteToHelperInvocation => Sirit.opDemoteToHelperInvocation
  | .opDemoteToHelperInvocationEXT => Sirit.opDemoteToHelperInvocation
  | .opTerminateInvocation => ⟨1, .op .opTerminateInvocation, []⟩
  | .opFunction resultType functionControl functionType =>
      ⟨5, .typed .opFunction resultType, [.enum functionControl, .id functionType]⟩
  | .opFunctionEnd => ⟨1, .op .opFunctionEnd, []⟩
  | .opFunctionCall resultType function arguments =>
      ⟨4 + arguments.length, .typed .opFunctionCall resultType,
        [.id function] ++ span .id arguments⟩
  | .opFunctionParameter resultType => ⟨3, .typed .opFunctionParameter resultType, []⟩

def FlowCall.returned : FlowCall → Returned
  | .opReturn | .opUnreachable | .opKill | .opDemoteToHelperInvocation
  | .opDemoteToHelperInvocationEXT | .opTerminateInvocation | .opFunctionEnd => .nothing
  | _ => .endOp

def FlowCall.Asserts : FlowCall → Prop
  | .opPhi _ operands => operands.length % 2 = 0
  | .opSwitch _ _ literals labels => literals.length = labels.length
  | _ => True

instance decidableFlowCallAsserts (c : FlowCall) : Decidable c.Asserts := by
  cases c <;> dsimp only [FlowCall.Asserts] <;> infer_instance

end Sirit
