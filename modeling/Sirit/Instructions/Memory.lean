import Sirit.Instructions.Annotation

/- instructions/memory.cpp, instructions/atomic.cpp, instructions/barrier.cpp and
   instructions/misc.cpp. -/
namespace Sirit

inductive MemoryCall where
  | opImageTexelPointer (resultType image coordinate sample : Id)
  | opLoad (resultType pointer : Id) (memoryAccess : Option U32)
  | opStore (pointer object : Id) (memoryAccess : Option U32)
  | opAccessChain (resultType base : Id) (indexes : List Id)
  | opVectorExtractDynamic (resultType vector index : Id)
  | opVectorInsertDynamic (resultType vector component index : Id)
  | opCompositeInsert (resultType object composite : Id) (indexes : List Literal)
  | opCompositeExtract (resultType composite : Id) (indexes : List Literal)
  | opCompositeConstruct (resultType : Id) (ids : List Id)

def MemoryCall.emission : MemoryCall → Emission
  | .opImageTexelPointer resultType image coordinate sample =>
      ⟨6, .typed .opImageTexelPointer resultType, [.id image, .id coordinate, .id sample]⟩
  | .opLoad resultType pointer memoryAccess =>
      ⟨5, .typed .opLoad resultType, [.id pointer] ++ optional .enum memoryAccess⟩
  | .opStore pointer object memoryAccess =>
      ⟨4, .op .opStore, [.id pointer, .id object] ++ optional .enum memoryAccess⟩
  | .opAccessChain resultType base indexes =>
      ⟨4 + indexes.length, .typed .opAccessChain resultType, [.id base] ++ span .id indexes⟩
  | .opVectorExtractDynamic resultType vector index =>
      ⟨5, .typed .opVectorExtractDynamic resultType, [.id vector, .id index]⟩
  | .opVectorInsertDynamic resultType vector component index =>
      ⟨6, .typed .opVectorInsertDynamic resultType, [.id vector, .id component, .id index]⟩
  | .opCompositeInsert resultType object composite indexes =>
      ⟨5 + indexes.length, .typed .opCompositeInsert resultType,
        [.id object, .id composite] ++ span .literal indexes⟩
  | .opCompositeExtract resultType composite indexes =>
      ⟨4 + indexes.length, .typed .opCompositeExtract resultType,
        [.id composite] ++ span .literal indexes⟩
  | .opCompositeConstruct resultType ids =>
      ⟨3 + ids.length, .typed .opCompositeConstruct resultType, span .id ids⟩

def MemoryCall.Asserts : MemoryCall → Prop
  | .opAccessChain _ _ indexes => indexes ≠ []
  | .opCompositeConstruct _ ids => 1 ≤ ids.length
  | _ => True

instance decidableMemoryCallAsserts (c : MemoryCall) : Decidable c.Asserts := by
  cases c <;> dsimp only [MemoryCall.Asserts] <;> infer_instance

inductive AtomicCall where
  | opAtomicLoad (resultType pointer memory semantics : Id)
  | opAtomicStore (pointer memory semantics value : Id)
  | opAtomicExchange (resultType pointer memory semantics value : Id)
  | opAtomicCompareExchange (resultType pointer memory equal unequal value comparator : Id)
  | opAtomicIIncrement (resultType pointer memory semantics : Id)
  | opAtomicIDecrement (resultType pointer memory semantics : Id)
  | opAtomicIAdd (resultType pointer memory semantics value : Id)
  | opAtomicISub (resultType pointer memory semantics value : Id)
  | opAtomicSMin (resultType pointer memory semantics value : Id)
  | opAtomicUMin (resultType pointer memory semantics value : Id)
  | opAtomicSMax (resultType pointer memory semantics value : Id)
  | opAtomicUMax (resultType pointer memory semantics value : Id)
  | opAtomicAnd (resultType pointer memory semantics value : Id)
  | opAtomicOr (resultType pointer memory semantics value : Id)
  | opAtomicXor (resultType pointer memory semantics value : Id)

def AtomicCall.emission : AtomicCall → Emission
  | .opAtomicLoad resultType pointer memory semantics =>
      ⟨6, .typed .opAtomicLoad resultType, [.id pointer, .id memory, .id semantics]⟩
  | .opAtomicStore pointer memory semantics value =>
      ⟨5, .bare .opAtomicStore, [.id pointer, .id memory, .id semantics, .id value]⟩
  | .opAtomicExchange resultType pointer memory semantics value =>
      ⟨7, .typed .opAtomicExchange resultType,
        [.id pointer, .id memory, .id semantics, .id value]⟩
  | .opAtomicCompareExchange resultType pointer memory equal unequal value comparator =>
      ⟨9, .typed .opAtomicCompareExchange resultType,
        [.id pointer, .id memory, .id equal, .id unequal, .id value, .id comparator]⟩
  | .opAtomicIIncrement resultType pointer memory semantics =>
      ⟨6, .typed .opAtomicIIncrement resultType, [.id pointer, .id memory, .id semantics]⟩
  | .opAtomicIDecrement resultType pointer memory semantics =>
      ⟨6, .typed .opAtomicIDecrement resultType, [.id pointer, .id memory, .id semantics]⟩
  | .opAtomicIAdd resultType pointer memory semantics value =>
      ⟨7, .typed .opAtomicIAdd resultType, [.id pointer, .id memory, .id semantics, .id value]⟩
  | .opAtomicISub resultType pointer memory semantics value =>
      ⟨7, .typed .opAtomicISub resultType, [.id pointer, .id memory, .id semantics, .id value]⟩
  | .opAtomicSMin resultType pointer memory semantics value =>
      ⟨7, .typed .opAtomicSMin resultType, [.id pointer, .id memory, .id semantics, .id value]⟩
  | .opAtomicUMin resultType pointer memory semantics value =>
      ⟨7, .typed .opAtomicUMin resultType, [.id pointer, .id memory, .id semantics, .id value]⟩
  | .opAtomicSMax resultType pointer memory semantics value =>
      ⟨7, .typed .opAtomicSMax resultType, [.id pointer, .id memory, .id semantics, .id value]⟩
  | .opAtomicUMax resultType pointer memory semantics value =>
      ⟨7, .typed .opAtomicUMax resultType, [.id pointer, .id memory, .id semantics, .id value]⟩
  | .opAtomicAnd resultType pointer memory semantics value =>
      ⟨7, .typed .opAtomicAnd resultType, [.id pointer, .id memory, .id semantics, .id value]⟩
  | .opAtomicOr resultType pointer memory semantics value =>
      ⟨7, .typed .opAtomicOr resultType, [.id pointer, .id memory, .id semantics, .id value]⟩
  | .opAtomicXor resultType pointer memory semantics value =>
      ⟨7, .typed .opAtomicXor resultType, [.id pointer, .id memory, .id semantics, .id value]⟩

inductive BarrierCall where
  | opControlBarrier (execution memory semantics : Id)
  | opMemoryBarrier (scope semantics : Id)

def BarrierCall.emission : BarrierCall → Emission
  | .opControlBarrier execution memory semantics =>
      ⟨4, .op .opControlBarrier, [.id execution, .id memory, .id semantics]⟩
  | .opMemoryBarrier scope semantics => ⟨3, .op .opMemoryBarrier, [.id scope, .id semantics]⟩

inductive MiscCall where
  | opUndef (resultType : Id)
  | opEmitVertex
  | opEndPrimitive
  | opEmitStreamVertex (stream : Id)
  | opEndStreamPrimitive (stream : Id)

def MiscCall.emission : MiscCall → Emission
  | .opUndef resultType => ⟨3, .typed .opUndef resultType, []⟩
  | .opEmitVertex => ⟨1, .op .opEmitVertex, []⟩
  | .opEndPrimitive => ⟨1, .op .opEndPrimitive, []⟩
  | .opEmitStreamVertex stream => ⟨2, .op .opEmitStreamVertex, [.id stream]⟩
  | .opEndStreamPrimitive stream => ⟨2, .op .opEndStreamPrimitive, [.id stream]⟩

def MiscCall.returned : MiscCall → Returned
  | .opUndef _ => .endOp
  | _ => .nothing

end Sirit
