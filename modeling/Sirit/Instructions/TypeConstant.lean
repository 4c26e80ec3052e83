import Sirit.Stream

/- instructions/type.cpp and instructions/constant.cpp: every method is one stream
   expression on the declarations. -/
namespace Sirit

inductive TypeCall where
  | typeVoid
  | typeBool
  | typeInt (width : BitVec 32) (isSigned : Bool)
  | typeSInt (width : BitVec 32)
  | typeUInt (width : BitVec 32)
  | typeFloat (width : BitVec 32)
  | typeVector (componentType : Id) (componentCount : BitVec 32)
  | typeMatrix (columnType : Id) (columnCount : BitVec 32)
  | typeImage (sampledType : Id) (dim : U32) (depth : BitVec 32) (arrayed ms : Bool)
      (sampled : BitVec 32) (imageFormat : U32) (accessQualifier : Option U32)
  | typeSampler
  | typeSampledImage (imageType : Id)
  | typeArray (elementType length : Id)
  | typeRuntimeArray (elementType : Id)
  | typeStruct (members : List Id)
  | typeOpaque (name : List U8)
  | typePointer (storageClass : U32) (type : Id)
  | typeFunction (returnType : Id) (arguments : List Id)
  | typeEvent
  | typeDeviceEvent
  | typeReserveId
  | typeQueue
  | typePipe (accessQualifier : U32)

def typeInt (width : BitVec 32) (isSigned : Bool) : Declaration :=
  ⟨4, .bare .opTypeInt, [.s32 width, .bool isSigned]⟩

def TypeCall.declaration : TypeCall → Declaration
  | .typeVoid => ⟨2, .bare .opTypeVoid, []⟩
  | .typeBool => ⟨2, .bare .opTypeBool, []⟩
  | .typeInt width isSigned => Sirit.typeInt width isSigned
  | .typeSInt width => Sirit.typeInt width true
  | .typeUInt width => Sirit.typeInt width false
  | .typeFloat width => ⟨3, .bare .opTypeFloat, [.s32 width]⟩
  | .typeVector componentType componentCount =>
      ⟨4, .bare .opTypeVector, [.id componentType, .s32 componentCount]⟩
  | .typeMatrix columnType columnCount =>
      ⟨4, .bare .opTypeMatrix, [.id columnType, .s32 columnCount]⟩
  | .typeImage sampledType dim depth arrayed ms sampled imageFormat accessQualifier =>
      ⟨10, .bare .opTypeImage, [.id sampledType, .enum dim, .s32 depth, .bool arrayed, .bool ms,
        .s32 sampled, .enum imageFormat] ++ optional .enum accessQualifier⟩
  | .typeSampler => ⟨2, .bare .opTypeSampler, []⟩
  | .typeSampledImage imageType => ⟨3, .bare .opTypeSampledImage, [.id imageType]⟩
  | .typeArray elementType length => ⟨4, .bare .opTypeArray, [.id elementType, .id length]⟩
  | .typeRuntimeArray elementType => ⟨3, .bare .opTypeRuntimeArray, [.id elementType]⟩
  | .typeStruct members => ⟨2 + members.length, .bare .opTypeStruct, span .id members⟩
  | .typeOpaque name => ⟨3 + wordsInString name, .bare .opTypeOpaque, [.string name]⟩
  | .typePointer storageClass type => ⟨4, .bare .opTypePointer, [.enum storageClass, .id type]⟩
  | .typeFunction returnType arguments =>
      ⟨3 + arguments.length, .bare .opTypeFunction, [.id returnType] ++ span .id arguments⟩
  | .typeEvent => ⟨2, .bare .opTypeEvent, []⟩
  | .typeDeviceEvent => ⟨2, .bare .opTypeDeviceEvent, []⟩
  | .typeReserveId => ⟨2, .bare .opTypeReserveId, []⟩
  | .typeQueue => ⟨2, .bare .opTypeQueue, []⟩
  | .typePipe accessQualifier => ⟨2, .bare .opTypePipe, [.enum accessQualifier]⟩

def TypeCall.Asserts : TypeCall → Prop
  | .typeVector _ componentCount => 2 ≤ componentCount.toInt
  | .typeMatrix _ columnCount => 2 ≤ columnCount.toInt
  | _ => True

instance decidableTypeCallAsserts (c : TypeCall) : Decidable c.Asserts := by
  cases c <;> dsimp only [TypeCall.Asserts] <;> infer_instance

inductive ConstantCall where
  | constantTrue (resultType : Id)
  | constantFalse (resultType : Id)
  | constant (resultType : Id) (literal : Literal)
  | constantComposite (resultType : Id) (constituents : List Id)
  | constantSampler (resultType : Id) (addressingMode : U32) (normalized : Bool)
      (filterMode : U32)
  | constantNull (resultType : Id)

def ConstantCall.declaration : ConstantCall → Declaration
  | .constantTrue resultType => ⟨3, .typed .opConstantTrue resultType, []⟩
  | .constantFalse resultType => ⟨3, .typed .opConstantFalse resultType, []⟩
  | .constant resultType literal => ⟨3 + 2, .typed .opConstant resultType, [.literal literal]⟩
  | .constantComposite resultType constituents =>
      ⟨3 + constituents.length, .typed .opConstantComposite resultType, span .id constituents⟩
  | .constantSampler resultType addressingMode normalized filterMode =>
      ⟨6, .typed .opConstantSampler resultType,
        [.enum addressingMode, .bool normalized, .enum filterMode]⟩
  | .constantNull resultType => ⟨3, .typed .opConstantNull resultType, []⟩

end Sirit
