import Sirit.Stream

/- instructions/image.cpp: the methods the macros define, then the hand-written ones. -/
namespace Sirit

def defineImageOp (opcode : Op) (resultType sampledImage coordinate : Id)
    (imageOperands : Option U32) (operands : List Id) : Emission :=
  ⟨6 + operands.length, .typed opcode resultType, [.id sampledImage, .id coordinate] ++
    optional .enum imageOperands ++ span .id operands⟩

def defineImageExpOp (opcode : Op) (resultType sampledImage coordinate : Id)
    (imageOperands : U32) (operands : List Id) : Emission :=
  ⟨6 + operands.length, .typed opcode resultType,
    [.id sampledImage, .id coordinate, .enum imageOperands] ++ span .id operands⟩

def defineImageExtraOp (opcode : Op) (resultType sampledImage coordinate extra : Id)
    (imageOperands : Option U32) (operands : List Id) : Emission :=
  ⟨7 + operands.length, .typed opcode resultType,
    [.id sampledImage, .id coordinate, .id extra] ++
    optional .enum imageOperands ++ span .id operands⟩

def defineImageExtraExpOp (opcode : Op) (resultType sampledImage coordinate extra : Id)
    (imageOperands : U32) (operands : List Id) : Emission :=
  ⟨8 + operands.length, .typed opcode resultType,
    [.id sampledImage, .id coordinate, .id extra, .enum imageOperands] ++ span .id operands⟩

def defineImageQueryOp (opcode : Op) (resultType image : Id) : Emission :=
  ⟨5, .typed opcode resultType, [.id image]⟩

def defineImageQueryBinOp (opcode : Op) (resultType image extra : Id) : Emission :=
  ⟨5, .typed opcode resultType, [.id image, .id extra]⟩

inductive ImageCall where
  | opImageSampleImplicitLod (resultType sampledImage coordinate : Id)
      (imageOperands : Option U32) (operands : List Id)
  | opImageSampleExplicitLod (resultType sampledImage coordinate : Id)
      (imageOperands : U32) (operands : List Id)
  | opImageSampleDrefImplicitLod (resultType sampledImage coordinate dref : Id)
      (imageOperands : Option U32) (operands : List Id)
  | opImageSampleDrefExplicitLod (resultType sampledImage coordinate dref : Id)
      (imageOperands : U32) (operands : List Id)
  | opImageSampleProjImplicitLod (resultType sampledImage coordinate : Id)
      (imageOperands : Option U32) (operands : List Id)
  | opImageSampleProjExplicitLod (resultType sampledImage coordinate : Id)
      (imageOperands : U32) (operands : List Id)
  | opImageSampleProjDrefImplicitLod (resultType sampledImage coordinate dref : Id)
      (imageOperands : Option U32) (operands : List Id)
  | opImageSampleProjDrefExplicitLod (resultType sampledImage coordinate dref : Id)
      (imageOperands : U32) (operands : List Id)
  | opImageFetch (resultType sampledImage coordinate : Id)
      (imageOperands : Option U32) (operands : List Id)
  | opImageGather (resultType sampledImage coordinate component : Id)
      (imageOperands : Option U32) (operands : List Id)
  | opImageDrefGather (resultType sampledImage coordinate dref : Id)
      (imageOperands : Option U32) (operands : List Id)
  | opImageRead (resultType sampledImage coordinate : Id)
      (imageOperands : Option U32) (operands : List Id)
  | opImageQuerySizeLod (resultType image levelOfDetail : Id)
  | opImageQuerySize (resultType image : Id)
  | opImageQueryLod (resultType image coordinate : Id)
  | opImageQueryLevels (resultType image : Id)
  | opImageQuerySamples (resultType image : Id)
  | opSampledImage (resultType image sampler : Id)
  | opImageWrite (image coordinate texel : Id) (imageOperands : Option U32)
      (operands : List Id)
  | opImage (resultType sampledImage : Id)
  | opImageSparseSampleImplicitLod (resultType sampledImage coordinate : Id)
      (imageOperands : Option U32) (operands : List Id)
  | opImageSparseSampleExplicitLod (resultType sampledImage coordinate : Id)
      (imageOperands : U32) (operands : List Id)
  | opImageSparseSampleDrefImplicitLod (resultType sampledImage coordinate dref : Id)
      (imageOperands : Option U32) (operands : List Id)
  | opImageSparseSampleDrefExplicitLod (resultType sampledImage coordinate dref : Id)
      (imageOperands : U32) (operands : List Id)
  | opImageSparseFetch (resultType image coordinate : Id)
      (imageOperands : Option U32) (operands : List Id)
  | opImageSparseGather (resultType sampledImage coordinate component : Id)
      (imageOperands : Option U32) (operands : List Id)
  | opImageSparseDrefGather (resultType sampledImage coordinate dref : Id)
      (imageOperands : Option U32) (operands : List Id)
  | opImageSparseTexelsResident (resultType residentCode : Id)
  | opImageSparseRead (resultType image coordinate : Id)
      (imageOperands : Option U32) (operands : List Id)

def ImageCall.emission : ImageCall → Emission
  | .opImageSampleImplicitLod t s c mask ids =>
      defineImageOp .opImageSampleImplicitLod t s c mask ids
  | .opImageSampleExplicitLod t s c mask ids =>
      defineImageExpOp .opImageSampleExplicitLod t s c mask ids
  | .opImageSampleDrefImplicitLod t s c dref mask ids =>
      defineImageExtraOp .opImageSampleDrefImplicitLod t s c dref mask ids
  | .opImageSampleDrefExplicitLod t s c dref mask ids =>
      defineImageExtraExpOp .opImageSampleDrefExplicitLod t s c dref mask ids
  | .opImageSampleProjImplicitLod t s c mask ids =>
      defineImageOp .opImageSampleProjImplicitLod t s c mask ids
  | .opImageSampleProjExplicitLod t s c mask ids =>
      defineImageExpOp .opImageSampleProjExplicitLod t s c mask ids
  | .opImageSampleProjDrefImplicitLod t s c dref mask ids =>
      defineImageExtraOp .opImageSampleProjDrefImplicitLod t s c dref mask ids
  | .opImageSampleProjDrefExplicitLod t s c dref mask ids =>
      defineImageExtraExpOp .opImageSampleProjDrefExplicitLod t s c dref mask ids
  | .opImageFetch t s c mask ids => defineImageOp .opImageFetch t s c mask ids
  | .opImageGather t s c component mask ids =>
      defineImageExtraOp .opImageGather t s c component mask ids
  | .opImageDrefGather t s c dref mask ids =>
      defineImageExtraOp .opImageDrefGather t s c dref mask ids
  | .opImageRead t s c mask ids => defineImageOp .opImageRead t s c mask ids
  | .opImageQuerySizeLod t image lod => defineImageQueryBinOp .opImageQuerySizeLod t image lod
  | .opImageQuerySize t image => defineImageQueryOp .opImageQuerySize t image
  | .opImageQueryLod t image c => defineImageQueryBinOp .opImageQueryLod t image c
  | .opImageQueryLevels t image => defineImageQueryOp .opImageQueryLevels t image
  | .opImageQuerySamples t image => defineImageQueryOp .opImageQuerySamples t image
  | .opSampledImage t image sampler =>
      ⟨5, .typed .opSampledImage t, [.id image, .id sampler]⟩
  | .opImageWrite image c texel mask ids =>
      ⟨5 + ids.length, .op .opImageWrite, [.id image, .id c, .id texel] ++
        optional .enum mask ++ span .id ids⟩
  | .opImage t s => ⟨4, .typed .opImage t, [.id s]⟩
  | .opImageSparseSampleImplicitLod t s c mask ids =>
      ⟨5 + (if mask.isSome then 1 else 0) + ids.length, .typed .opImageSparseSampleImplicitLod t,
        [.id s, .id c] ++ optional .enum mask ++ span .id ids⟩
  | .opImageSparseSampleExplicitLod t s c mask ids =>
      ⟨6 + ids.length, .typed .opImageSparseSampleExplicitLod t,
        [.id s, .id c, .enum mask] ++ span .id ids⟩
  | .opImageSparseSampleDrefImplicitLod t s c dref mask ids =>
      ⟨6 + (if mask.isSome then 1 else 0) + ids.length,
        .typed .opImageSparseSampleDrefImplicitLod t,
        [.id s, .id c, .id dref] ++ optional .enum mask ++ span .id ids⟩
  | .opImageSparseSampleDrefExplicitLod t s c dref mask ids =>
      ⟨7 + ids.length, .typed .opImageSparseSampleDrefExplicitLod t,
        [.id s, .id c, .id dref, .enum mask] ++ span .id ids⟩
  | .opImageSparseFetch t image c mask ids =>
      ⟨5 + (if mask.isSome then 1 else 0) + ids.length, .typed .opImageSparseFetch t,
        [.id image, .id c] ++ optional .enum mask ++ span .id ids⟩
  | .opImageSparseGather t s c component mask ids =>
      ⟨6 + ids.length, .typed .opImageSparseGather t,
        [.id s, .id c, .id component] ++ optional .enum mask ++ span .id ids⟩
  | .opImageSparseDrefGather t s c dref mask ids =>
      ⟨6 + ids.length, .typed .opImageSparseDrefGather t,
        [.id s, .id c, .id dref] ++ optional .enum mask ++ span .id ids⟩
  | .opImageSparseTexelsResident t code =>
      ⟨4, .typed .opImageSparseTexelsResident t, [.id code]⟩
  | .opImageSparseRead t image c mask ids =>
      ⟨5 + (if mask.isSome then 1 else 0) + ids.length, .typed .opImageSparseRead t,
        [.id image, .id c] ++ optional .enum mask ++ span .id ids⟩

def ImageCall.Asserts : ImageCall → Prop
  | .opImageWrite _ _ _ mask ids => mask.isSome ≠ ids.isEmpty
  | _ => True

instance decidableImageCallAsserts (c : ImageCall) : Decidable c.Asserts := by
  cases c <;> dsimp only [ImageCall.Asserts] <;> infer_instance

end Sirit
