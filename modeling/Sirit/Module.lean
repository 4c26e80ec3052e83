import Sirit.Instructions.Arithmetic
import Sirit.Instructions.Extension
import Sirit.Instructions.Flow
import Sirit.Instructions.Image
import Sirit.Instructions.Memory
import Sirit.Instructions.TypeConstant
import Sirit.Runs

/- sirit.h and sirit.cpp: the module, its calls, runs of calls, and the assembled words. -/
namespace Sirit
open VectorCursor

/-- The plain streams, in the order `Assemble` concatenates them. -/
inductive Section where
  | extInstImports
  | entryPoints
  | executionModes
  | debug
  | annotations
  | globalVariables
  | code
  deriving DecidableEq

/-- The two hash sets are kept as their distinct elements in insertion order. -/
structure Module where
  version : U32
  bound : U32
  extensions : List (List U8)
  capabilities : List U32
  glslStd450 : Option Id
  addressingModel : U32
  memoryModel : U32
  extInstImports : Stream
  entryPoints : Stream
  executionModes : Stream
  debug : Stream
  annotations : Stream
  declarations : Declarations
  globalVariables : Stream
  code : Stream
  deferredPhiNodes : List U32

def Module.new (pf : Platform) (version : U32) : Module where
  version := version
  bound := 0
  extensions := []
  capabilities := []
  glslStd450 := none
  addressingModel := pf.logical
  memoryModel := pf.glsl450
  extInstImports := Stream.new
  entryPoints := Stream.new
  executionModes := Stream.new
  debug := Stream.new
  annotations := Stream.new
  declarations := Declarations.new
  globalVariables := Stream.new
  code := Stream.new
  deferredPhiNodes := []

def Module.stream (m : Module) : Section → Stream
  | .extInstImports => m.extInstImports
  | .entryPoints => m.entryPoints
  | .executionModes => m.executionModes
  | .debug => m.debug
  | .annotations => m.annotations
  | .globalVariables => m.globalVariables
  | .code => m.code

def Module.setStream (sec : Section) (s : Stream) (m : Module) : Module :=
  match sec with
  | .extInstImports => { m with extInstImports := s }
  | .entryPoints => { m with entryPoints := s }
  | .executionModes => { m with executionModes := s }
  | .debug => { m with debug := s }
  | .annotations => { m with annotations := s }
  | .globalVariables => { m with globalVariables := s }
  | .code => { m with code := s }

def Module.addExtension (extensionName : List U8) (m : Module) : Module :=
  if extensionName ∈ m.extensions then m
  else { m with extensions := m.extensions ++ [extensionName] }

def Module.addCapability (capability : U32) (m : Module) : Module :=
  if capability ∈ m.capabilities then m
  else { m with capabilities := m.capabilities ++ [capability] }

def Module.setMemoryModel (addressingModel memoryModel : U32) (m : Module) : Module :=
  { m with addressingModel := addressingModel, memoryModel := memoryModel }

def Module.emit (pf : Platform) (sec : Section) (e : Emission) (m : Module) : Id × Module :=
  let r := (m.stream sec).emit pf e m.bound
  (r.1, { m.setStream sec r.2.1 with bound := r.2.2 })

def Module.declare (pf : Platform) (e : Declaration) (m : Module) : Id × Module :=
  let r := m.declarations.declare pf e m.bound
  (r.1, { m with declarations := r.2.1, bound := r.2.2 })

def Module.deferredOpPhi (pf : Platform) (resultType : Id) (blocks : List Id) (m : Module) :
    Id × Module :=
  let m := { m with deferredPhiNodes := m.deferredPhiNodes ++ [m.code.localAddress] }
  m.emit pf .code (Sirit.deferredOpPhi resultType blocks)

def Module.opLabel (m : Module) : Id × Module :=
  (⟨m.bound + 1⟩, { m with bound := m.bound + 1 })

def makeWord0 (op : U32) (wordCount : Nat) : U32 := op ||| BitVec.ofNat 32 wordCount <<< 16

/-- The label is streamed as two plain words: no `EndOp` sets the word count. -/
def Module.addLabel (pf : Platform) (label : Id) (m : Module) : Module :=
  let s := m.code.reserve 2
  { m with code := (s.putU32 (makeWord0 (pf.op .opLabel) 2)).putU32 label.value }

def glslStd450Name : List U8 :=
  ['G', 'L', 'S', 'L', '.', 's', 't', 'd', '.', '4', '5', '0'].map fun c =>
    BitVec.ofNat 8 c.toNat

def glslStd450Import : Emission :=
  ⟨3 + 4, .bare .opExtInstImport, [.string glslStd450Name]⟩

def Module.getGLSLstd450 (pf : Platform) (m : Module) : Id × Module :=
  match m.glslStd450 with
  | some id => (id, m)
  | none =>
      let r := m.emit pf .extInstImports glslStd450Import
      (r.1, { r.2 with glslStd450 := some r.1 })

def Module.opGlsl (pf : Platform) (inst : GlslInst) (m : Module) : Id × Module :=
  let r := m.getGLSLstd450 pf
  r.2.emit pf .code (opExtInst inst.resultType r.1 (pf.glslStd450 inst.opcode) inst.operands)

/-- A callable with state, as the value it returns after being called with the indices of
    a list in order; its result on the last of them counts. One that calls back into the
    module it is called from is not covered. -/
abbrev PhiFunc := List Nat → Id

def patchArguments (func : PhiFunc) : Nat → Nat → U32 → List Nat → Stream → List Nat × Stream
  | 0, _, _, log, code => (log, code)
  | more + 1, arg, cursor, log, code =>
      patchArguments func more (arg + 1) (cursor + 2) (log ++ [arg])
        (code.setValue cursor (func (log ++ [arg])).value)

def patchPhi (func : PhiFunc) (r : List Nat × Stream) (phiIndex : U32) : List Nat × Stream :=
  let firstWord := r.2.value phiIndex
  let numWords := firstWord >>> 16
  let numArgs := (numWords - 3) / 2
  patchArguments func numArgs.toNat 0 (phiIndex + 3) r.1 r.2

/-- Besides the module, the indices `func` was called with, in order. -/
def Module.patchDeferredPhi (func : PhiFunc) (m : Module) : List Nat × Module :=
  let r := m.deferredPhiNodes.foldl (patchPhi func) ([], m.code)
  (r.1, { m with code := r.2 })

inductive Call where
  | addExtension (extensionName : List U8)
  | addCapability (capability : U32)
  | setMemoryModel (addressingModel memoryModel : U32)
  | addEntryPoint (executionModel : U32) (entryPoint : Id) (name : List U8)
      (interfaces : List Id)
  | addExecutionMode (entryPoint : Id) (mode : U32) (literals : List Literal)
  | addLabel (label : Id)
  | addLocalVariable (resultType : Id) (storageClass : U32) (initializer : Option Id)
  | addGlobalVariable (resultType : Id) (storageClass : U32) (initializer : Option Id)
  | patchDeferredPhi (func : PhiFunc)
  | type (c : TypeCall)
  | constant (c : ConstantCall)
  | annotate (c : AnnotationCall)
  | debug (c : DebugCall)
  | flow (c : FlowCall)
  | deferredOpPhi (resultType : Id) (blocks : List Id)
  | opLabel
  | memory (c : MemoryCall)
  | atomic (c : AtomicCall)
  | barrier (c : BarrierCall)
  | misc (c : MiscCall)
  | arithmetic (c : ArithmeticCall)
  | conversion (c : ConversionCall)
  | derivatives (c : DerivativesCall)
  | logical (c : LogicalCall)
  | bit (c : BitCall)
  | group (c : GroupCall)
  | image (c : ImageCall)
  | opExtInst (resultType set : Id) (instruction : U32) (operands : List Id)
  | glsl (c : GlslCall)

inductive DeclarationCall where
  | type (c : TypeCall)
  | constant (c : ConstantCall)

def DeclarationCall.call : DeclarationCall → Call
  | .type c => .type c
  | .constant c => .constant c

def DeclarationCall.declaration : DeclarationCall → Declaration
  | .type c => c.declaration
  | .constant c => c.declaration

/-- The few things the body of a method can do. -/
inductive Action where
  | emit (sec : Section) (e : Emission) (returned : Returned)
  | declare (e : Declaration)
  | deferPhi (resultType : Id) (blocks : List Id)
  | glsl (inst : GlslInst)
  | addLabel (label : Id)
  | opLabel
  | addExtension (extensionName : List U8)
  | addCapability (capability : U32)
  | setMemoryModel (addressingModel memoryModel : U32)
  | patch (func : PhiFunc)

def Call.action : Call → Action
  | .addExtension extensionName => .addExtension extensionName
  | .addCapability capability => .addCapability capability
  | .setMemoryModel addressingModel memoryModel => .setMemoryModel addressingModel memoryModel
  | .addEntryPoint executionModel entryPoint name interfaces =>
      .emit .entryPoints (Sirit.addEntryPoint executionModel entryPoint name interfaces) .nothing
  | .addExecutionMode entryPoint mode literals =>
      .emit .executionModes (Sirit.addExecutionMode entryPoint mode literals) .nothing
  | .addLabel label => .addLabel label
  | .addLocalVariable resultType storageClass initializer =>
      .emit .code (addVariable resultType storageClass initializer) .endOp
  | .addGlobalVariable resultType storageClass initializer =>
      .emit .globalVariables (addVariable resultType storageClass initializer) .endOp
  | .patchDeferredPhi func => .patch func
  | .type c => .declare c.declaration
  | .constant c => .declare c.declaration
  | .annotate c => .emit .annotations c.emission .endOp
  | .debug c => .emit .debug c.emission c.returned
  | .flow c => .emit .code c.emission c.returned
  | .deferredOpPhi resultType blocks => .deferPhi resultType blocks
  | .opLabel => .opLabel
  | .memory c => .emit .code c.emission .endOp
  | .atomic c => .emit .code c.emission .endOp
  | .barrier c => .emit .code c.emission .endOp
  | .misc c => .emit .code c.emission c.returned
  | .arithmetic c => .emit .code c.emission .endOp
  | .conversion c => .emit .code c.emission .endOp
  | .derivatives c => .emit .code c.emission .endOp
  | .logical c => .emit .code c.emission .endOp
  | .bit c => .emit .code c.emission .endOp
  | .group c => .emit .code c.emission .endOp
  | .image c => .emit .code c.emission .endOp
  | .opExtInst resultType set instruction operands =>
      .emit .code (Sirit.opExtInst resultType set instruction operands) .endOp
  | .glsl c => .glsl c.inst

def Action.IsPatch : Action → Prop
  | .patch _ => True
  | _ => False

instance decidableActionIsPatch (a : Action) : Decidable a.IsPatch := by
  cases a <;> dsimp only [Action.IsPatch] <;> infer_instance

theorem DeclarationCall.action_call (d : DeclarationCall) :
    d.call.action = .declare d.declaration := by
  cases d <;> rfl

/-- The asserts on the way of a call: those of the streams, then those of the method. -/
def Action.Asserts : Action → Prop
  | .emit _ e _ => e.Asserts
  | .declare e => e.Asserts
  | .deferPhi resultType blocks => (Sirit.deferredOpPhi resultType blocks).Asserts
  | .glsl inst => inst.resultType.value ≠ 0 ∧ ∀ operand ∈ inst.operands, operand.value ≠ 0
  | .addLabel label => label.value ≠ 0
  | .opLabel | .addExtension _ | .addCapability _ | .setMemoryModel _ _ | .patch _ => True

def Call.MethodAsserts : Call → Prop
  | .type c => c.Asserts
  | .flow c => c.Asserts
  | .memory c => c.Asserts
  | .image c => c.Asserts
  | _ => True

def Call.Asserts (c : Call) : Prop := c.action.Asserts ∧ c.MethodAsserts

instance decidableActionAsserts (a : Action) : Decidable a.Asserts := by
  cases a <;> dsimp only [Action.Asserts] <;> infer_instance

instance decidableCallMethodAsserts (c : Call) : Decidable c.MethodAsserts := by
  cases c <;> dsimp only [Call.MethodAsserts] <;> infer_instance

instance decidableCallAsserts (c : Call) : Decidable c.Asserts :=
  inferInstanceAs (Decidable (_ ∧ _))

def Returned.value (id : Id) : Returned → Option Id
  | .endOp => some id
  | .nothing => none
  | .argument other => some other

def Module.perform (pf : Platform) (a : Action) (m : Module) : Option Id × Module :=
  match a with
  | .emit sec e returned => (returned.value (m.emit pf sec e).1, (m.emit pf sec e).2)
  | .declare e => (some (m.declare pf e).1, (m.declare pf e).2)
  | .deferPhi resultType blocks =>
      (some (m.deferredOpPhi pf resultType blocks).1, (m.deferredOpPhi pf resultType blocks).2)
  | .glsl inst => (some (m.opGlsl pf inst).1, (m.opGlsl pf inst).2)
  | .addLabel label => (some label, m.addLabel pf label)
  | .opLabel => (some m.opLabel.1, m.opLabel.2)
  | .addExtension extensionName => (none, m.addExtension extensionName)
  | .addCapability capability => (none, m.addCapability capability)
  | .setMemoryModel addressingModel memoryModel =>
      (none, m.setMemoryModel addressingModel memoryModel)
  | .patch func => (none, (m.patchDeferredPhi func).2)

def Module.exec (pf : Platform) (c : Call) (m : Module) : Option Id × Module :=
  m.perform pf c.action

def Module.run (pf : Platform) (m : Module) (calls : List Call) : Module :=
  Runs.run (Module.exec pf) m calls

def Module.trace (pf : Platform) (m : Module) (calls : List Call) : List (Call × Option Id) :=
  Runs.trace (Module.exec pf) m calls

def Module.Throughout (pf : Platform) (P : Module → Call → Prop) (m : Module)
    (calls : List Call) : Prop := Runs.Throughout (Module.exec pf) P m calls

def generatorMagicNumber : U32 := 0

/-- The vector is grown by the words of the name before the name is written to it. -/
def insertExtension (pf : Platform) (words : List U32) (extensionName : List U8) : List U32 :=
  let stringWords := wordsInString extensionName
  let words := words ++ [makeWord0 (pf.op .opExtension) (stringWords + 1)]
  let insertIndex := words.length
  let words := words ++ List.replicate stringWords 0
  (insertStringView pf.charSigned extensionName ⟨words, insertIndex, 0, by simp [words,
    insertIndex]⟩).words

def Module.assemble (pf : Platform) (m : Module) : List U32 :=
  let words := [pf.magicNumber, m.version, generatorMagicNumber, m.bound + 1, 0]
  let words := (pf.capabilityOrder m.capabilities).foldl
    (fun words capability => words ++ [makeWord0 (pf.op .opCapability) 2, capability]) words
  let words := (pf.extensionOrder m.extensions).foldl (insertExtension pf) words
  let words := words ++ m.extInstImports.written
  let words := words ++
    [makeWord0 (pf.op .opMemoryModel) 3, m.addressingModel, m.memoryModel]
  let words := words ++ m.entryPoints.written
  let words := words ++ m.executionModes.written
  let words := words ++ m.debug.written
  let words := words ++ m.annotations.written
  let words := words ++ m.declarations.stream.written
  let words := words ++ m.globalVariables.written
  words ++ m.code.written

end Sirit
