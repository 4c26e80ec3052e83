import Mathlib.Logic.Function.Basic
import Sirit.Reservation
import Sirit.StdVector

/- The module with its word vectors as they are: what a method stores past the end of one is
   cleared when the vector next grows. `Module` takes every vector as large enough; here it
   is shown that the ids are the same in every run, and the words as well until a store
   misses its vector. -/
namespace Sirit
open StdVector VectorCursor

structure SizedStream extends Memory U32 where
  opIndex : Nat
  opened : opIndex ≤ insertIndex

theorem SizedStream.opened_new : 0 ≤ (Memory.empty : Memory U32).insertIndex := Nat.le_refl 0

def SizedStream.new : SizedStream :=
  { Memory.empty with opIndex := 0, opened := SizedStream.opened_new }

def SizedStream.reserve (numWords : Nat) (s : SizedStream) : SizedStream :=
  { s.toMemory.reserve 0 numWords with
    opIndex := s.opIndex
    opened := by rw [Memory.insertIndex_reserve]; exact s.opened }

def SizedStream.localAddress (s : SizedStream) : U32 := BitVec.ofNat 32 s.size

def SizedStream.value (index : U32) (s : SizedStream) : U32 := s.cells.getD index.toNat 0

def SizedStream.setValue (index value : U32) (s : SizedStream) : SizedStream :=
  { s.toMemory.store index.toNat value with opIndex := s.opIndex, opened := s.opened }

def SizedStream.putAll (vs : List U32) (s : SizedStream) : SizedStream :=
  { s.toMemory.putAll vs with
    opIndex := s.opIndex
    opened := by
      rw [Memory.insertIndex_putAll]
      exact Nat.le_trans s.opened (Nat.le_add_right _ _) }

def SizedStream.putOp (pf : Platform) (op : Op) (s : SizedStream) : SizedStream :=
  { s.toMemory.put (pf.op op) with
    opIndex := s.insertIndex
    opened := Nat.le_succ _ }

def SizedStream.putOpId (pf : Platform) (op : OpId) (s : SizedStream) (bound : U32) :
    SizedStream × U32 :=
  let s := s.putOp pf op.opcode
  let s := if op.resultType.value ≠ 0 then s.putAll [op.resultType.value] else s
  (s.putAll [bound + 1], bound + 1)

def SizedStream.endOp (bound : U32) (s : SizedStream) : Id × SizedStream :=
  let numWords := s.insertIndex - s.opIndex
  (⟨bound⟩, { s.toMemory.modify s.opIndex (· ||| BitVec.ofNat 32 numWords <<< 16) with
    opIndex := s.opIndex
    opened := s.opened })

def SizedStream.insert (pf : Platform) (s : SizedStream) (o : Operand) : SizedStream :=
  s.putAll (o.words pf)

def SizedStream.putHead (pf : Platform) (head : Head) (s : SizedStream) (bound : U32) :
    SizedStream × U32 :=
  match head with
  | .op op => (s.putOp pf op, bound)
  | .opId op => s.putOpId pf op bound

def SizedStream.emit (pf : Platform) (e : Emission) (s : SizedStream) (bound : U32) :
    Id × SizedStream × U32 :=
  let r := (s.reserve e.reserved).putHead pf e.head bound
  let t := (e.operands.foldl (SizedStream.insert pf) r.1).endOp r.2
  (t.1, t.2, r.2)

structure SizedDeclarations where
  stream : SizedStream
  existingDeclarations : List (List U32 × U32)
  idIndex : Nat

def SizedDeclarations.new : SizedDeclarations := ⟨SizedStream.new, [], 0⟩

def SizedDeclarations.putOpId (pf : Platform) (op : OpId) (d : SizedDeclarations)
    (bound : U32) : SizedDeclarations × U32 :=
  let r := d.stream.putOpId pf op bound
  ({ d with idIndex := if op.resultType.value ≠ 0 then 2 else 1, stream := r.1 }, r.2)

/-- The key is copied from memory, also from behind the vector. -/
def SizedDeclarations.endOp (bound : U32) (d : SizedDeclarations) :
    Id × SizedDeclarations × U32 :=
  let s := d.stream
  let declarations := (s.cells.drop s.opIndex).take (s.insertIndex - s.opIndex)
  let id := declarations.getD d.idIndex 0
  let declarations := declarations.set d.idIndex 0
  match d.existingDeclarations.lookup declarations with
  | none =>
      let r := s.endOp bound
      (r.1, { d with
        stream := r.2
        existingDeclarations := d.existingDeclarations ++ [(declarations, id)] }, bound)
  | some entry =>
      (⟨entry⟩, { d with
        stream := { s.toMemory.rewind s.opIndex s.opened with
          opIndex := s.opIndex
          opened := Nat.le_refl _ } }, bound - 1)

def SizedDeclarations.declare (pf : Platform) (e : Declaration) (d : SizedDeclarations)
    (bound : U32) : Id × SizedDeclarations × U32 :=
  let d := { d with stream := d.stream.reserve e.reserved }
  let r := d.putOpId pf e.opId bound
  let d := { r.1 with stream := e.operands.foldl (SizedStream.insert pf) r.1.stream }
  d.endOp r.2

structure SizedModule where
  version : U32
  bound : U32
  extensions : List (List U8)
  capabilities : List U32
  glslStd450 : Option Id
  addressingModel : U32
  memoryModel : U32
  streams : Section → SizedStream
  declarations : SizedDeclarations
  deferredPhiNodes : List U32

def SizedModule.new (pf : Platform) (version : U32) : SizedModule where
  version := version
  bound := 0
  extensions := []
  capabilities := []
  glslStd450 := none
  addressingModel := pf.logical
  memoryModel := pf.glsl450
  streams := fun _ => SizedStream.new
  declarations := SizedDeclarations.new
  deferredPhiNodes := []

def SizedModule.setStream (sec : Section) (s : SizedStream) (m : SizedModule) : SizedModule :=
  { m with streams := Function.update m.streams sec s }

def SizedModule.emit (pf : Platform) (sec : Section) (e : Emission) (m : SizedModule) :
    Id × SizedModule :=
  let r := (m.streams sec).emit pf e m.bound
  (r.1, { m.setStream sec r.2.1 with bound := r.2.2 })

def SizedModule.declare (pf : Platform) (e : Declaration) (m : SizedModule) :
    Id × SizedModule :=
  let r := m.declarations.declare pf e m.bound
  (r.1, { m with declarations := r.2.1, bound := r.2.2 })

def SizedModule.deferredOpPhi (pf : Platform) (resultType : Id) (blocks : List Id)
    (m : SizedModule) : Id × SizedModule :=
  let m := { m with
    deferredPhiNodes := m.deferredPhiNodes ++ [(m.streams .code).localAddress] }
  m.emit pf .code (Sirit.deferredOpPhi resultType blocks)

def SizedModule.opLabel (m : SizedModule) : Id × SizedModule :=
  (⟨m.bound + 1⟩, { m with bound := m.bound + 1 })

def SizedModule.addLabel (pf : Platform) (label : Id) (m : SizedModule) : SizedModule :=
  m.setStream .code (((m.streams .code).reserve 2).putAll
    [makeWord0 (pf.op .opLabel) 2, label.value])

def SizedModule.getGLSLstd450 (pf : Platform) (m : SizedModule) : Id × SizedModule :=
  match m.glslStd450 with
  | some id => (id, m)
  | none =>
      let r := m.emit pf .extInstImports glslStd450Import
      (r.1, { r.2 with glslStd450 := some r.1 })

def SizedModule.opGlsl (pf : Platform) (inst : GlslInst) (m : SizedModule) : Id × SizedModule :=
  let r := m.getGLSLstd450 pf
  r.2.emit pf .code (opExtInst inst.resultType r.1 (pf.glslStd450 inst.opcode) inst.operands)

def SizedModule.addExtension (extensionName : List U8) (m : SizedModule) : SizedModule :=
  { m with extensions := Runs.addNew extensionName m.extensions }

def SizedModule.addCapability (capability : U32) (m : SizedModule) : SizedModule :=
  { m with capabilities := Runs.addNew capability m.capabilities }

def SizedModule.setMemoryModel (addressingModel memoryModel : U32) (m : SizedModule) :
    SizedModule :=
  { m with addressingModel := addressingModel, memoryModel := memoryModel }

def SizedStream.patchArguments (func : PhiFunc) :
    Nat → Nat → U32 → List Nat → SizedStream → List Nat × SizedStream
  | 0, _, _, log, code => (log, code)
  | more + 1, arg, cursor, log, code =>
      SizedStream.patchArguments func more (arg + 1) (cursor + 2) (log ++ [arg])
        (code.setValue cursor (func (log ++ [arg])).value)

def SizedStream.patchPhi (func : PhiFunc) (r : List Nat × SizedStream) (phiIndex : U32) :
    List Nat × SizedStream :=
  let firstWord := r.2.value phiIndex
  let numWords := firstWord >>> 16
  let numArgs := (numWords - 3) / 2
  SizedStream.patchArguments func numArgs.toNat 0 (phiIndex + 3) r.1 r.2

def SizedModule.patchDeferredPhi (func : PhiFunc) (m : SizedModule) :
    List Nat × SizedModule :=
  let r := m.deferredPhiNodes.foldl (SizedStream.patchPhi func) ([], m.streams .code)
  (r.1, m.setStream .code r.2)

def SizedModule.perform (pf : Platform) (a : Action) (m : SizedModule) :
    Option Id × SizedModule :=
  match a with
  | .emit sec e returned => (returned.value (m.emit pf sec e).1, (m.emit pf sec e).2)
  | .declare e => (some (m.declare pf e).1, (m.declare pf e).2)
  | .deferPhi resultType blocks =>
      (some (m.deferredOpPhi pf resultType blocks).1, (m.deferredOpPhi pf resultType blocks).2)
  | .glsl inst => (some (m.opGlsl pf inst).1, (m.opGlsl pf inst).2)
  | .addLabel label => (some label, m.addLabel pf label)
  | .opLabel => (some m.opLabel.1, m.opLabel.2)
  | .addExtension extensionName => (none, m.addExtension extensionName)
  | .addCapability capability => (none, m.addCapability capability)
  | .setMemoryModel addressingModel memoryModel =>
      (none, m.setMemoryModel addressingModel memoryModel)
  | .patch func => (none, (m.patchDeferredPhi func).2)

def SizedModule.exec (pf : Platform) (c : Call) (m : SizedModule) : Option Id × SizedModule :=
  m.perform pf c.action

def SizedModule.run (pf : Platform) (m : SizedModule) (calls : List Call) : SizedModule :=
  Runs.run (SizedModule.exec pf) m calls

def SizedModule.trace (pf : Platform) (m : SizedModule) (calls : List Call) :
    List (Call × Option Id) := Runs.trace (SizedModule.exec pf) m calls

def SizedModule.assemble (pf : Platform) (m : SizedModule) : List U32 :=
  let words := [pf.magicNumber, m.version, generatorMagicNumber, m.bound + 1, 0]
  let words := (pf.capabilityOrder m.capabilities).foldl
    (fun words capability => words ++ [makeWord0 (pf.op .opCapability) 2, capability]) words
  let words := (pf.extensionOrder m.extensions).foldl (insertExtension pf) words
  let words := words ++ (m.streams .extInstImports).written
  let words := words ++
    [makeWord0 (pf.op .opMemoryModel) 3, m.addressingModel, m.memoryModel]
  let words := words ++ (m.streams .entryPoints).written
  let words := words ++ (m.streams .executionModes).written
  let words := words ++ (m.streams .debug).written
  let words := words ++ (m.streams .annotations).written
  let words := words ++ m.declarations.stream.written
  let words := words ++ (m.streams .globalVariables).written
  words ++ (m.streams .code).written

def SizedModule.missed (m : SizedModule) : Nat :=
  (m.streams .extInstImports).missed + (m.streams .entryPoints).missed +
    (m.streams .executionModes).missed + (m.streams .debug).missed +
    (m.streams .annotations).missed + m.declarations.stream.missed +
    (m.streams .globalVariables).missed + (m.streams .code).missed

end Sirit
