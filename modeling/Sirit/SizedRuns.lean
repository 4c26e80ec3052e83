import Sirit.SizedModule
import Sirit.StoresInside

/- Runs of the module with its vectors as they are, against runs with ample vectors. -/
namespace Sirit
open StdVector VectorCursor
variable (pf : Platform)

theorem SizedStream.putOp_putAll (op : Op) (vs : List U32) (s : SizedStream) :
    ((s.putOp pf op).putAll vs).toMemory = s.toMemory.putAll (pf.op op :: vs) ∧
      ((s.putOp pf op).putAll vs).opIndex = s.insertIndex := ⟨rfl, rfl⟩

theorem SizedStream.putAll_append (us vs : List U32) (s : SizedStream) :
    s.putAll (us ++ vs) = (s.putAll us).putAll vs := by
  simp only [SizedStream.putAll, Memory.putAll_append]

theorem SizedStream.foldl_insert_eq (operands : List Operand) (s : SizedStream) :
    operands.foldl (SizedStream.insert pf) s = s.putAll (operandWords pf operands) := by
  induction operands generalizing s with
  | nil => rfl
  | cons o operands ih =>
    rw [List.foldl_cons, ih, SizedStream.insert, ← SizedStream.putAll_append]
    rfl

theorem SizedStream.putOpId_eq (op : OpId) (s : SizedStream) (bound : U32) :
    s.putOpId pf op bound =
      ((s.putOp pf op.opcode).putAll (typeWords op.resultType.value ++ [bound + 1]),
        bound + 1) := by
  simp only [SizedStream.putOpId, typeWords]
  split <;> rfl

theorem SizedStream.putHead_operands (e : Emission) (s : SizedStream) (bound : U32) :
    (e.operands.foldl (SizedStream.insert pf) (s.putHead pf e.head bound).1).toMemory =
        s.toMemory.putAll ((e.instruction pf bound).openWords pf) ∧
      (e.operands.foldl (SizedStream.insert pf) (s.putHead pf e.head bound).1).opIndex =
        s.insertIndex ∧
      (s.putHead pf e.head bound).2 = e.nextBound bound := by
  rw [SizedStream.foldl_insert_eq]
  cases head : e.head with
  | op op =>
    obtain ⟨memory, start⟩ := s.putOp_putAll pf op (operandWords pf e.operands)
    simp only [SizedStream.putHead, Emission.instruction, Emission.nextBound, head]
    exact ⟨memory, start, trivial⟩
  | opId op =>
    obtain ⟨memory, start⟩ := s.putOp_putAll pf op.opcode
      (typeWords op.resultType.value ++ [bound + 1] ++ operandWords pf e.operands)
    simp only [SizedStream.putHead, SizedStream.putOpId_eq, ← SizedStream.putAll_append,
      Emission.instruction, Emission.nextBound, head]
    exact ⟨memory, start, trivial⟩

theorem SizedStream.emit_eq (e : Emission) (s : SizedStream) (bound : U32) :
    (s.emit pf e bound).1 = ⟨e.nextBound bound⟩ ∧
      (s.emit pf e bound).2.1.toMemory =
        ((s.toMemory.reserve 0 e.reserved).putAll
          ((e.instruction pf bound).openWords pf)).modify s.insertIndex
            (· ||| BitVec.ofNat 32 e.width <<< 16) ∧
      (s.emit pf e bound).2.2 = e.nextBound bound := by
  obtain ⟨memory, start, counter⟩ :=
    SizedStream.putHead_operands pf e (s.reserve e.reserved) bound
  have start' : (s.reserve e.reserved).insertIndex = s.insertIndex :=
    Memory.insertIndex_reserve 0 e.reserved s.toMemory
  have long : ((e.instruction pf bound).openWords pf).length = e.width :=
    e.instruction_width pf bound
  refine ⟨?_, ?_, ?_⟩
  · simp only [SizedStream.emit, SizedStream.endOp, counter]
  · simp only [SizedStream.emit, SizedStream.endOp, memory, start, start',
      Memory.insertIndex_putAll, long]
    rw [Nat.add_sub_cancel_left]
    rfl
  · exact counter

theorem SizedStream.emit_follows {s : SizedStream} {t : Stream}
    (follows : s.toMemory.Follows t.toCursor) (e : Emission) (bound : U32) :
    (s.emit pf e bound).2.1.toMemory.Follows (t.emit pf e bound).2.1.toCursor := by
  rw [(s.emit_eq pf e bound).2.1, (t.emit_eq pf e bound).2.1, follows.insertIndex]
  exact ((follows.reserve 0 e.reserved).putAll _).modify _ _

def SizedDeclarations.opened (e : Declaration) (d : SizedDeclarations) (bound : U32) :
    SizedDeclarations :=
  let r := { d with stream := d.stream.reserve e.reserved }.putOpId pf e.opId bound
  { r.1 with stream := e.operands.foldl (SizedStream.insert pf) r.1.stream }

theorem SizedDeclarations.opened_stream (e : Declaration) (d : SizedDeclarations)
    (bound : U32) :
    (d.opened pf e bound).stream.toMemory = (d.stream.toMemory.reserve 0 e.reserved).putAll
        (((e.key pf).instruction (bound + 1)).openWords pf) ∧
      (d.opened pf e bound).stream.opIndex = d.stream.insertIndex := by
  obtain ⟨memory, start, _⟩ :=
    SizedStream.putHead_operands pf e.emission (d.stream.reserve e.reserved) bound
  exact ⟨memory, start.trans (Memory.insertIndex_reserve 0 e.reserved d.stream.toMemory)⟩

theorem SizedDeclarations.opened_slice (e : Declaration) (d : SizedDeclarations)
    (bound : U32) :
    (((d.opened pf e bound).stream.cells.drop (d.opened pf e bound).stream.opIndex).take
      ((d.opened pf e bound).stream.insertIndex - (d.opened pf e bound).stream.opIndex)) =
        ((e.key pf).instruction (bound + 1)).openWords pf := by
  obtain ⟨memory, start⟩ := d.opened_stream pf e bound
  have slice := Memory.slice_putAll (((e.key pf).instruction (bound + 1)).openWords pf)
    (d.stream.toMemory.reserve 0 e.reserved)
  rw [start, memory]
  simpa using slice

theorem SizedDeclarations.missed_declare (e : Declaration) (d : SizedDeclarations)
    (bound : U32) : (d.declare pf e bound).2.1.stream.missed =
      d.stream.missed + (e.width - max d.stream.room e.reserved) := by
  obtain ⟨memory, _⟩ := d.opened_stream pf e bound
  have long : (((e.key pf).instruction (bound + 1)).openWords pf).length = e.width :=
    e.emission.instruction_width pf bound
  have missed := congrArg Memory.missed memory
  rw [Memory.missed_putAll, Memory.missed_reserve, Memory.room_reserve, long] at missed
  refine Eq.trans ?_ missed
  have closing : d.declare pf e bound = (d.opened pf e bound).endOp (bound + 1) := rfl
  rw [closing, SizedDeclarations.endOp]
  split <;> rfl

structure SizedDeclarations.Follows (d : SizedDeclarations) (d' : Declarations) : Prop where
  stream : d.stream.toMemory.Follows d'.stream.toCursor
  existing : d.existingDeclarations = d'.existingDeclarations

theorem SizedDeclarations.Follows.declare {d : SizedDeclarations} {d' : Declarations}
    (follows : d.Follows d') (e : Declaration) (bound : U32) :
    (d.declare pf e bound).1 = (d'.declare pf e bound).1 ∧
      (d.declare pf e bound).2.2 = (d'.declare pf e bound).2.2 ∧
      (d.declare pf e bound).2.1.Follows (d'.declare pf e bound).2.1 := by
  obtain ⟨id, blank⟩ := (e.key pf).blank_openWords pf (bound + 1)
  obtain ⟨memory, start⟩ := d.opened_stream pf e bound
  obtain ⟨cursor, start'⟩ := d'.opened_stream pf e bound
  have opened : (d.opened pf e bound).stream.toMemory.Follows
      (d'.opened pf e bound).stream.toCursor := by
    rw [memory, cursor]
    exact (follows.stream.reserve 0 e.reserved).putAll _
  have index : (d.opened pf e bound).idIndex = if (e.key pf).resultType ≠ 0 then 2 else 1 := rfl
  have existing : (d.opened pf e bound).existingDeclarations = d'.existingDeclarations :=
    follows.existing
  have closing : d.declare pf e bound = (d.opened pf e bound).endOp (bound + 1) := rfl
  have same := start.trans (follows.stream.insertIndex.trans start'.symm)
  rw [closing, Declarations.declare_eq]
  simp only [SizedDeclarations.endOp, SizedDeclarations.opened_slice, index, id, blank, existing]
  cases d'.existingDeclarations.lookup ((e.key pf).words pf) with
  | none =>
    refine ⟨rfl, rfl, ?_, rfl⟩
    simp only [SizedStream.endOp, Stream.endOp, opened.insertIndex, same]
    exact opened.modify _ _
  | some entry =>
    refine ⟨rfl, BitVec.add_sub_cancel bound 1, ?_, rfl⟩
    simp only [same]
    exact opened.rewind _ _

/-- The modules agree on all but the vectors; those are the same until a store misses. -/
structure SizedModule.Follows (s : SizedModule) (m : Module) : Prop where
  version : s.version = m.version
  bound : s.bound = m.bound
  extensions : s.extensions = m.extensions
  capabilities : s.capabilities = m.capabilities
  glslStd450 : s.glslStd450 = m.glslStd450
  addressingModel : s.addressingModel = m.addressingModel
  memoryModel : s.memoryModel = m.memoryModel
  streams : ∀ sec, (s.streams sec).toMemory.Follows (m.stream sec).toCursor
  declarations : s.declarations.Follows m.declarations
  deferredPhiNodes : (s.streams .code).missed = 0 → s.deferredPhiNodes = m.deferredPhiNodes

theorem SizedModule.follows_new (version : U32) :
    (SizedModule.new pf version).Follows (Module.new pf version) where
  version := rfl
  bound := rfl
  extensions := rfl
  capabilities := rfl
  glslStd450 := rfl
  addressingModel := rfl
  memoryModel := rfl
  streams := by
    intro sec
    cases sec <;> exact Memory.same_empty.follows
  declarations := ⟨Memory.same_empty.follows, rfl⟩
  deferredPhiNodes := fun _ => rfl

theorem SizedModule.patch_keeps {I : SizedStream → Prop} (s : SizedModule) (func : PhiFunc)
    (kept : ∀ s index value, I s → I (s.setValue index value)) (before : I (s.streams .code)) :
    I (s.deferredPhiNodes.foldl (SizedStream.patchPhi func) ([], s.streams .code)).2 := by
  have loop : ∀ (more arg : Nat) (cursor : U32) (log : List Nat) (code : SizedStream), I code →
      I (SizedStream.patchArguments func more arg cursor log code).2 := by
    intro more
    induction more with
    | zero => exact fun arg cursor log code start => start
    | succ more ih => exact fun arg cursor log code start => ih _ _ _ _ (kept _ _ _ start)
  have nodes : ∀ (nodes : List U32) (r : List Nat × SizedStream), I r.2 →
      I (nodes.foldl (SizedStream.patchPhi func) r).2 := by
    intro nodes
    induction nodes with
    | nil => exact fun r start => start
    | cons node nodes ih => exact fun r start => ih _ (loop _ _ _ _ _ start)
  exact nodes s.deferredPhiNodes ([], s.streams .code) before

theorem SizedStream.same_setValue {s : SizedStream} {t : Stream}
    (same : s.toMemory.Same t.toCursor) (index value : U32) :
    (s.setValue index value).toMemory.Same (t.setValue index value).toCursor := by
  obtain ⟨cells, size, insertIndex, missed⟩ := same
  refine ⟨?_, ?_, insertIndex, ?_⟩
  · simp only [SizedStream.setValue, Stream.setValue, Memory.store, cells]
  · simp only [SizedStream.setValue, Stream.setValue, Memory.store, List.length_set, size]
  · simp only [SizedStream.setValue, Stream.setValue, Memory.store, size, missed]

theorem SizedStream.same_patchArguments (func : PhiFunc) (more arg : Nat) (cursor : U32)
    (log : List Nat) {s : SizedStream} {t : Stream} (same : s.toMemory.Same t.toCursor) :
    (SizedStream.patchArguments func more arg cursor log s).1 =
        (Sirit.patchArguments func more arg cursor log t).1 ∧
      (SizedStream.patchArguments func more arg cursor log s).2.toMemory.Same
        (Sirit.patchArguments func more arg cursor log t).2.toCursor := by
  induction more generalizing arg cursor log s t with
  | zero => exact ⟨rfl, same⟩
  | succ more ih => exact ih _ _ _ (SizedStream.same_setValue same _ _)

theorem SizedStream.same_patchPhi (func : PhiFunc) (node : U32) {r : List Nat × SizedStream}
    {r' : List Nat × Stream} (logs : r.1 = r'.1) (same : r.2.toMemory.Same r'.2.toCursor) :
    (SizedStream.patchPhi func r node).1 = (Sirit.patchPhi func r' node).1 ∧
      (SizedStream.patchPhi func r node).2.toMemory.Same
        (Sirit.patchPhi func r' node).2.toCursor := by
  have value : r.2.value node = r'.2.value node := by
    rw [SizedStream.value, Stream.value, same.cells]
  simp only [SizedStream.patchPhi, Sirit.patchPhi, value, logs]
  exact SizedStream.same_patchArguments func _ 0 (node + 3) r'.1 same

theorem SizedStream.same_patches (func : PhiFunc) (nodes : List U32)
    {r : List Nat × SizedStream} {r' : List Nat × Stream} (logs : r.1 = r'.1)
    (same : r.2.toMemory.Same r'.2.toCursor) :
    (nodes.foldl (SizedStream.patchPhi func) r).2.toMemory.Same
      (nodes.foldl (Sirit.patchPhi func) r').2.toCursor := by
  induction nodes generalizing r r' with
  | nil => exact same
  | cons node nodes ih =>
    obtain ⟨logs, after⟩ := SizedStream.same_patchPhi func node logs same
    exact ih logs after

section Step
variable {s : SizedModule} {m : Module} (follows : s.Follows m)
include follows

theorem SizedModule.Follows.kept {m' : Module} (kept : ∀ sec, m'.stream sec = m.stream sec)
    (sec : Section) : (s.streams sec).toMemory.Follows (m'.stream sec).toCursor := by
  rw [kept]
  exact follows.streams sec

theorem SizedModule.Follows.setStream (sec : Section) {t : SizedStream} {t' : Stream}
    (stream : t.toMemory.Follows t'.toCursor)
    (grows : (s.streams sec).missed ≤ t.missed) :
    (s.setStream sec t).Follows (m.setStream sec t') where
  version := by
    rw [SizedModule.setStream, follows.version]
    cases sec <;> rfl
  bound := by
    rw [SizedModule.setStream, follows.bound, Module.bound_setStream]
  extensions := by
    rw [SizedModule.setStream, follows.extensions]
    cases sec <;> rfl
  capabilities := by
    rw [SizedModule.setStream, follows.capabilities]
    cases sec <;> rfl
  glslStd450 := by
    rw [SizedModule.setStream, follows.glslStd450]
    cases sec <;> rfl
  addressingModel := by
    rw [SizedModule.setStream, follows.addressingModel]
    cases sec <;> rfl
  memoryModel := by
    rw [SizedModule.setStream, follows.memoryModel]
    cases sec <;> rfl
  streams := by
    intro other
    simp only [SizedModule.setStream, Function.update_apply, Module.stream_setStream]
    split
    · exact stream
    · exact follows.streams other
  declarations := by
    have kept : (m.setStream sec t').declarations = m.declarations := by
      cases sec <;> rfl
    rw [kept]
    exact follows.declarations
  deferredPhiNodes := by
    intro none
    have kept : (m.setStream sec t').deferredPhiNodes = m.deferredPhiNodes := by
      cases sec <;> rfl
    rw [kept]
    apply follows.deferredPhiNodes
    simp only [SizedModule.setStream, Function.update_apply] at none
    split at none
    · rename_i code
      rw [code]
      omega
    · exact none

theorem SizedModule.Follows.raise (bound : U32) :
    ({ s with bound := bound } : SizedModule).Follows { m with bound := bound } where
  version := follows.version
  bound := rfl
  extensions := follows.extensions
  capabilities := follows.capabilities
  glslStd450 := follows.glslStd450
  addressingModel := follows.addressingModel
  memoryModel := follows.memoryModel
  streams := follows.kept fun sec => by cases sec <;> rfl
  declarations := follows.declarations
  deferredPhiNodes := follows.deferredPhiNodes

theorem SizedModule.Follows.emit (sec : Section) (e : Emission) :
    (s.emit pf sec e).1 = (m.emit pf sec e).1 ∧
      (s.emit pf sec e).2.Follows (m.emit pf sec e).2 := by
  have stream := SizedStream.emit_follows pf (follows.streams sec) e m.bound
  have grows : (s.streams sec).missed ≤ ((s.streams sec).emit pf e m.bound).2.1.missed := by
    rw [((s.streams sec).emit_eq pf e m.bound).2.1]
    exact (s.streams sec).toMemory.missed_le 0 e.reserved _
  have after := (follows.setStream sec stream grows).raise (e.nextBound m.bound)
  obtain ⟨id, _, bound⟩ := (s.streams sec).emit_eq pf e m.bound
  simp only [SizedModule.emit, Module.emit, follows.bound, id, bound, Stream.emit_id,
    Stream.emit_bound]
  exact ⟨trivial, after⟩

theorem SizedModule.Follows.declare (e : Declaration) :
    (s.declare pf e).1 = (m.declare pf e).1 ∧ (s.declare pf e).2.Follows (m.declare pf e).2 := by
  obtain ⟨id, bound, after⟩ := follows.declarations.declare pf e m.bound
  simp only [SizedModule.declare, Module.declare, follows.bound, bound]
  refine ⟨id, ?_⟩
  have raised := follows.raise (m.declarations.declare pf e m.bound).2.2
  exact { raised with
    streams := follows.kept fun sec => by cases sec <;> rfl
    declarations := after }

theorem SizedModule.Follows.getGLSLstd450 :
    (s.getGLSLstd450 pf).1 = (m.getGLSLstd450 pf).1 ∧
      (s.getGLSLstd450 pf).2.Follows (m.getGLSLstd450 pf).2 := by
  unfold SizedModule.getGLSLstd450 Module.getGLSLstd450
  rw [follows.glslStd450]
  cases m.glslStd450 with
  | some id => exact ⟨rfl, follows⟩
  | none =>
    obtain ⟨id, after⟩ := follows.emit pf .extInstImports glslStd450Import
    refine ⟨id, ?_⟩
    exact { after with
      glslStd450 := congrArg some id
      streams := after.kept fun sec => by cases sec <;> rfl }

theorem SizedModule.Follows.opGlsl (inst : GlslInst) :
    (s.opGlsl pf inst).1 = (m.opGlsl pf inst).1 ∧
      (s.opGlsl pf inst).2.Follows (m.opGlsl pf inst).2 := by
  obtain ⟨set, after⟩ := follows.getGLSLstd450 pf
  unfold SizedModule.opGlsl Module.opGlsl
  simp only [set]
  exact after.emit pf .code _

theorem SizedModule.Follows.deferredOpPhi (resultType : Id) (blocks : List Id) :
    (s.deferredOpPhi pf resultType blocks).1 = (m.deferredOpPhi pf resultType blocks).1 ∧
      (s.deferredOpPhi pf resultType blocks).2.Follows
        (m.deferredOpPhi pf resultType blocks).2 := by
  have noted : SizedModule.Follows
      { s with deferredPhiNodes := s.deferredPhiNodes ++ [(s.streams .code).localAddress] }
      { m with deferredPhiNodes := m.deferredPhiNodes ++ [m.code.localAddress] } := by
    exact { follows with
      streams := follows.kept fun sec => by cases sec <;> rfl
      deferredPhiNodes := by
        intro none
        have same : (s.streams .code).toMemory.Same m.code.toCursor :=
          (follows.streams .code).same_of_missed none
        have address : (s.streams .code).localAddress = m.code.localAddress :=
          congrArg (BitVec.ofNat 32) same.size
        rw [address, follows.deferredPhiNodes none] }
  exact noted.emit pf .code _

theorem SizedModule.Follows.addLabel (label : Id) :
    (s.addLabel pf label).Follows (m.addLabel pf label) := by
  have code := ((follows.streams .code).reserve 0 2).putAll
    [makeWord0 (pf.op .opLabel) 2, label.value]
  exact follows.setStream .code code ((s.streams .code).toMemory.missed_le 0 2 _)

theorem SizedModule.Follows.patch (func : PhiFunc) :
    (s.patchDeferredPhi func).2.Follows (m.patchDeferredPhi func).2 := by
  have code := follows.streams .code
  have grows := s.patch_keeps (I := fun t => (s.streams .code).missed ≤ t.missed) func (by
    intro t index value before
    simp only [SizedStream.setValue, Memory.store]
    split <;> omega) (Nat.le_refl _)
  apply follows.setStream .code ?_ grows
  by_cases none : (s.streams .code).missed = 0
  · rw [follows.deferredPhiNodes none]
    exact (SizedStream.same_patches func m.deferredPhiNodes rfl
      (code.same_of_missed none)).follows
  · -- some store has missed, so a patch may go wrong in both, and neither forgets it
    have index := s.patch_keeps (I := fun t => t.insertIndex = (s.streams .code).insertIndex)
      func (fun _ _ _ kept => kept) rfl
    have overran : 0 < m.code.overruns :=
      Nat.pos_of_ne_zero fun inside => none (code.missed_iff.mpr inside)
    have overruns := m.patch_keeps (I := fun t => 0 < t.overruns) func (by
      intro t index value before
      simp only [Stream.setValue]
      split <;> omega) overran
    refine ⟨?_, Or.inr ⟨by omega, overruns⟩⟩
    exact index.trans (code.insertIndex.trans (m.patch_insertIndex func).symm)

theorem SizedModule.Follows.addExtension (extensionName : List U8) :
    (s.addExtension extensionName).Follows (m.addExtension extensionName) := by
  have added : m.addExtension extensionName =
      { m with extensions := Runs.addNew extensionName m.extensions } := by
    unfold Module.addExtension Runs.addNew
    split <;> rfl
  rw [added, SizedModule.addExtension, follows.extensions]
  exact { follows with
    extensions := rfl
    streams := follows.kept fun sec => by cases sec <;> rfl }

theorem SizedModule.Follows.addCapability (capability : U32) :
    (s.addCapability capability).Follows (m.addCapability capability) := by
  have added : m.addCapability capability =
      { m with capabilities := Runs.addNew capability m.capabilities } := by
    unfold Module.addCapability Runs.addNew
    split <;> rfl
  rw [added, SizedModule.addCapability, follows.capabilities]
  exact { follows with
    capabilities := rfl
    streams := follows.kept fun sec => by cases sec <;> rfl }

theorem SizedModule.Follows.exec (c : Call) : (s.exec pf c).1 = (m.exec pf c).1 ∧
    (s.exec pf c).2.Follows (m.exec pf c).2 := by
  rw [SizedModule.exec, Module.exec]
  cases c.action with
  | emit sec e returned =>
    obtain ⟨id, after⟩ := follows.emit pf sec e
    exact ⟨congrArg (fun id => returned.value id) id, after⟩
  | declare e =>
    obtain ⟨id, after⟩ := follows.declare pf e
    exact ⟨congrArg some id, after⟩
  | deferPhi resultType blocks =>
    obtain ⟨id, after⟩ := follows.deferredOpPhi pf resultType blocks
    exact ⟨congrArg some id, after⟩
  | glsl inst =>
    obtain ⟨id, after⟩ := follows.opGlsl pf inst
    exact ⟨congrArg some id, after⟩
  | addLabel label => exact ⟨rfl, follows.addLabel pf label⟩
  | opLabel =>
    have raised := follows.raise (m.bound + 1)
    simp only [SizedModule.perform, Module.perform, SizedModule.opLabel, Module.opLabel,
      follows.bound]
    exact ⟨trivial, raised⟩
  | addExtension extensionName => exact ⟨rfl, follows.addExtension extensionName⟩
  | addCapability capability => exact ⟨rfl, follows.addCapability capability⟩
  | setMemoryModel addressingModel memoryModel =>
    exact ⟨rfl, { follows with
      addressingModel := rfl
      memoryModel := rfl
      streams := follows.kept fun sec => by cases sec <;> rfl }⟩
  | patch func => exact ⟨rfl, follows.patch func⟩

end Step

/-- Every run returns the same ids with the vectors as they are. -/
theorem sized_follows (version : U32) (calls : List Call) :
    (SizedModule.new pf version).trace pf calls = (Module.new pf version).trace pf calls ∧
      ((SizedModule.new pf version).run pf calls).Follows
        ((Module.new pf version).run pf calls) := by
  have always : Runs.Throughout (SizedModule.exec pf) (fun _ _ => True)
      (SizedModule.new pf version) calls := Runs.throughout_of_forall fun _ _ _ => trivial
  exact Runs.simulation (fun s m c _ (follows : s.Follows m) => follows.exec pf c)
    (SizedModule.follows_new pf version) always

section Missed
variable {s : SizedModule} {m : Module} (follows : s.Follows m)
include follows

theorem SizedModule.Follows.missed_iff : s.missed = 0 ↔ m.overruns = 0 := by
  have extInstImports := (follows.streams .extInstImports).missed_iff
  have entryPoints := (follows.streams .entryPoints).missed_iff
  have executionModes := (follows.streams .executionModes).missed_iff
  have debug := (follows.streams .debug).missed_iff
  have annotations := (follows.streams .annotations).missed_iff
  have declarations := follows.declarations.stream.missed_iff
  have globalVariables := (follows.streams .globalVariables).missed_iff
  have code := (follows.streams .code).missed_iff
  simp only [Module.stream] at *
  simp only [SizedModule.missed, Module.overruns, Nat.add_eq_zero_iff, extInstImports,
    entryPoints, executionModes, debug, annotations, declarations, globalVariables, code]

theorem SizedModule.Follows.same (inside : s.missed = 0) (sec : Section) :
    (s.streams sec).toMemory.Same (m.stream sec).toCursor := by
  apply (follows.streams sec).same_of_missed
  simp only [SizedModule.missed, Nat.add_eq_zero_iff] at inside
  cases sec <;> simp only [inside]

theorem SizedModule.Follows.declared (inside : s.missed = 0) :
    s.declarations.stream.toMemory.Same m.declarations.stream.toCursor := by
  apply follows.declarations.stream.same_of_missed
  simp only [SizedModule.missed, Nat.add_eq_zero_iff] at inside
  simp only [inside]

/-- The words are the same if no store has missed its vector. -/
theorem SizedModule.Follows.assemble_eq (inside : s.missed = 0) :
    s.assemble pf = m.assemble pf := by
  have written : ∀ sec, (s.streams sec).written = (m.stream sec).written :=
    fun sec => (follows.same inside sec).written
  simp only [SizedModule.assemble, Module.assemble, written, (follows.declared inside).written,
    follows.version, follows.bound, follows.capabilities, follows.extensions,
    follows.addressingModel, follows.memoryModel, Module.stream]

end Missed

/-- The calls are answered as in the listing; if no store missed, its words are assembled. -/
theorem sized_listing (version : U32) {calls : List Call}
    (unpatched : ∀ c ∈ calls, ¬ c.action.IsPatch) :
    (SizedModule.new pf version).trace pf calls =
        Runs.trace (Listing.step pf) (Listing.new pf version) calls ∧
      (((SizedModule.new pf version).run pf calls).missed = 0 →
        (((SizedModule.new pf version).run pf calls).assemble pf).drop 5 =
          ((listing pf version calls).all pf).flatMap (Instruction.words pf)) := by
  obtain ⟨ideal, refines⟩ := run_refines_unpatched pf version unpatched
  obtain ⟨sized, follows⟩ := sized_follows pf version calls
  refine ⟨sized.trans ideal, ?_⟩
  intro inside
  rw [follows.assemble_eq pf inside]
  exact refines.drop_assemble

theorem SizedModule.assemble_bound (s : SizedModule) :
    (s.assemble pf)[3]? = some (s.bound + 1) := by
  simp only [SizedModule.assemble, foldl_capabilities, foldl_insertExtension, List.append_assoc]
  rfl

def SizedModule.Room (s : SizedModule) : Action → Prop
  | .emit sec e _ => e.width ≤ (s.streams sec).room
  | .declare e => e.width ≤ s.declarations.stream.room
  | _ => True

/-- No store of the call misses its vector. -/
def SizedModule.Inside (s : SizedModule) (c : Call) : Prop :=
  c.action.Fits ∨ s.Room c.action

def SizedModule.Throughout (pf : Platform) (P : SizedModule → Call → Prop) (s : SizedModule)
    (calls : List Call) : Prop := Runs.Throughout (SizedModule.exec pf) P s calls

theorem throughout_inside_of_fits (version : U32) {calls : List Call}
    (fits : ∀ c ∈ calls, c.action.Fits) :
    (SizedModule.new pf version).Throughout pf SizedModule.Inside calls :=
  Runs.throughout_of_forall fun _ c member => Or.inl (fits c member)

theorem SizedModule.Follows.room_iff {s : SizedModule} {m : Module} (follows : s.Follows m)
    (inside : s.missed = 0) (a : Action) : s.Room a ↔ m.Room a := by
  cases a with
  | emit sec e returned =>
    simp only [SizedModule.Room, Module.Room, (follows.same inside sec).room]
  | declare e => simp only [SizedModule.Room, Module.Room, (follows.declared inside).room]
  | _ => exact Iff.rfl

theorem missed_of_inside (version : U32) {calls : List Call}
    (unpatched : ∀ c ∈ calls, ¬ c.action.IsPatch)
    (inside : (SizedModule.new pf version).Throughout pf SizedModule.Inside calls) :
    ((SizedModule.new pf version).run pf calls).missed = 0 := by
  have steps : Runs.Throughout (SizedModule.exec pf)
      (fun s c => ¬ c.action.IsPatch ∧ s.Inside c) (SizedModule.new pf version) calls := by
    rw [Runs.throughout_iff_forall]
    intro before c after cut
    exact ⟨unpatched c (by simp [cut]), Runs.throughout_iff_forall.mp inside before c after cut⟩
  have one : ∀ (s : SizedModule) (m : Module) (c : Call),
      (¬ c.action.IsPatch ∧ s.Inside c) → (s.Follows m ∧ s.missed = 0) →
        (s.exec pf c).1 = (m.exec pf c).1 ∧
          ((s.exec pf c).2.Follows (m.exec pf c).2 ∧ (s.exec pf c).2.missed = 0) := by
    rintro s m c ⟨unpatched, inside⟩ ⟨follows, none⟩
    obtain ⟨answer, after⟩ := follows.exec pf c
    have stays : m.StaysInside pf c := (m.staysInside_iff pf unpatched).mpr
      (inside.imp_right (follows.room_iff none c.action).mp)
    exact ⟨answer, after, after.missed_iff.mpr (Eq.trans stays (follows.missed_iff.mp none))⟩
  obtain ⟨_, _, none⟩ := Runs.simulation one ⟨SizedModule.follows_new pf version, rfl⟩ steps
  exact none

theorem missed_of_append (version : U32) (before after : List Call)
    (inside : ((SizedModule.new pf version).run pf (before ++ after)).missed = 0) :
    ((SizedModule.new pf version).run pf before).missed = 0 := by
  obtain ⟨_, first⟩ := sized_follows pf version before
  obtain ⟨_, second⟩ := sized_follows pf version (before ++ after)
  have grown := Runs.monotone_run (f := Module.overruns)
    (s := (Module.new pf version).run pf before) (fun m c => m.overruns_le_exec pf c) after
  rw [second.missed_iff, Module.run, Runs.run_append] at inside
  exact first.missed_iff.mpr (Nat.le_zero.mp (inside ▸ grown))

def SizedModule.codeEmission (s : SizedModule) : Action → Option (Emission × U32)
  | .emit .code e _ => some (e, s.bound)
  | .deferPhi resultType blocks => some (Sirit.deferredOpPhi resultType blocks, s.bound)
  | .glsl inst => some (opExtInst inst.resultType (s.getGLSLstd450 pf).1
      (pf.glslStd450 inst.opcode) inst.operands, (s.getGLSLstd450 pf).2.bound)
  | _ => none

def SizedModule.codeStart (s : SizedModule) : Nat :=
  (s.assemble pf).length - (s.streams .code).written.length

theorem SizedModule.Follows.codeEmission_eq {s : SizedModule} {m : Module}
    (follows : s.Follows m) (a : Action) : s.codeEmission pf a = m.codeEmission pf a := by
  cases a with
  | emit sec e returned =>
    cases sec <;> simp only [SizedModule.codeEmission, Module.codeEmission, follows.bound]
  | deferPhi resultType blocks =>
    simp only [SizedModule.codeEmission, Module.codeEmission, follows.bound]
  | glsl inst =>
    obtain ⟨set, after⟩ := follows.getGLSLstd450 pf
    simp only [SizedModule.codeEmission, Module.codeEmission, set, after.bound]
  | _ => rfl

theorem SizedModule.Follows.codeStart_eq {s : SizedModule} {m : Module}
    (follows : s.Follows m) (inside : s.missed = 0) : s.codeStart pf = m.codeStart pf := by
  have code : (s.streams .code).written = m.code.written :=
    (follows.same inside .code).written
  rw [SizedModule.codeStart, Module.codeStart, follows.assemble_eq pf inside, code]

def SizedModule.StaysInside (s : SizedModule) (c : Call) : Prop :=
  (s.exec pf c).2.missed = s.missed

theorem SizedModule.staysInside_declaration (s : SizedModule) (d : DeclarationCall) :
    s.StaysInside pf d.call ↔ (d.IsPipe → 3 ≤ s.declarations.stream.room) := by
  have moved := s.declarations.missed_declare pf d.declaration s.bound
  have whole : (s.exec pf d.call).2.missed + s.declarations.stream.missed =
      s.missed + (s.declarations.declare pf d.declaration s.bound).2.1.stream.missed := by
    rw [SizedModule.exec, d.action_call]
    simp only [SizedModule.perform, SizedModule.declare, SizedModule.missed]
    omega
  have fits := d.width_le_reserved_iff
  rw [SizedModule.StaysInside]
  by_cases pipe : d.IsPipe
  · have long : d.declaration.width = 3 := by
      cases d with
      | type c => exact (TypeCall.width_of_isPipe pipe).1
      | constant c => exact absurd pipe fun none => none
    have short := mt fits.mp fun other => other pipe
    simp only [pipe, true_implies]
    omega
  · have short := fits.mpr pipe
    simp only [pipe, false_implies, iff_true]
    omega

/-- In a run, the stores of every declaration are inside exactly when each `TypePipe` finds
    three words left over, in an ample vector as in the vector itself. -/
theorem Module.declarations_stay_inside_iff (version : U32) (calls : List Call) :
    (∀ d : DeclarationCall,
      (d.declaration.width ≤ d.declaration.reserved ↔ ¬ d.IsPipe) ∧
      (((Module.new pf version).run pf calls).StaysInside pf d.call ↔
        (d.IsPipe →
          3 ≤ ((Module.new pf version).run pf calls).declarations.stream.slack)) ∧
      (((SizedModule.new pf version).run pf calls).StaysInside pf d.call ↔
        (d.IsPipe →
          3 ≤ ((SizedModule.new pf version).run pf calls).declarations.stream.room))) ∧
    ((Module.new pf version).Throughout pf
        (fun m c => ∀ d : DeclarationCall, c = d.call → m.StaysInside pf c) calls ↔
      (Module.new pf version).Throughout pf
        (fun m c => ∀ d : DeclarationCall, c = d.call → d.IsPipe →
          3 ≤ m.declarations.stream.slack) calls) ∧
    ((SizedModule.new pf version).Throughout pf
        (fun s c => ∀ d : DeclarationCall, c = d.call → s.StaysInside pf c) calls ↔
      (SizedModule.new pf version).Throughout pf
        (fun s c => ∀ d : DeclarationCall, c = d.call → d.IsPipe →
          3 ≤ s.declarations.stream.room) calls) := by
  refine ⟨?_, ?_, ?_⟩
  · intro d
    exact ⟨d.width_le_reserved_iff, Module.staysInside_declaration pf _ d,
      SizedModule.staysInside_declaration pf _ d⟩
  · apply Runs.throughout_congr
    refine fun m c _ => forall_congr' fun d => forall_congr' fun same => ?_
    rw [same]
    exact m.staysInside_declaration pf d
  · apply Runs.throughout_congr
    refine fun s c _ => forall_congr' fun d => forall_congr' fun same => ?_
    rw [same]
    exact s.staysInside_declaration pf d

/-- On a new module, `TypePipe` stores its qualifier past the end. -/
theorem typePipe_on_new_module_misses :
    ¬ ∀ (pf : Platform) (version : U32) (calls : List Call) (d : DeclarationCall),
      d.call.Asserts → ((Module.new pf version).run pf calls).StaysInside pf d.call := by
  intro always
  have inside := always linuxX86 0 [] (.type (.typePipe 0)) (by decide)
  exact absurd inside (by decide)

end Sirit
