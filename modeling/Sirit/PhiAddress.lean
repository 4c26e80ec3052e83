import Sirit.Refinement
import Sirit.Reservation

/- Where a deferred phi is: its address is taken as the size of the vector, so nothing may
   be left allocated there. No method asks for more than two words too many, a label uses
   two up, and a phi asks for exactly what it writes. -/
namespace Sirit
open VectorCursor
variable (pf : Platform)

/-- The request exceeds what is written by two words at most. -/
def Emission.Snug (e : Emission) : Prop := e.reserved ≤ e.width + 2

theorem Emission.le_width_typed (reserved : Nat) (opcode : Op) (operands : List Operand)
    (resultType : Id) :
    2 + operandsWidth operands ≤
      (⟨reserved, .typed opcode resultType, operands⟩ : Emission).width := by
  simp only [Emission.width, Head.typed, Head.width, OpId.width]
  omega

theorem Emission.snug_typed {reserved : Nat} {opcode : Op} {operands : List Operand}
    {resultType : Id} (request : reserved ≤ 4 + operandsWidth operands) :
    (⟨reserved, .typed opcode resultType, operands⟩ : Emission).Snug := by
  have width := Emission.le_width_typed reserved opcode operands resultType
  exact Nat.le_trans (show reserved ≤ 2 + operandsWidth operands + 2 by omega)
    (Nat.add_le_add_right width 2)

theorem Emission.snug_op {reserved : Nat} {opcode : Op} {operands : List Operand}
    (request : reserved ≤ 3 + operandsWidth operands) :
    (⟨reserved, .op opcode, operands⟩ : Emission).Snug := by
  change reserved ≤ 1 + operandsWidth operands + 2
  omega

theorem Emission.snug_bare {reserved : Nat} {opcode : Op} {operands : List Operand}
    (request : reserved ≤ 4 + operandsWidth operands) :
    (⟨reserved, .bare opcode, operands⟩ : Emission).Snug := by
  change reserved ≤ 2 + operandsWidth operands + 2
  omega

theorem addVariable_snug (resultType : Id) (storageClass : U32) (initializer : Option Id) :
    (addVariable resultType storageClass initializer).Snug := by
  apply Emission.snug_typed
  simp [Operand.width]
  omega

theorem opExtInst_snug (resultType set : Id) (instruction : U32) (operands : List Id) :
    (opExtInst resultType set instruction operands).Snug := by
  apply Emission.snug_typed
  simp [Operand.width]
  omega

theorem FlowCall.snug {c : FlowCall} (asserts : c.Asserts) : c.emission.Snug := by
  cases c with
  | opPhi t ids =>
    apply Emission.snug_typed
    simp
  | opBranchConditional condition yes no yesWeight noWeight =>
    apply Emission.snug_op
    split <;> simp [Operand.width]
  | opSwitch selector fallback literals labels =>
    have paired : literals.length = labels.length := asserts
    apply Emission.snug_op
    simp [Operand.width]
    omega
  | opFunction t control type =>
    apply Emission.snug_typed
    simp [Operand.width]
  | opFunctionCall t function arguments =>
    apply Emission.snug_typed
    simp [Operand.width]
    try omega
  | opFunctionParameter t =>
    apply Emission.snug_typed
    simp
  | opLoopMerge mergeBlock continueTarget control literals =>
    apply Emission.snug_op
    simp [Operand.width]
    omega
  | _ =>
    apply Emission.snug_op
    simp [Operand.width]

theorem MemoryCall.snug (c : MemoryCall) : c.emission.Snug := by
  cases c with
  | opStore pointer object access =>
    apply Emission.snug_op
    simp [Operand.width]
    omega
  | _ =>
    apply Emission.snug_typed
    simp [Operand.width]
    try omega

theorem AtomicCall.snug (c : AtomicCall) : c.emission.Snug := by
  cases c with
  | opAtomicStore pointer memory semantics value =>
    apply Emission.snug_bare
    simp [Operand.width]
  | _ =>
    apply Emission.snug_typed
    simp [Operand.width]

theorem BarrierCall.snug (c : BarrierCall) : c.emission.Snug := by
  cases c <;>
    apply Emission.snug_op <;>
    simp [Operand.width]

theorem MiscCall.snug (c : MiscCall) : c.emission.Snug := by
  cases c with
  | opUndef t => exact Emission.snug_typed (by simp)
  | _ =>
    apply Emission.snug_op
    simp [Operand.width]

theorem ArithmeticCall.snug (c : ArithmeticCall) : c.emission.Snug := by
  cases c <;>
    apply Emission.snug_typed <;>
    simp [Operand.width]

theorem ConversionCall.snug (c : ConversionCall) : c.emission.Snug := by
  cases c <;>
    apply Emission.snug_typed <;>
    simp [Operand.width]

theorem DerivativesCall.snug (c : DerivativesCall) : c.emission.Snug := by
  cases c <;>
    apply Emission.snug_typed <;>
    simp [Operand.width]

theorem LogicalCall.snug (c : LogicalCall) : c.emission.Snug := by
  cases c <;>
    apply Emission.snug_typed <;>
    simp [Operand.width]

theorem BitCall.snug (c : BitCall) : c.emission.Snug := by
  cases c <;>
    apply Emission.snug_typed <;>
    simp [Operand.width]

theorem GroupCall.snug (c : GroupCall) : c.emission.Snug := by
  cases c <;>
    apply Emission.snug_typed <;>
    simp [Operand.width]

theorem ImageCall.snug (c : ImageCall) : c.emission.Snug := by
  cases c with
  | opImageWrite image coordinate texel mask ids =>
    apply Emission.snug_op
    simp [Operand.width]
    omega
  | _ =>
    apply Emission.snug_typed
    simp [Operand.width]
    try omega

theorem Call.snug {c : Call} {e : Emission} {returned : Returned} (asserts : c.Asserts)
    (emits : c.action = .emit .code e returned) : e.Snug := by
  cases c with
  | addLocalVariable t storageClass initializer =>
    cases emits
    exact addVariable_snug t storageClass initializer
  | flow c =>
    cases emits
    exact FlowCall.snug asserts.2
  | memory c | atomic c | barrier c | misc c | arithmetic c | conversion c | derivatives c
  | logical c | bit c | group c | image c =>
    cases emits
    exact c.snug
  | opExtInst t set instruction operands =>
    cases emits
    exact opExtInst_snug t set instruction operands
  | _ => cases emits

/-- The expression an action streams to the code, with the counter it finds. -/
def Module.codeEmission (m : Module) : Action → Option (Emission × U32)
  | .emit .code e _ => some (e, m.bound)
  | .deferPhi resultType blocks => some (Sirit.deferredOpPhi resultType blocks, m.bound)
  | .glsl inst => some (opExtInst inst.resultType (m.getGLSLstd450 pf).1
      (pf.glslStd450 inst.opcode) inst.operands, (m.getGLSLstd450 pf).2.bound)
  | _ => none

theorem Module.getGLSLstd450_code (m : Module) :
    (m.getGLSLstd450 pf).2.code = m.code ∧
      (m.getGLSLstd450 pf).2.deferredPhiNodes = m.deferredPhiNodes := by
  unfold Module.getGLSLstd450
  split <;> exact ⟨rfl, rfl⟩

theorem Module.addExtension_code (m : Module) (extensionName : List U8) :
    (m.addExtension extensionName).code = m.code ∧
      (m.addExtension extensionName).deferredPhiNodes = m.deferredPhiNodes := by
  unfold Module.addExtension
  split <;> exact ⟨rfl, rfl⟩

theorem Module.addCapability_code (m : Module) (capability : U32) :
    (m.addCapability capability).code = m.code ∧
      (m.addCapability capability).deferredPhiNodes = m.deferredPhiNodes := by
  unfold Module.addCapability
  split <;> exact ⟨rfl, rfl⟩

theorem Module.code_perform (m : Module) (a : Action) :
    (∃ e bound, m.codeEmission pf a = some (e, bound) ∧
      (m.perform pf a).2.code = (m.code.emit pf e bound).2.1) ∨
    (∃ label, a = .addLabel label ∧ (m.perform pf a).2.code = (m.addLabel pf label).code) ∨
    (∃ func, a = .patch func ∧ (m.perform pf a).2.code = (m.patchDeferredPhi func).2.code) ∨
    (m.codeEmission pf a = none ∧ (m.perform pf a).2.code = m.code) := by
  cases a with
  | emit sec e returned =>
    cases sec with
    | code => exact Or.inl ⟨e, m.bound, rfl, rfl⟩
    | _ => exact Or.inr (Or.inr (Or.inr ⟨rfl, rfl⟩))
  | deferPhi resultType blocks => exact Or.inl ⟨_, _, rfl, rfl⟩
  | glsl inst =>
    refine Or.inl ⟨_, _, rfl, ?_⟩
    rw [← (m.getGLSLstd450_code pf).1]
    rfl
  | addLabel label => exact Or.inr (Or.inl ⟨label, rfl, rfl⟩)
  | patch func => exact Or.inr (Or.inr (Or.inl ⟨func, rfl, rfl⟩))
  | addExtension extensionName =>
    exact Or.inr (Or.inr (Or.inr ⟨rfl, (m.addExtension_code extensionName).1⟩))
  | addCapability capability =>
    exact Or.inr (Or.inr (Or.inr ⟨rfl, (m.addCapability_code capability).1⟩))
  | _ => exact Or.inr (Or.inr (Or.inr ⟨rfl, rfl⟩))

theorem Module.nodes_perform (m : Module) {a : Action}
    (direct : ∀ resultType blocks, a ≠ .deferPhi resultType blocks) :
    (m.perform pf a).2.deferredPhiNodes = m.deferredPhiNodes := by
  cases a with
  | emit sec e returned => cases sec <;> rfl
  | deferPhi resultType blocks => exact absurd rfl (direct resultType blocks)
  | glsl inst => exact (m.getGLSLstd450_code pf).2
  | addExtension extensionName => exact (m.addExtension_code extensionName).2
  | addCapability capability => exact (m.addCapability_code capability).2
  | _ => rfl

theorem Module.slack_addLabel (m : Module) (label : Id) :
    (m.addLabel pf label).code.slack = max m.code.slack 2 - 2 := by
  rw [Module.addLabel_eq, Cursor.slack_putAll, Cursor.slack_reserve]
  rfl

theorem Module.patch_keeps {I : Stream → Prop} (m : Module) (func : PhiFunc)
    (kept : ∀ s index value, I s → I (s.setValue index value)) (before : I m.code) :
    I (m.patchDeferredPhi func).2.code := by
  have loop : ∀ (more arg : Nat) (cursor : U32) (log : List Nat) (code : Stream), I code →
      I (patchArguments func more arg cursor log code).2 := by
    intro more
    induction more with
    | zero => intro arg cursor log code start; exact start
    | succ more ih => intro arg cursor log code start; exact ih _ _ _ _ (kept _ _ _ start)
  have nodes : ∀ (nodes : List U32) (r : List Nat × Stream), I r.2 →
      I (nodes.foldl (patchPhi func) r).2 := by
    intro nodes
    induction nodes with
    | nil => intro r start; exact start
    | cons node nodes ih => intro r start; exact ih _ (loop _ _ _ _ _ start)
  exact nodes m.deferredPhiNodes ([], m.code) before

theorem Module.patch_slack (m : Module) (func : PhiFunc) :
    (m.patchDeferredPhi func).2.code.slack = m.code.slack :=
  m.patch_keeps (I := fun s => s.slack = m.code.slack) func
    (fun s index value same => by simpa [Cursor.slack, Stream.setValue] using same) rfl

theorem Module.patch_insertIndex (m : Module) (func : PhiFunc) :
    (m.patchDeferredPhi func).2.code.insertIndex = m.code.insertIndex :=
  m.patch_keeps (I := fun s => s.insertIndex = m.code.insertIndex) func
    (fun _ _ _ same => same) rfl

theorem Module.insertIndex_exec (m : Module) (c : Call) :
    m.code.insertIndex ≤ (m.exec pf c).2.code.insertIndex := by
  rcases m.code_perform pf c.action with
    ⟨e, bound, _, code⟩ | ⟨label, _, code⟩ | ⟨func, _, code⟩ | ⟨_, code⟩
  · rw [Module.exec, code, Stream.insertIndex_emit]
    exact Nat.le_add_right _ _
  · rw [Module.exec, code, ← Cursor.written_length, ← Cursor.written_length,
      Module.written_addLabel, List.length_append]
    exact Nat.le_add_right _ _
  · apply Nat.le_of_eq
    rw [Module.exec, code, Module.patch_insertIndex]
  · apply Nat.le_of_eq
    rw [Module.exec, code]

/-- Labels, phis and extended instructions never write more than they ask for. -/
def Action.CodeFits : Action → Prop
  | .emit .code e _ => e.width ≤ e.reserved
  | _ => True

instance decidableActionCodeFits (a : Action) : Decidable a.CodeFits := by
  unfold Action.CodeFits
  split <;> infer_instance

def Action.writesCode : Action → Bool
  | .emit .code _ _ | .deferPhi _ _ | .glsl _ | .addLabel _ => true
  | _ => false

def Call.opensBlock : Call → Bool
  | .addLabel _ | .flow (.opPhi _ _) | .deferredOpPhi _ _ => true
  | _ => false

theorem operandsWidth_blocks (blocks : List Id) :
    operandsWidth (blocks.flatMap fun block => [.u32 0, .id block]) = 2 * blocks.length := by
  induction blocks with
  | nil => rfl
  | cons block blocks ih =>
    simp only [List.flatMap_cons, operandsWidth_append, operandsWidth_cons, operandsWidth_nil,
      Operand.width, List.length_cons, ih]
    omega

theorem deferredOpPhi_snug (resultType : Id) (blocks : List Id) :
    (Sirit.deferredOpPhi resultType blocks).Snug := by
  apply Emission.snug_typed
  rw [operandsWidth_blocks]
  omega

theorem opPhi_width {resultType : Id} (given : resultType.value ≠ 0) (operands : List Id) :
    (Sirit.opPhi resultType operands).width = (Sirit.opPhi resultType operands).reserved := by
  rw [Sirit.opPhi, Emission.width_typed _ _ _ given, operandsWidth_span_id]

theorem deferredOpPhi_width {resultType : Id} (given : resultType.value ≠ 0) (blocks : List Id) :
    (Sirit.deferredOpPhi resultType blocks).width =
      (Sirit.deferredOpPhi resultType blocks).reserved := by
  rw [Sirit.deferredOpPhi, Emission.width_typed _ _ _ given, operandsWidth_blocks, Nat.mul_comm]

theorem deferredOpPhi_width_le (resultType : Id) (blocks : List Id) :
    (Sirit.deferredOpPhi resultType blocks).width ≤
      (Sirit.deferredOpPhi resultType blocks).reserved := by
  refine Nat.le_trans (Emission.width_typed_le _ _ _ _) ?_
  rw [operandsWidth_blocks]
  change 3 + 2 * blocks.length ≤ 3 + blocks.length * 2
  omega

theorem opExtInst_width_le (resultType set : Id) (instruction : U32) (operands : List Id) :
    (opExtInst resultType set instruction operands).width ≤
      (opExtInst resultType set instruction operands).reserved := by
  refine Nat.le_trans (Emission.width_typed_le _ _ _ resultType) ?_
  simp [opExtInst, Operand.width]
  omega

theorem Module.codeEmission_bounds {m : Module} {c : Call} (asserts : c.Asserts)
    (fits : c.action.CodeFits) {e : Emission} {bound : U32}
    (emits : m.codeEmission pf c.action = some (e, bound)) :
    e.width ≤ e.reserved ∧ e.reserved ≤ e.width + 2 := by
  have asserted := asserts.1
  cases action : c.action with
  | emit sec e' returned =>
    rw [action] at emits fits
    cases sec <;> cases emits
    exact ⟨fits, Call.snug asserts action⟩
  | deferPhi resultType blocks =>
    rw [action] at emits asserted
    cases emits
    exact ⟨Nat.le_of_eq (deferredOpPhi_width asserted.1 blocks),
      deferredOpPhi_snug resultType blocks⟩
  | glsl inst =>
    rw [action] at emits
    cases emits
    exact ⟨opExtInst_width_le _ _ _ _, opExtInst_snug _ _ _ _⟩
  | _ =>
    rw [action] at emits
    cases emits

theorem Module.slack_exec_le {m : Module} {c : Call} (asserts : c.Asserts)
    (fits : c.action.CodeFits) (before : m.code.slack ≤ 2) : (m.exec pf c).2.code.slack ≤ 2 := by
  rcases m.code_perform pf c.action with
    ⟨e, bound, emits, code⟩ | ⟨label, _, code⟩ | ⟨func, _, code⟩ | ⟨_, code⟩
  · have bounds := Module.codeEmission_bounds pf asserts fits emits
    rw [Module.exec, code, Stream.slack_emit]
    omega
  · rw [Module.exec, code, Module.slack_addLabel]
    omega
  · rw [Module.exec, code, Module.patch_slack]
    exact before
  · rw [Module.exec, code]
    exact before

theorem Module.slack_opensBlock {m : Module} {c : Call} (asserts : c.Asserts)
    (before : m.code.slack ≤ 2) (opens : c.opensBlock = true) :
    (m.exec pf c).2.code.slack = 0 := by
  cases c with
  | addLabel label =>
    change (m.addLabel pf label).code.slack = 0
    rw [Module.slack_addLabel]
    omega
  | flow c =>
    cases c with
    | opPhi resultType operands =>
      change (m.code.emit pf (Sirit.opPhi resultType operands) m.bound).2.1.slack = 0
      have long : 2 ≤ (Sirit.opPhi resultType operands).reserved :=
        Nat.le_trans (by decide) (Nat.le_add_right 3 _)
      rw [Stream.slack_emit, opPhi_width asserts.1.1]
      omega
    | _ => cases opens
  | deferredOpPhi resultType blocks =>
    change (m.code.emit pf (Sirit.deferredOpPhi resultType blocks) m.bound).2.1.slack = 0
    have long : 2 ≤ (Sirit.deferredOpPhi resultType blocks).reserved :=
      Nat.le_trans (by decide) (Nat.le_add_right 3 _)
    rw [Stream.slack_emit, deferredOpPhi_width asserts.1.1]
    omega
  | _ => cases opens

theorem Module.writesCode_of_emission {m : Module} {a : Action} {emitted : Emission × U32}
    (emits : m.codeEmission pf a = some emitted) : a.writesCode = true := by
  cases a with
  | emit sec e returned =>
    cases sec with
    | code => rfl
    | _ => cases emits
  | deferPhi resultType blocks => rfl
  | glsl inst => rfl
  | _ => cases emits

theorem Module.slack_elsewhere {m : Module} {c : Call} (elsewhere : c.action.writesCode = false) :
    (m.exec pf c).2.code.slack = m.code.slack := by
  rcases m.code_perform pf c.action with
    ⟨e, bound, emits, code⟩ | ⟨label, adds, code⟩ | ⟨func, _, code⟩ | ⟨_, code⟩
  · have writes := Module.writesCode_of_emission pf emits
    rw [elsewhere] at writes
    cases writes
  · rw [adds] at elsewhere
    cases elsewhere
  · rw [Module.exec, code, Module.patch_slack]
  · rw [Module.exec, code]

end Sirit
