import Sirit.DeferredPhi
import Sirit.ResultIds

/- Which methods can store past the end of a vector, over all of them, and which runs do. -/
namespace Sirit
variable (pf : Platform)

def Action.Fits : Action → Prop
  | .emit _ e _ => e.width ≤ e.reserved
  | .declare e => e.width ≤ e.reserved
  | _ => True

instance decidableActionFits : (a : Action) → Decidable a.Fits
  | .emit _ e _ => Nat.decLe e.width e.reserved
  | .declare e => Nat.decLe e.width e.reserved
  | .deferPhi _ _ | .glsl _ | .addLabel _ | .opLabel | .addExtension _ | .addCapability _
  | .setMemoryModel _ _ | .patch _ => instDecidableTrue

def Module.Room (m : Module) : Action → Prop
  | .emit sec e _ => e.width ≤ (m.stream sec).slack
  | .declare e => e.width ≤ m.declarations.stream.slack
  | _ => True

/-- The methods that do not reserve all their words: `TypePipe`, `OpAtomicStore`, the two
    sparse gathers with a mask, and those with a literal operand of two words. -/
def Call.Overlong (c : Call) : Prop :=
  (∃ t, c = .type t ∧ t.IsPipe) ∨ c.IsAtomicStore ∨ (∃ i, c = .image i ∧ i.MaskUncounted) ∨
    ∃ ls, c.literals = some ls ∧ ∃ l ∈ ls, l.Wide

theorem addVariable_width_le (resultType : Id) (storageClass : U32) (initializer : Option Id) :
    (addVariable resultType storageClass initializer).width ≤
      (addVariable resultType storageClass initializer).reserved := by
  refine Nat.le_trans (Emission.width_typed_le _ _ _ _) ?_
  cases initializer <;> simp [addVariable, Operand.width]

theorem addEntryPoint_width_le (executionModel : U32) (entryPoint : Id) (name : List U8)
    (interfaces : List Id) :
    (addEntryPoint executionModel entryPoint name interfaces).width ≤
      (addEntryPoint executionModel entryPoint name interfaces).reserved := by
  simp [addEntryPoint, Operand.width]
  omega

theorem DebugCall.width_le_reserved {c : DebugCall} (plain : (Call.debug c).literals = none) :
    c.emission.width ≤ c.emission.reserved := by
  cases c with
  | opLine file line column => cases plain
  | _ =>
    simp [DebugCall.emission, Operand.width]
    try omega

theorem FlowCall.width_le_reserved {c : FlowCall} (plain : (Call.flow c).literals = none) :
    c.emission.width ≤ c.emission.reserved := by
  cases c with
  | opSwitch selector defaultLabel literals labels => cases plain
  | opPhi t operands =>
    refine Nat.le_trans (Emission.width_typed_le _ _ _ _) ?_
    simp [FlowCall.emission, Sirit.opPhi]
  | opFunction t functionControl functionType =>
    refine Nat.le_trans (Emission.width_typed_le _ _ _ _) ?_
    simp [FlowCall.emission, Operand.width]
  | opFunctionCall t function arguments =>
    refine Nat.le_trans (Emission.width_typed_le _ _ _ _) ?_
    simp [FlowCall.emission, Operand.width]
    omega
  | opFunctionParameter t =>
    refine Nat.le_trans (Emission.width_typed_le _ _ _ _) ?_
    simp [FlowCall.emission]
  | opBranchConditional condition trueLabel falseLabel trueWeight falseWeight =>
    simp only [FlowCall.emission, Emission.width_op, operandsWidth_append]
    split <;> simp [Operand.width]
  | _ =>
    simp [FlowCall.emission, Sirit.opDemoteToHelperInvocation, Operand.width]
    try omega

theorem MemoryCall.width_le_reserved {c : MemoryCall} (plain : (Call.memory c).literals = none) :
    c.emission.width ≤ c.emission.reserved := by
  cases c with
  | opCompositeInsert t object composite indexes => cases plain
  | opCompositeExtract t composite indexes => cases plain
  | opStore pointer object memoryAccess =>
    cases memoryAccess <;> simp [MemoryCall.emission, Operand.width]
  | opLoad t pointer memoryAccess =>
    refine Nat.le_trans (Emission.width_typed_le _ _ _ _) ?_
    cases memoryAccess <;> simp [MemoryCall.emission, Operand.width]
  | _ =>
    refine Nat.le_trans (Emission.width_typed_le _ _ _ _) ?_
    simp [MemoryCall.emission, Operand.width]
    try omega

theorem AtomicCall.width_le_reserved {c : AtomicCall} (other : ¬ (Call.atomic c).IsAtomicStore) :
    c.emission.width ≤ c.emission.reserved := by
  cases c with
  | opAtomicStore pointer memory semantics value => exact absurd trivial other
  | _ =>
    refine Nat.le_trans (Emission.width_typed_le _ _ _ _) ?_
    simp [AtomicCall.emission, Operand.width]

theorem BarrierCall.width_le_reserved (c : BarrierCall) :
    c.emission.width ≤ c.emission.reserved := by
  cases c <;> simp [BarrierCall.emission, Operand.width]

theorem MiscCall.width_le_reserved (c : MiscCall) :
    c.emission.width ≤ c.emission.reserved := by
  cases c with
  | opUndef t => exact Emission.width_typed_le _ _ _ _
  | _ => simp [MiscCall.emission, Operand.width]

theorem ArithmeticCall.width_le_reserved (c : ArithmeticCall) :
    c.emission.width ≤ c.emission.reserved := by
  cases c <;> exact Emission.width_typed_le _ _ _ _

theorem ConversionCall.width_le_reserved (c : ConversionCall) :
    c.emission.width ≤ c.emission.reserved := by
  cases c <;> exact Emission.width_typed_le _ _ _ _

theorem DerivativesCall.width_le_reserved (c : DerivativesCall) :
    c.emission.width ≤ c.emission.reserved := by
  cases c <;> exact Emission.width_typed_le _ _ _ _

theorem LogicalCall.width_le_reserved (c : LogicalCall) :
    c.emission.width ≤ c.emission.reserved := by
  cases c <;> exact Emission.width_typed_le _ _ _ _

theorem BitCall.width_le_reserved (c : BitCall) :
    c.emission.width ≤ c.emission.reserved := by
  cases c <;> exact Emission.width_typed_le _ _ _ _

theorem GroupCall.width_le_reserved (c : GroupCall) :
    c.emission.width ≤ c.emission.reserved := by
  cases c <;> exact Emission.width_typed_le _ _ _ _

theorem Call.fits_of_not_overlong {c : Call} (asserts : c.Asserts) (short : ¬ c.Overlong) :
    c.action.Fits := by
  simp only [Call.Overlong, not_or] at short
  obtain ⟨pipe, store, mask, wide⟩ := short
  cases taken : c.literals with
  | some ls =>
    obtain ⟨sec, e, returned, emits, width⟩ := Call.width_of_literals taken asserts
    have narrow : wideLiterals ls = 0 := wideLiterals_eq_zero_iff.mpr fun l member long =>
      wide ⟨ls, taken, l, member, long⟩
    rw [emits]
    change e.width ≤ e.reserved
    omega
  | none =>
    cases c with
    | addEntryPoint executionModel entryPoint name interfaces =>
      exact addEntryPoint_width_le executionModel entryPoint name interfaces
    | addLocalVariable t storageClass initializer | addGlobalVariable t storageClass initializer =>
      exact addVariable_width_le t storageClass initializer
    | addExecutionMode entryPoint mode literals => cases taken
    | annotate c => cases c <;> cases taken
    | type c => exact TypeCall.width_le_reserved fun is => pipe ⟨c, rfl, is⟩
    | constant c => exact c.width_le_reserved
    | debug c => exact DebugCall.width_le_reserved taken
    | flow c => exact FlowCall.width_le_reserved taken
    | memory c => exact MemoryCall.width_le_reserved taken
    | atomic c => exact AtomicCall.width_le_reserved store
    | image c => exact ImageCall.width_le_reserved fun is => mask ⟨c, rfl, is⟩
    | barrier c | misc c | arithmetic c | conversion c | derivatives c | logical c | bit c
    | group c => exact c.width_le_reserved
    | opExtInst t set instruction operands => exact opExtInst_width_le t set instruction operands
    | _ => trivial

theorem Call.not_fits_of_overlong {c : Call} (asserts : c.Asserts) (overlong : c.Overlong) :
    ¬ c.action.Fits := by
  rcases overlong with ⟨t, rfl, pipe⟩ | store | ⟨i, rfl, mask⟩ | ⟨ls, taken, l, member, wide⟩
  · obtain ⟨long, short⟩ := TypeCall.width_of_isPipe pipe
    change ¬ t.declaration.width ≤ t.declaration.reserved
    omega
  · cases c with
    | atomic c =>
      cases c with
      | opAtomicStore pointer memory semantics value =>
        change ¬ (6 : Nat) ≤ 5
        omega
      | _ => exact absurd store fun none => none
    | _ => exact absurd store fun none => none
  · have width := ImageCall.width_of_maskUncounted mask asserts.1
    change ¬ i.emission.width ≤ i.emission.reserved
    omega
  · obtain ⟨sec, e, returned, emits, width⟩ := Call.width_of_literals taken asserts
    have some : wideLiterals ls ≠ 0 := fun none =>
      wideLiterals_eq_zero_iff.mp none l member wide
    rw [emits]
    change ¬ e.width ≤ e.reserved
    omega

theorem Call.fits_iff {c : Call} (asserts : c.Asserts) : c.action.Fits ↔ ¬ c.Overlong :=
  ⟨fun fits overlong => Call.not_fits_of_overlong asserts overlong fits,
    Call.fits_of_not_overlong asserts⟩

theorem Module.overruns_getGLSLstd450 (m : Module) :
    (m.getGLSLstd450 pf).2.overruns = m.overruns := by
  unfold Module.getGLSLstd450
  split
  · rfl
  · have moved := m.overruns_emit pf .extInstImports glslStd450Import
    have fits : glslStd450Import.width = 6 ∧ glslStd450Import.reserved = 7 := ⟨rfl, rfl⟩
    change (m.emit pf .extInstImports glslStd450Import).2.overruns = m.overruns
    omega

theorem Module.overruns_addLabel (m : Module) (label : Id) :
    (m.addLabel pf label).overruns = m.overruns := by
  have cursor : (m.addLabel pf label).code.toCursor =
      (m.code.toCursor.reserve 0 2).putAll
        [makeWord0 (pf.op .opLabel) 2, label.value] := rfl
  have code : (m.addLabel pf label).code.overruns = m.code.overruns := by
    rw [cursor, VectorCursor.Cursor.overruns_putAll, VectorCursor.Cursor.slack_reserve,
      VectorCursor.Cursor.overruns_reserve]
    change _ + (2 - _) = _
    omega
  have rest : (m.addLabel pf label).overruns + m.code.overruns =
      m.overruns + (m.addLabel pf label).code.overruns := by
    simp only [Module.overruns, Module.addLabel]
    omega
  omega

theorem Module.overruns_deferredOpPhi (m : Module) (resultType : Id) (blocks : List Id) :
    (m.deferredOpPhi pf resultType blocks).2.overruns = m.overruns := by
  have fits := deferredOpPhi_width_le resultType blocks
  have moved := Module.overruns_emit pf
    { m with deferredPhiNodes := m.deferredPhiNodes ++ [m.code.localAddress] } .code
    (Sirit.deferredOpPhi resultType blocks)
  refine moved.trans ?_
  change m.overruns + _ = m.overruns
  omega

theorem Module.overruns_opGlsl (m : Module) (inst : GlslInst) :
    (m.opGlsl pf inst).2.overruns = m.overruns := by
  have fits := opExtInst_width_le inst.resultType (m.getGLSLstd450 pf).1
    (pf.glslStd450 inst.opcode) inst.operands
  have moved := Module.overruns_emit pf (m.getGLSLstd450 pf).2 .code
    (opExtInst inst.resultType (m.getGLSLstd450 pf).1 (pf.glslStd450 inst.opcode) inst.operands)
  rw [m.overruns_getGLSLstd450] at moved
  refine moved.trans ?_
  omega

theorem Module.staysInside_iff (m : Module) {c : Call} (unpatched : ¬ c.action.IsPatch) :
    m.StaysInside pf c ↔ c.action.Fits ∨ m.Room c.action := by
  cases action : c.action with
  | emit sec e returned => exact m.staysInside_emit pf action
  | declare e => exact m.staysInside_declare pf action
  | patch func =>
    rw [action] at unpatched
    exact absurd trivial unpatched
  | deferPhi resultType blocks =>
    rw [Module.StaysInside, Module.exec, action]
    exact iff_of_true (m.overruns_deferredOpPhi pf resultType blocks) (Or.inl trivial)
  | glsl inst =>
    rw [Module.StaysInside, Module.exec, action]
    exact iff_of_true (m.overruns_opGlsl pf inst) (Or.inl trivial)
  | addLabel label =>
    rw [Module.StaysInside, Module.exec, action]
    exact iff_of_true (m.overruns_addLabel pf label) (Or.inl trivial)
  | addExtension extensionName =>
    rw [Module.StaysInside, Module.exec, action]
    refine iff_of_true ?_ (Or.inl trivial)
    simp only [Module.perform, Module.addExtension]
    split <;> rfl
  | addCapability capability =>
    rw [Module.StaysInside, Module.exec, action]
    refine iff_of_true ?_ (Or.inl trivial)
    simp only [Module.perform, Module.addCapability]
    split <;> rfl
  | opLabel | setMemoryModel addressingModel memoryModel =>
    rw [Module.StaysInside, Module.exec, action]
    exact iff_of_true rfl (Or.inl trivial)

theorem Module.overruns_patch (m : Module) (func : PhiFunc) :
    (m.patchDeferredPhi func).2.overruns + m.code.overruns =
      m.overruns + (m.patchDeferredPhi func).2.code.overruns := by
  simp only [Module.overruns, Module.patchDeferredPhi]
  omega

theorem Module.overruns_le_exec (m : Module) (c : Call) :
    m.overruns ≤ (m.exec pf c).2.overruns := by
  by_cases patch : c.action.IsPatch
  · cases action : c.action with
    | patch func =>
      have grows := m.patch_keeps (I := fun s => m.code.overruns ≤ s.overruns) func
        (by
          intro s index value before
          simp only [Stream.setValue]
          split <;> omega) (Nat.le_refl _)
      have rest := m.overruns_patch func
      rw [Module.exec, action]
      change m.overruns ≤ (m.patchDeferredPhi func).2.overruns
      omega
    | _ =>
      rw [action] at patch
      exact absurd patch fun none => none
  · by_cases inside : m.StaysInside pf c
    · exact Nat.le_of_eq inside.symm
    · rw [m.staysInside_iff pf patch] at inside
      cases action : c.action with
      | emit sec e returned =>
        rw [Module.exec, action]
        exact (m.overruns_emit pf sec e).symm ▸ Nat.le_add_right _ _
      | declare e =>
        rw [Module.exec, action]
        exact (m.overruns_declare pf e).symm ▸ Nat.le_add_right _ _
      | _ =>
        rw [action] at inside
        exact absurd (Or.inl trivial) inside

/-- The deferred phis of a run that patches stand where the patches look for them. -/
structure PatchesFind (version : U32) (calls : List Call) : Prop where
  small : ((Module.new pf version).run pf calls).code.insertIndex < 2 ^ 32
  tight : ∀ before resultType blocks after,
    calls = before ++ .deferredOpPhi resultType blocks :: after →
      TightPhi pf version before resultType blocks

theorem staysInside_patch {version : U32} {calls before after : List Call} {c : Call}
    (found : PatchesFind pf version calls) (cut : calls = before ++ c :: after)
    (patch : c.action.IsPatch) :
    ((Module.new pf version).run pf before).StaysInside pf c := by
  have small : ((Module.new pf version).run pf before).code.insertIndex < 2 ^ 32 := by
    have grows : ((Module.new pf version).run pf before).code.insertIndex ≤
        (Runs.run (Module.exec pf) ((Module.new pf version).run pf before)
          (c :: after)).code.insertIndex :=
      Runs.monotone_run (f := fun m : Module => m.code.insertIndex)
        (fun m c => m.insertIndex_exec pf c) (c :: after)
    have whole := found.small
    rw [cut, Module.run, Runs.run_append] at whole
    exact Nat.lt_of_le_of_lt grows whole
  have tight : ∀ first t blocks later, before = first ++ .deferredOpPhi t blocks :: later →
      TightPhi pf version first t blocks := by
    intro first t blocks later same
    refine found.tight first t blocks (later ++ c :: after) ?_
    rw [cut, same, List.append_assoc, List.cons_append]
  obtain ⟨ps, deferral⟩ := exists_deferral_of_tight pf version (fun _ => ⟨0⟩) tight small
  cases action : c.action with
  | patch func =>
    have code := (deferral.laid.patch_code small func).2.overruns
    have rest := ((Module.new pf version).run pf before).overruns_patch func
    rw [Module.StaysInside, Module.exec, action]
    change (((Module.new pf version).run pf before).patchDeferredPhi func).2.overruns = _
    omega
  | _ =>
    rw [action] at patch
    exact absurd patch fun none => none

/-- A method stays inside its vector from every state exactly when it is none of the four
    kinds; and a run stores nothing past the end of any vector exactly when each call of these
    kinds in it finds its words left over by an earlier one. -/
theorem stores_stay_inside_iff (version : U32) {calls : List Call}
    (asserts : ∀ c ∈ calls, c.Asserts)
    (found : (∃ c ∈ calls, c.action.IsPatch) → PatchesFind pf version calls) :
    (∀ c : Call, c.Asserts → ¬ c.action.IsPatch →
      ((∀ m : Module, m.StaysInside pf c) ↔ ¬ c.Overlong)) ∧
    (((Module.new pf version).run pf calls).overruns = 0 ↔
      (Module.new pf version).Throughout pf
        (fun m c => c.Overlong → m.Room c.action) calls) := by
  refine ⟨?_, ?_⟩
  · intro c meets unpatched
    rw [← Call.fits_iff meets]
    constructor
    · intro inside
      rcases (Module.staysInside_iff pf (Module.new pf 0) unpatched).mp (inside _) with fits | room
      · exact fits
      · -- a new module has nothing left over, so only an empty write has room
        cases action : c.action with
        | emit sec e returned =>
          rw [action] at room
          have none : e.width ≤ 0 := by
            cases sec <;> exact room
          exact Nat.le_trans none (Nat.zero_le _)
        | declare e =>
          rw [action] at room
          exact Nat.le_trans (show e.width ≤ 0 from room) (Nat.zero_le _)
        | _ => trivial
    · exact fun fits m => (m.staysInside_iff pf unpatched).mpr (Or.inl fits)
  · have start : (Module.new pf version).overruns = 0 := rfl
    rw [← start, Module.run, Runs.kept_iff (fun m c => m.overruns_le_exec pf c),
      Module.Throughout, Runs.throughout_iff_forall, Runs.throughout_iff_forall]
    refine forall_congr' fun before => forall_congr' fun c => forall_congr' fun after =>
      forall_congr' fun cut => ?_
    have listed : c ∈ calls := by simp [cut]
    by_cases patch : c.action.IsPatch
    · refine iff_of_true (staysInside_patch pf (found ⟨c, listed, patch⟩) cut patch) ?_
      intro _
      cases action : c.action with
      | patch func => trivial
      | _ =>
        rw [action] at patch
        exact absurd patch fun none => none
    · exact ((Module.staysInside_iff pf _ patch).trans
        (or_congr_left (Call.fits_iff (asserts c listed)))).trans imp_iff_not_or.symm

theorem stores_stay_inside_patched : ((Module.new linuxX86 0).run linuxX86
    [.addLabel ⟨5⟩, .deferredOpPhi ⟨1⟩ [⟨5⟩], .patchDeferredPhi fun _ => ⟨9⟩]).overruns = 0 := by
  refine (stores_stay_inside_iff linuxX86 0 (by decide) ?_).2.mpr ?_
  · intro _
    refine ⟨by decide, ?_⟩
    intro before resultType blocks after cut
    match before, cut with
    | [], cut => cases cut
    | [_], cut =>
      cases cut
      exact ⟨by decide, by decide, by decide⟩
    | [_, _], cut => cases cut
    | _ :: _ :: _ :: _, cut => simp at cut
  · refine Runs.throughout_of_forall ?_
    intro m c member overlong
    rcases overlong with ⟨t, rfl, _⟩ | store | ⟨i, rfl, _⟩ | ⟨ls, taken, _⟩
    · simp at member
    · simp only [List.mem_cons, List.not_mem_nil, or_false] at member
      rcases member with rfl | rfl | rfl
      all_goals exact absurd store fun none => none
    · simp at member
    · simp only [List.mem_cons, List.not_mem_nil, or_false] at member
      rcases member with rfl | rfl | rfl
      all_goals cases taken

end Sirit
