import Sirit.Listing

/- Which opcodes reach which section. -/
namespace Sirit
open Interning
variable (pf : Platform)

def Op.isDeclaration : Op → Bool
  | .opTypeVoid | .opTypeBool | .opTypeInt | .opTypeFloat | .opTypeVector | .opTypeMatrix
  | .opTypeImage | .opTypeSampler | .opTypeSampledImage | .opTypeArray | .opTypeRuntimeArray
  | .opTypeStruct | .opTypeOpaque | .opTypePointer | .opTypeFunction | .opTypeEvent
  | .opTypeDeviceEvent | .opTypeReserveId | .opTypeQueue | .opTypePipe | .opConstantTrue
  | .opConstantFalse | .opConstant | .opConstantComposite | .opConstantSampler
  | .opConstantNull => true
  | _ => false

/-- The opcodes of the expressions the methods stream to a section. Labels are written to
    the code without an expression. -/
def Section.admits : Section → Op → Bool
  | .extInstImports, .opExtInstImport => true
  | .entryPoints, .opEntryPoint => true
  | .executionModes, .opExecutionMode => true
  | .debug, .opString | .debug, .opName | .debug, .opMemberName | .debug, .opLine => true
  | .annotations, .opDecorate | .annotations, .opMemberDecorate => true
  | .globalVariables, .opVariable => true
  | .code, o => decide (o ≠ .opLabel)
  | _, _ => false

def Action.wellPlaced : Action → Bool
  | .emit sec e returned =>
      sec.admits e.head.opcode &&
        match e.head, returned with
        | .op _, _ => true
        | .opId _, .endOp => true
        | .opId _, _ => false
  | .declare e => e.opId.opcode.isDeclaration
  | _ => true

theorem Call.wellPlaced (c : Call) : c.action.wellPlaced = true := by
  cases c with
  | type c => cases c <;> rfl
  | constant c => cases c <;> rfl
  | annotate c => cases c <;> rfl
  | debug c => cases c <;> rfl
  | flow c => cases c <;> rfl
  | memory c => cases c <;> rfl
  | atomic c => cases c <;> rfl
  | barrier c => cases c <;> rfl
  | misc c => cases c <;> rfl
  | arithmetic c => cases c <;> rfl
  | conversion c => cases c <;> rfl
  | derivatives c => cases c <;> rfl
  | logical c => cases c <;> rfl
  | bit c => cases c <;> rfl
  | group c => cases c <;> rfl
  | image c => cases c <;> rfl
  | glsl c => cases c <;> rfl
  | _ => rfl

def Call.listed (bound : U32) (sec : Section) (c : Call) : List Instruction :=
  match c.action with
  | .emit other e _ => if sec = other then [e.instruction pf bound] else []
  | _ => []

theorem Listing.instructions_emit (l : Listing) (sec other : Section) (e : Emission) :
    (l.emit pf other e).2.instructions sec =
      l.instructions sec ++ if sec = other then [e.instruction pf l.bound] else [] := by
  by_cases same : sec = other
  · subst same
    simp only [Listing.emit, Function.update_self, if_true]
  · simp only [Listing.emit, Function.update_of_ne same, if_neg same, List.append_nil]

theorem Listing.instructions_getGLSLstd450 (l : Listing) {sec : Section}
    (imports : sec ≠ .extInstImports) :
    (l.getGLSLstd450 pf).2.instructions sec = l.instructions sec := by
  unfold Listing.getGLSLstd450
  split
  · rfl
  · refine (l.instructions_emit pf sec .extInstImports glslStd450Import).trans ?_
    rw [if_neg imports, List.append_nil]

theorem Listing.instructions_step (l : Listing) (c : Call) {sec : Section}
    (imports : sec ≠ .extInstImports) (code : sec ≠ .code) :
    (l.step pf c).2.instructions sec = l.instructions sec ++ c.listed pf l.bound sec := by
  unfold Listing.step Call.listed
  cases c.action with
  | emit other e returned => exact l.instructions_emit pf sec other e
  | deferPhi resultType blocks =>
    refine (l.instructions_emit pf sec .code _).trans ?_
    rw [if_neg code]
  | glsl inst =>
    refine ((l.getGLSLstd450 pf).2.instructions_emit pf sec .code _).trans ?_
    rw [if_neg code, l.instructions_getGLSLstd450 pf imports]
  | addLabel label =>
    simp only [Listing.perform, Listing.addLabel, Function.update_of_ne code, List.append_nil]
  | _ => exact (List.append_nil _).symm

theorem Listing.instructions_prefix (l : Listing) (c : Call) (sec : Section) :
    l.instructions sec <+: (l.step pf c).2.instructions sec := by
  have added : ∀ (l : Listing) (other : Section) (e : Emission),
      l.instructions sec <+: (l.emit pf other e).2.instructions sec := by
    intro l other e
    rw [l.instructions_emit pf sec other e]
    exact List.prefix_append _ _
  unfold Listing.step
  cases c.action with
  | emit other e returned => exact added l other e
  | deferPhi resultType blocks => exact added l .code _
  | glsl inst =>
    refine List.IsPrefix.trans ?_ (added (l.getGLSLstd450 pf).2 .code _)
    unfold Listing.getGLSLstd450
    split
    · exact List.prefix_rfl
    · exact added l .extInstImports glslStd450Import
  | addLabel label =>
    simp only [Listing.perform, Listing.addLabel, Function.update_apply]
    split
    · rename_i same
      rw [same]
      exact List.prefix_append _ _
    · exact List.prefix_rfl
  | _ => exact List.prefix_rfl

/-- Every section holds what it admits, and the code the labels given to `AddLabel`. -/
structure Listing.Placed (labels : Id → Prop) (l : Listing) : Prop where
  sections : ∀ sec, ∀ i ∈ l.instructions sec, sec.admits i.op = true ∨
    sec = .code ∧ ∃ label, labels label ∧ i = labelInstruction label
  declarations : ∀ e ∈ l.declarations.entries, e.1.op.isDeclaration = true

section Step
variable {labels : Id → Prop} {l : Listing} (placed : l.Placed labels)
include placed

theorem Listing.Placed.add {sec : Section} {i : Instruction} (may : sec.admits i.op = true ∨
      sec = .code ∧ ∃ label, labels label ∧ i = labelInstruction label) (other : Section) :
    ∀ j ∈ Function.update l.instructions sec (l.instructions sec ++ [i]) other,
      other.admits j.op = true ∨ other = .code ∧ ∃ label, labels label ∧
        j = labelInstruction label := by
  by_cases same : other = sec
  · subst same
    rw [Function.update_self]
    intro j member
    rcases List.mem_append.mp member with old | new
    · exact placed.sections other j old
    · rw [List.mem_singleton.mp new]
      exact may
  · rw [Function.update_of_ne same]
    exact placed.sections other

theorem Listing.Placed.emit {sec : Section} {e : Emission}
    (admitted : sec.admits e.head.opcode = true) : (l.emit pf sec e).2.Placed labels where
  sections := placed.add (Or.inl (by rw [Emission.instruction_op]; exact admitted))
  declarations := placed.declarations

theorem Listing.Placed.declare {e : Declaration} (declares : e.opId.opcode.isDeclaration = true) :
    (l.declare pf e).2.Placed labels where
  sections := placed.sections
  declarations := by
    intro entry member
    simp only [Listing.declare] at member
    cases found : l.declarations.find (e.key pf) with
    | some i =>
      rw [Table.intern_known found] at member
      exact placed.declarations entry member
    | none =>
      rw [Table.intern_new found] at member
      rcases List.mem_append.mp member with old | new
      · exact placed.declarations entry old
      · rw [List.mem_singleton.mp new]
        exact declares

theorem Listing.Placed.opGlsl (inst : GlslInst) : (l.opGlsl pf inst).2.Placed labels := by
  have imported : (l.getGLSLstd450 pf).2.Placed labels := by
    unfold Listing.getGLSLstd450
    split
    · exact placed
    · obtain ⟨sections, declarations⟩ :=
        placed.emit pf (show Section.extInstImports.admits glslStd450Import.head.opcode from rfl)
      exact ⟨sections, declarations⟩
  exact imported.emit pf rfl

theorem Listing.Placed.step (c : Call) (given : ∀ label, c = .addLabel label → labels label) :
    (l.step pf c).2.Placed labels := by
  have well := c.wellPlaced
  unfold Listing.step
  cases action : c.action with
  | emit sec e returned =>
    simp only [action, Action.wellPlaced, Bool.and_eq_true] at well
    exact placed.emit pf well.1
  | declare e =>
    rw [action] at well
    exact placed.declare pf well
  | deferPhi resultType blocks => exact placed.emit pf rfl
  | glsl inst => exact placed.opGlsl pf inst
  | addLabel label =>
    have same : c = .addLabel label := by
      cases c <;> simp [Call.action] at action ⊢
      exact action
    exact ⟨placed.add (Or.inr ⟨rfl, label, given label same, rfl⟩), placed.declarations⟩
  | _ => exact ⟨placed.sections, placed.declarations⟩

end Step

theorem listing_placed (version : U32) (calls : List Call) :
    (listing pf version calls).Placed fun label => Call.addLabel label ∈ calls := by
  apply Runs.invariant_run (I := Listing.Placed fun label => Call.addLabel label ∈ calls)
  · intro l c member placed
    exact placed.step pf c fun label same => same ▸ member
  · exact ⟨fun _ i member => absurd member List.not_mem_nil,
      fun e member => absurd member List.not_mem_nil⟩

def Op.home : Op → Option Section
  | .opExtInstImport => some .extInstImports
  | .opEntryPoint => some .entryPoints
  | .opExecutionMode => some .executionModes
  | .opString | .opName | .opMemberName | .opLine => some .debug
  | .opDecorate | .opMemberDecorate => some .annotations
  | _ => none

theorem Section.home_of_admits {sec other : Section} {o : Op} (before : sec ≠ .code)
    (admitted : sec.admits o = true) (home : o.home = some other) : sec = other := by
  unfold Section.admits at admitted
  split at admitted <;> first
    | exact Option.some.inj home
    | cases home
    | exact absurd rfl before
    | cases admitted

theorem Call.code_home {c : Call} {e : Emission} {returned : Returned}
    (action : c.action = .emit .code e returned) : e.head.opcode.home = none := by
  cases c with
  | flow c => cases c <;> cases action <;> rfl
  | memory c => cases c <;> cases action <;> rfl
  | atomic c => cases c <;> cases action <;> rfl
  | barrier c => cases c <;> cases action <;> rfl
  | misc c => cases c <;> cases action <;> rfl
  | arithmetic c => cases c <;> cases action <;> rfl
  | conversion c => cases c <;> cases action <;> rfl
  | derivatives c => cases c <;> cases action <;> rfl
  | logical c => cases c <;> cases action <;> rfl
  | bit c => cases c <;> cases action <;> rfl
  | group c => cases c <;> cases action <;> rfl
  | image c => cases c <;> cases action <;> rfl
  | addLocalVariable _ _ _ | opExtInst _ _ _ _ => cases action; rfl
  | _ => cases action

theorem listing_code_home (version : U32) (calls : List Call) :
    ∀ i ∈ (listing pf version calls).instructions .code, i.op.home = none := by
  apply Runs.invariant_run
    (I := fun l : Listing => ∀ i ∈ l.instructions .code, i.op.home = none)
  · intro l c _ before
    have added : ∀ (l : Listing) (sec : Section) (e : Emission),
        (∀ i ∈ l.instructions .code, i.op.home = none) →
        (Section.code = sec → e.head.opcode.home = none) →
        ∀ i ∈ (l.emit pf sec e).2.instructions .code, i.op.home = none := by
      intro l sec e before home i member
      rw [l.instructions_emit pf .code sec e] at member
      rcases List.mem_append.mp member with old | new
      · exact before i old
      · split at new
        · rename_i here
          rw [List.mem_singleton.mp new, Emission.instruction_op]
          exact home here
        · exact absurd new List.not_mem_nil
    unfold Listing.step
    cases action : c.action with
    | emit sec e returned =>
      exact added l sec e before fun here => Call.code_home (here ▸ action)
    | deferPhi resultType blocks => exact added l .code _ before fun _ => rfl
    | glsl inst =>
      refine added (l.getGLSLstd450 pf).2 .code _ ?_ fun _ => rfl
      rw [l.instructions_getGLSLstd450 pf (by decide)]
      exact before
    | addLabel label =>
      intro i member
      simp only [Listing.perform, Listing.addLabel, Function.update_self] at member
      rcases List.mem_append.mp member with old | new
      · exact before i old
      · rw [List.mem_singleton.mp new]
        rfl
    | _ => exact before
  · exact fun i member => absurd member List.not_mem_nil

theorem Listing.Placed.filter_op {labels : Id → Prop} {l : Listing} (placed : l.Placed labels)
    (code : ∀ i ∈ l.instructions .code, i.op.home = none) {o : Op} {sec : Section}
    (home : o.home = some sec) :
    (l.all pf).filter (fun i => i.op = o) = (l.instructions sec).filter fun i => i.op = o := by
  have other : ∀ p : Op, p.home = none → p ≠ o := by
    rintro p none rfl
    rw [home] at none
    cases none
  have elsewhere : ∀ part : Section, part ≠ sec →
      (l.instructions part).filter (fun i => i.op = o) = [] := by
    intro part apart
    rw [List.filter_eq_nil_iff]
    intro i member same
    have isOp : i.op = o := by simpa using same
    by_cases inCode : part = .code
    · exact other i.op (code i (inCode ▸ member)) isOp
    · rcases placed.sections part i member with admitted | ⟨same, _⟩
      · exact apart (Section.home_of_admits inCode admitted (isOp ▸ home))
      · exact inCode same
  have mapped : ∀ (α : Type) (f : α → Instruction) (xs : List α),
      (∀ x ∈ xs, (f x).op.home = none) → (xs.map f).filter (fun i => i.op = o) = [] := by
    intro α f xs none
    rw [List.filter_eq_nil_iff]
    intro i member same
    obtain ⟨x, inside, rfl⟩ := List.mem_map.mp member
    exact other _ (none x inside) (by simpa using same)
  have declared : ∀ entry ∈ l.declarations.entries,
      (entry.1.instruction entry.2).op.home = none := by
    intro entry member
    have typed := placed.declarations entry member
    change entry.1.op.home = none
    cases op : entry.1.op <;> first | rfl | (rw [op] at typed; cases typed)
  have model : [memoryModelInstruction l.addressingModel l.memoryModel].filter
      (fun i => i.op = o) = [] := mapped Unit (fun _ => memoryModelInstruction
        l.addressingModel l.memoryModel) [()] fun _ _ => rfl
  simp only [Listing.all, Listing.preamble, Listing.globals, Listing.declarationInstructions,
    List.filter_append, mapped _ _ _ declared, mapped _ capabilityInstruction _ fun _ _ => rfl,
    mapped _ (extensionInstruction pf) _ fun _ _ => rfl, model]
  cases sec <;> simp [elsewhere]

end Sirit
