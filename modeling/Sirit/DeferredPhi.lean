import Mathlib.Data.List.Induction
import Sirit.Layout
import Sirit.Patching
import Sirit.PhiAddress

/- Deferred phis against direct ones: after a patch, a run with deferred phis is the run
   that makes the same phis with the values the patch supplied. -/
namespace Sirit
open Backpatch VectorCursor
variable (pf : Platform)

def Call.phiIndices : Call → List Nat
  | .deferredOpPhi _ blocks => List.range blocks.length
  | _ => []

def Call.phiSizes : Call → List Nat
  | .deferredOpPhi _ blocks => [blocks.length]
  | _ => []

/-- `[v0, b0, v1, b1, ...]` with the values `func` returns from argument `arg` on, after it
    was called with the indices in `log`. -/
def phiOperands (func : PhiFunc) : Nat → List Nat → List Id → List Id
  | _, _, [] => []
  | arg, log, block :: blocks =>
      func (log ++ [arg]) :: block :: phiOperands func (arg + 1) (log ++ [arg]) blocks

def Call.direct (func : PhiFunc) (log : List Nat) : Call → List Call
  | .deferredOpPhi resultType blocks =>
      [.flow (.opPhi resultType (phiOperands func 0 log blocks))]
  | .patchDeferredPhi _ => []
  | c => [c]

def direct (func : PhiFunc) : List Nat → List Call → List Call
  | _, [] => []
  | log, c :: calls => c.direct func log ++ direct func (log ++ c.phiIndices) calls

theorem direct_snoc (func : PhiFunc) (log : List Nat) (calls : List Call) (c : Call) :
    direct func log (calls ++ [c]) =
      direct func log calls ++ c.direct func (log ++ calls.flatMap Call.phiIndices) := by
  induction calls generalizing log with
  | nil => simp [direct]
  | cons c' calls ih =>
    simp only [List.cons_append, direct, ih, List.flatMap_cons, List.append_assoc]

def phiPiece (resultType : Id) (bound : U32) (blocks : List Id) : Piece U32 :=
  .record [makeWord0 (pf.op .opPhi) (3 + 2 * blocks.length), resultType.value, bound + 1]
    (blocks.map fun block => (0, block.value))

theorem operandWords_blocks (blocks : List Id) :
    operandWords pf (blocks.flatMap fun block => [.u32 0, .id block]) =
      slotCells (blocks.map fun block => (0, block.value)) := by
  induction blocks with
  | nil => rfl
  | cons block blocks ih =>
    simp only [List.flatMap_cons, operandWords_append, ih, List.map_cons, slotCells_cons]
    rfl

theorem operandWords_phiOperands (func : PhiFunc) (arg : Nat) (log : List Nat)
    (blocks : List Id) :
    operandWords pf (span .id (phiOperands func arg log blocks)) =
      slotCells (fillSlots (phiValue func) arg log (blocks.map fun block => (0, block.value))) := by
  induction blocks generalizing arg log with
  | nil => rfl
  | cons block blocks ih =>
    have rest := ih (arg + 1) (log ++ [arg])
    simp only [span] at rest
    simp only [phiOperands, span, List.map_cons, operandWords_cons, rest, fillSlots,
      slotCells_cons]
    rfl

theorem deferredOpPhi_words {resultType : Id} (given : resultType.value ≠ 0) (bound : U32)
    (blocks : List Id) :
    ((Sirit.deferredOpPhi resultType blocks).instruction pf bound).words pf =
      (phiPiece pf resultType bound blocks).cells := by
  have tail : ((Sirit.deferredOpPhi resultType blocks).instruction pf bound).tail =
      resultType.value :: (bound + 1) ::
        slotCells (blocks.map fun block => (0, block.value)) := by
    change typeWords resultType.value ++ [bound + 1] ++ operandWords pf _ = _
    rw [typeWords_some given]
    exact congrArg ([resultType.value, bound + 1] ++ ·) (operandWords_blocks pf blocks)
  rw [Instruction.words, tail, phiPiece, Piece.cells]
  simp only [List.length_cons, slotCells_length, List.length_map]
  rw [Nat.add_comm 3]
  rfl

theorem opPhi_words (func : PhiFunc) (log : List Nat) {resultType : Id}
    (given : resultType.value ≠ 0) (bound : U32) (blocks : List Id) :
    ((Sirit.opPhi resultType (phiOperands func 0 log blocks)).instruction pf bound).words pf =
      ((phiPiece pf resultType bound blocks).fill (phiValue func) log).cells := by
  have tail : ((Sirit.opPhi resultType (phiOperands func 0 log blocks)).instruction pf bound).tail =
      resultType.value :: (bound + 1) :: slotCells (fillSlots (phiValue func) 0 log
        (blocks.map fun block => (0, block.value))) := by
    change typeWords resultType.value ++ [bound + 1] ++ operandWords pf _ = _
    rw [typeWords_some given]
    exact congrArg ([resultType.value, bound + 1] ++ ·)
      (operandWords_phiOperands pf func 0 log blocks)
  rw [Instruction.words, tail, phiPiece, Piece.fill, Piece.cells]
  simp only [List.length_cons, slotCells_length, fillSlots_length, List.length_map]
  rw [Nat.add_comm 3]
  rfl

def opened (calls : List Call) : Bool :=
  calls.foldl (fun opened c => if c.action.writesCode then c.opensBlock else opened) false

theorem opened_snoc (calls : List Call) (c : Call) : opened (calls ++ [c]) =
    if c.action.writesCode then c.opensBlock else opened calls := by
  rw [opened, List.foldl_append]
  rfl

def Call.defersPhi : Call → Bool
  | .deferredOpPhi _ _ => true
  | _ => false

/-- Phis open a block: every deferred phi follows a label or a phi in the code. -/
def PhisOpenBlocks (calls : List Call) : Prop :=
  ∀ (i : Nat) (inside : i < calls.length), calls[i].defersPhi = true →
    opened (calls.take i) = true

instance decidablePhisOpenBlocks (calls : List Call) : Decidable (PhisOpenBlocks calls) :=
  inferInstanceAs (Decidable (∀ (i : Nat) (_ : i < _), _ → _))

theorem slack_of_opened (version : U32) {calls : List Call} (asserts : ∀ c ∈ calls, c.Asserts)
    (fits : ∀ c ∈ calls, c.action.CodeFits) :
    ((Module.new pf version).run pf calls).code.slack ≤ 2 ∧
      (opened calls = true → ((Module.new pf version).run pf calls).code.slack = 0) := by
  induction calls using List.reverseRecOn with
  | nil => exact ⟨Nat.zero_le 2, fun _ => rfl⟩
  | append_singleton calls c ih =>
    obtain ⟨before, none⟩ := ih (fun c member => asserts c (by simp [member]))
      (fun c member => fits c (by simp [member]))
    have meets := asserts c (by simp)
    rw [Module.run_snoc, opened_snoc]
    refine ⟨Module.slack_exec_le pf meets (fits c (by simp)) before, ?_⟩
    by_cases writes : c.action.writesCode = true
    · rw [if_pos writes]
      exact Module.slack_opensBlock pf meets before
    · rw [if_neg writes, Module.slack_elsewhere pf (by simpa using writes)]
      exact none

def VariableSlot (version : U32) (calls : List Call) (i : Nat) : Prop :=
  ∃ before resultType blocks after k,
    calls = before ++ .deferredOpPhi resultType blocks :: after ∧ k < blocks.length ∧
      i = ((Module.new pf version).run pf before).code.insertIndex + 3 + 2 * k

theorem VariableSlot.snoc {version : U32} {calls : List Call} {i : Nat}
    (slot : VariableSlot pf version calls i) (c : Call) :
    VariableSlot pf version (calls ++ [c]) i := by
  obtain ⟨before, resultType, blocks, after, k, rfl, inside, place⟩ := slot
  exact ⟨before, resultType, blocks, after ++ [c], k, by simp, inside, place⟩

def unpatched (entries : List (Call × Option Id)) : List (Option Id) :=
  (entries.filter fun entry => decide (¬ entry.1.action.IsPatch)).map Prod.snd

theorem unpatched_append (first second : List (Call × Option Id)) :
    unpatched (first ++ second) = unpatched first ++ unpatched second := by
  rw [unpatched, List.filter_append, List.map_append]
  rfl

theorem unpatched_single {c : Call} (answer : Option Id) (other : ¬ c.action.IsPatch) :
    unpatched [(c, answer)] = [answer] := by
  simp [unpatched, other]

def Module.codeWords (m : Module) (a : Action) : List U32 :=
  match a with
  | .addLabel label => (labelInstruction label).words pf
  | a => ((m.codeEmission pf a).map fun e => (e.1.instruction pf e.2).words pf).getD []

theorem Module.written_perform (m : Module) {a : Action} (other : ¬ a.IsPatch) :
    (m.perform pf a).2.code.written = m.code.written ++ m.codeWords pf a := by
  have nothing := (List.append_nil m.code.written).symm
  cases a with
  | emit sec e returned =>
    cases sec with
    | code => exact Stream.written_emit pf e m.code m.bound
    | _ => exact nothing
  | deferPhi resultType blocks => exact Stream.written_emit pf _ m.code m.bound
  | glsl inst =>
    have written := Stream.written_emit pf (opExtInst inst.resultType (m.getGLSLstd450 pf).1
      (pf.glslStd450 inst.opcode) inst.operands) (m.getGLSLstd450 pf).2.code
      (m.getGLSLstd450 pf).2.bound
    rw [(m.getGLSLstd450_code pf).1] at written
    rw [← (m.getGLSLstd450_code pf).1] at written ⊢
    exact written
  | addLabel label => exact m.written_addLabel pf label
  | patch func => exact absurd trivial other
  | addExtension extensionName =>
    exact (congrArg (fun s : Stream => s.written) (m.addExtension_code extensionName).1).trans
      nothing
  | addCapability capability =>
    exact (congrArg (fun s : Stream => s.written) (m.addCapability_code capability).1).trans
      nothing
  | _ => exact nothing

theorem Refines.codeWords_eq {tracked : Section → Prop} {m d : Module} {l : Listing}
    (refines : Refines pf tracked m l) (refines' : Refines pf tracked d l) (a : Action) :
    m.codeWords pf a = d.codeWords pf a := by
  have bound : m.bound = d.bound := refines.bound.trans refines'.bound.symm
  cases a with
  | emit sec e returned => cases sec <;> simp only [Module.codeWords, Module.codeEmission, bound]
  | deferPhi resultType blocks => simp only [Module.codeWords, Module.codeEmission, bound]
  | glsl inst =>
    obtain ⟨id, after⟩ := refines.getGLSLstd450
    obtain ⟨id', after'⟩ := refines'.getGLSLstd450
    simp only [Module.codeWords, Module.codeEmission, id, id', after.bound, after'.bound]
  | _ => rfl

theorem Refines.recode {m : Module} {l : Listing} {e e' : Emission}
    (refines : Refines pf (· ≠ .code) m (l.emit pf .code e).2) (same : e.results = e'.results) :
    Refines pf (· ≠ .code) m (l.emit pf .code e').2 :=
  { refines with
    bound := by
      rw [refines.bound]
      simp only [Listing.emit, Listing.bound, same]
    sections := by
      intro sec other
      rw [refines.sections sec other]
      simp only [Listing.emit, Function.update_of_ne other] }

/-- The code of the run is made of `ps`, and that of the run with direct phis of the same
    pieces with their slots filled; the two modules agree on everything else. -/
structure Deferral (version : U32) (func : PhiFunc) (calls : List Call)
    (ps : List (Piece U32)) : Prop where
  laid : Laid pf ((Module.new pf version).run pf calls) ps
  refines : Refines pf (· ≠ .code) ((Module.new pf version).run pf calls)
    (listing pf version calls)
  direct : Refines pf (· ≠ .code) ((Module.new pf version).run pf (direct func [] calls))
    (listing pf version calls)
  returned : unpatched ((Module.new pf version).trace pf calls) =
    unpatched ((Module.new pf version).trace pf (Sirit.direct func [] calls))
  filled : ((Module.new pf version).run pf (Sirit.direct func [] calls)).code.written =
    cells (fill (phiValue func) [] ps)
  numbers : numbers ps = calls.flatMap Call.phiIndices
  sizes : sizes ps = calls.flatMap Call.phiSizes
  slots : ∀ i ∈ slotOffsets 0 ps, VariableSlot pf version calls i

theorem Deferral.new (version : U32) (func : PhiFunc) : Deferral pf version func [] [] where
  laid := ⟨rfl, rfl, fun _ member => absurd member List.not_mem_nil⟩
  refines := Refines.new pf _ version
  direct := Refines.new pf _ version
  returned := rfl
  filled := rfl
  numbers := rfl
  sizes := rfl
  slots := fun _ member => absurd member List.not_mem_nil

section Step
variable {pf} {version : U32} {func : PhiFunc} {calls : List Call} {ps : List (Piece U32)}
  (deferral : Deferral pf version func calls ps)
include deferral

theorem Deferral.other {c : Call} (alone : ∀ log, c.direct func log = [c])
    (none : c.phiIndices = [] ∧ c.phiSizes = []) (other : ¬ c.action.IsPatch)
    (eager : ∀ resultType blocks, c.action ≠ .deferPhi resultType blocks) :
    Deferral pf version func (calls ++ [c])
      (ps ++ [.text (((Module.new pf version).run pf calls).codeWords pf c.action)]) := by
  obtain ⟨answer, refines⟩ := deferral.refines.perform c.action (fun patch => absurd patch other)
  obtain ⟨answer', direct⟩ := deferral.direct.perform c.action (fun patch => absurd patch other)
  have words := Refines.codeWords_eq pf deferral.refines deferral.direct c.action
  have code := Module.written_perform pf ((Module.new pf version).run pf calls) other
  have code' := Module.written_perform pf
    ((Module.new pf version).run pf (Sirit.direct func [] calls)) other
  constructor
  case laid =>
    rw [Module.run_snoc]
    refine ⟨?_, ?_, ?_⟩
    · rw [Module.exec, code, cells_append, ← deferral.laid.written]
      exact congrArg _ (List.append_nil _).symm
    · rw [Module.exec, Module.nodes_perform pf _ eager, deferral.laid.nodes, starts_append]
      exact congrArg _ (List.append_nil _).symm
    · intro p member
      rcases List.mem_append.mp member with old | new
      · exact deferral.laid.phis p old
      · rw [List.mem_singleton.mp new]
        trivial
  case refines =>
    rw [Module.run_snoc, listing_snoc]
    exact refines
  case direct =>
    rw [direct_snoc, alone, Module.run_snoc, listing_snoc]
    exact direct
  case returned =>
    rw [direct_snoc, alone, Module.trace_snoc, Module.trace_snoc, unpatched_append,
      unpatched_append, deferral.returned, unpatched_single _ other, unpatched_single _ other,
      Module.exec, Module.exec, answer, answer']
  case filled =>
    rw [direct_snoc, alone, Module.run_snoc, Module.exec, code', deferral.filled, fill_append,
      cells_append, ← words]
    exact congrArg _ (List.append_nil _).symm
  case numbers =>
    rw [numbers_append, List.flatMap_append, deferral.numbers, List.flatMap_cons, none.1]
    rfl
  case sizes =>
    rw [sizes_append, List.flatMap_append, deferral.sizes, List.flatMap_cons, none.2]
    rfl
  case slots =>
    intro i member
    rw [slotOffsets_append] at member
    rcases List.mem_append.mp member with old | new
    · exact (deferral.slots i old).snoc pf c
    · exact absurd new List.not_mem_nil

theorem Deferral.patch (earlier : PhiFunc)
    (small : ((Module.new pf version).run pf calls).code.insertIndex < 2 ^ 32) :
    Deferral pf version func (calls ++ [.patchDeferredPhi earlier])
      (fill (phiValue earlier) [] ps) := by
  constructor
  case laid =>
    rw [Module.run_snoc]
    exact deferral.laid.patch small earlier
  case refines =>
    rw [Module.run_snoc, listing_snoc]
    exact deferral.refines.patch earlier (fun tracked => tracked rfl)
  case direct =>
    rw [direct_snoc, listing_snoc]
    exact (List.append_nil (Sirit.direct func [] calls)).symm ▸ deferral.direct
  case returned =>
    rw [direct_snoc, Module.trace_snoc, unpatched_append, deferral.returned]
    exact (List.append_nil (Sirit.direct func [] calls)).symm ▸ List.append_nil _
  case filled =>
    rw [direct_snoc, fill_fill]
    exact (List.append_nil (Sirit.direct func [] calls)).symm ▸ deferral.filled
  case numbers =>
    rw [numbers_fill, deferral.numbers, List.flatMap_append]
    exact (List.append_nil _).symm
  case sizes =>
    rw [sizes_fill, deferral.sizes, List.flatMap_append]
    exact (List.append_nil _).symm
  case slots =>
    intro i member
    rw [slotOffsets_fill] at member
    exact (deferral.slots i member).snoc pf _

theorem Deferral.phi {resultType : Id} {blocks : List Id} (given : resultType.value ≠ 0)
    (short : 3 + 2 * blocks.length ≤ 65535)
    (tight : ((Module.new pf version).run pf calls).code.slack = 0) :
    Deferral pf version func (calls ++ [.deferredOpPhi resultType blocks])
      (ps ++ [phiPiece pf resultType ((Module.new pf version).run pf calls).bound blocks]) := by
  have long : (cells ps).length = ((Module.new pf version).run pf calls).code.insertIndex := by
    rw [← deferral.laid.written, Cursor.written_length]
  have address : ((Module.new pf version).run pf calls).code.localAddress =
      BitVec.ofNat 32 (0 + (cells ps).length) := by
    rw [Stream.localAddress, Cursor.words_length, tight, long, Nat.zero_add]
    rfl
  let operands := phiOperands func 0 ([] ++ calls.flatMap Call.phiIndices) blocks
  have replaced : Sirit.direct func [] (calls ++ [.deferredOpPhi resultType blocks]) =
      Sirit.direct func [] calls ++ [.flow (.opPhi resultType operands)] :=
    direct_snoc func [] calls _
  constructor
  case laid =>
    rw [Module.run_snoc]
    refine ⟨?_, ?_, ?_⟩
    · have code := Module.written_perform pf ((Module.new pf version).run pf calls)
        (a := .deferPhi resultType blocks) (fun patch => patch)
      refine code.trans ?_
      rw [cells_append, deferral.laid.written]
      exact congrArg _ ((deferredOpPhi_words pf given _ blocks).trans (List.append_nil _).symm)
    · rw [starts_append, List.map_append, ← deferral.laid.nodes]
      exact congrArg (_ ++ [·]) address
    · intro p member
      rcases List.mem_append.mp member with old | new
      · exact deferral.laid.phis p old
      · rw [List.mem_singleton.mp new]
        refine ⟨?_, ?_⟩
        · simpa using short
        · exact ⟨_, _, by rw [List.length_map]⟩
  case refines =>
    rw [Module.run_snoc, listing_snoc]
    exact (deferral.refines.perform (.deferPhi resultType blocks) (fun patch _ => patch)).2
  case direct =>
    have after := (deferral.direct.emit .code (Sirit.opPhi resultType operands)).2
    rw [replaced, Module.run_snoc, listing_snoc]
    exact Refines.recode pf after rfl
  case returned =>
    have answer := (deferral.refines.perform (.deferPhi resultType blocks)
      (fun patch _ => patch)).1
    have answer' := (deferral.direct.perform
      (.emit .code (Sirit.opPhi resultType operands) .endOp) (fun patch _ => patch)).1
    rw [replaced, Module.trace_snoc, Module.trace_snoc, unpatched_append, unpatched_append,
      deferral.returned,
      unpatched_single (c := .deferredOpPhi resultType blocks) _ (fun patch => patch),
      unpatched_single (c := .flow (.opPhi resultType operands)) _ (fun patch => patch)]
    exact congrArg (_ ++ [·]) (answer.trans answer'.symm)
  case filled =>
    have code := Module.written_perform pf
      ((Module.new pf version).run pf (Sirit.direct func [] calls))
      (a := .emit .code (Sirit.opPhi resultType operands) .endOp) (fun patch => patch)
    have bound : ((Module.new pf version).run pf (Sirit.direct func [] calls)).bound =
        ((Module.new pf version).run pf calls).bound :=
      deferral.direct.bound.trans deferral.refines.bound.symm
    rw [replaced, Module.run_snoc]
    refine code.trans ?_
    rw [fill_append, cells_append, deferral.filled, deferral.numbers, ← bound]
    exact congrArg _ ((opPhi_words pf func _ given _ blocks).trans (List.append_nil _).symm)
  case numbers =>
    rw [numbers_append, List.flatMap_append, deferral.numbers]
    simp [Backpatch.numbers, phiPiece, Piece.numbers, Call.phiIndices]
  case sizes =>
    rw [sizes_append, List.flatMap_append, deferral.sizes]
    simp [Backpatch.sizes, phiPiece, Piece.sizes, Call.phiSizes]
  case slots =>
    intro i member
    rw [slotOffsets_append] at member
    rcases List.mem_append.mp member with old | new
    · exact (deferral.slots i old).snoc pf _
    · rw [slotOffsets, slotOffsets, List.append_nil] at new
      obtain ⟨k, inside, rfl⟩ := List.mem_map.mp new
      rw [List.mem_range, List.length_map] at inside
      refine ⟨calls, resultType, blocks, [], k, rfl, inside, ?_⟩
      rw [long, Nat.zero_add]
      rfl

end Step

structure TightPhi (version : U32) (before : List Call) (resultType : Id) (blocks : List Id) :
    Prop where
  typed : resultType.value ≠ 0
  short : 3 + 2 * blocks.length ≤ 65535
  tight : ((Module.new pf version).run pf before).code.slack = 0

theorem exists_deferral_of_tight (version : U32) (func : PhiFunc) {calls : List Call}
    (tight : ∀ before resultType blocks after,
      calls = before ++ .deferredOpPhi resultType blocks :: after →
        TightPhi pf version before resultType blocks)
    (small : ((Module.new pf version).run pf calls).code.insertIndex < 2 ^ 32) :
    ∃ ps, Deferral pf version func calls ps := by
  induction calls using List.reverseRecOn with
  | nil => exact ⟨[], Deferral.new pf version func⟩
  | append_singleton calls c ih =>
    have small' : ((Module.new pf version).run pf calls).code.insertIndex < 2 ^ 32 := by
      rw [Module.run_snoc] at small
      exact Nat.lt_of_le_of_lt (Module.insertIndex_exec pf _ c) small
    obtain ⟨ps, deferral⟩ := ih (by
      intro before resultType blocks after same
      exact tight before resultType blocks (after ++ [c]) (by simp [same])) small'
    cases c with
    | deferredOpPhi resultType blocks =>
      obtain ⟨typed, short, none⟩ := tight calls resultType blocks [] rfl
      exact ⟨_, deferral.phi typed short none⟩
    | patchDeferredPhi earlier => exact ⟨_, deferral.patch earlier small'⟩
    | _ =>
      exact ⟨_, deferral.other (fun _ => rfl) ⟨rfl, rfl⟩ (by simp [Call.action, Action.IsPatch])
        (by simp [Call.action])⟩

theorem PhisOpenBlocks.before {calls before after : List Call} {resultType : Id}
    {blocks : List Id} (opens : PhisOpenBlocks calls)
    (same : calls = before ++ .deferredOpPhi resultType blocks :: after) :
    opened before = true := by
  subst same
  have here := opens before.length (by simp)
  rw [List.getElem_append_right (Nat.le_refl _), List.take_left] at here
  exact here (by simp [Call.defersPhi])

theorem exists_deferral (version : U32) (func : PhiFunc) {calls : List Call}
    (opens : PhisOpenBlocks calls) (asserts : ∀ c ∈ calls, c.Asserts)
    (fits : ∀ c ∈ calls, c.action.CodeFits)
    (short : ∀ resultType blocks, Call.deferredOpPhi resultType blocks ∈ calls →
      3 + 2 * blocks.length ≤ 65535)
    (small : ((Module.new pf version).run pf calls).code.insertIndex < 2 ^ 32) :
    ∃ ps, Deferral pf version func calls ps := by
  apply exists_deferral_of_tight pf version func _ small
  intro before resultType blocks after same
  have listed : ∀ c ∈ before, c ∈ calls := fun c member => by simp [same, member]
  constructor
  case typed => exact (asserts (.deferredOpPhi resultType blocks) (by simp [same])).1.1
  case short => exact short resultType blocks (by simp [same])
  case tight =>
    exact (slack_of_opened pf version (fun c member => asserts c (listed c member))
      fun c member => fits c (listed c member)).2 (opens.before same)

theorem phiOperands_length (func : PhiFunc) (arg : Nat) (log : List Nat) (blocks : List Id) :
    (phiOperands func arg log blocks).length = 2 * blocks.length := by
  induction blocks generalizing arg log with
  | nil => rfl
  | cons block blocks ih =>
    simp only [phiOperands, List.length_cons, ih]
    omega

theorem phiOperands_nonzero {func : PhiFunc} (nonzero : ∀ indices, (func indices).value ≠ 0)
    {arg : Nat} {log : List Nat} {blocks : List Id} (given : ∀ block ∈ blocks, block.value ≠ 0) :
    ∀ operand ∈ phiOperands func arg log blocks, operand.value ≠ 0 := by
  induction blocks generalizing arg log with
  | nil => exact fun operand member => absurd member List.not_mem_nil
  | cons block blocks ih =>
    intro operand member
    rcases List.mem_cons.mp member with rfl | member
    · exact nonzero _
    · rcases List.mem_cons.mp member with rfl | later
      · exact given _ (by simp)
      · exact ih (fun b listed => given b (by simp [listed])) operand later

theorem asserts_direct {func : PhiFunc} (nonzero : ∀ indices, (func indices).value ≠ 0)
    {log : List Nat} {calls : List Call} (asserts : ∀ c ∈ calls, c.Asserts) :
    ∀ c ∈ direct func log calls, c.Asserts := by
  induction calls generalizing log with
  | nil => exact fun c member => absurd member List.not_mem_nil
  | cons c calls ih =>
    intro c' member
    have meets := asserts c (by simp)
    rcases List.mem_append.mp member with first | later
    · cases c with
      | deferredOpPhi resultType blocks =>
        rw [List.mem_singleton.mp first]
        have given : ∀ block ∈ blocks, block.value ≠ 0 := by
          intro block listed
          exact meets.1.2 (.id block) (List.mem_flatMap.mpr ⟨block, listed, by simp⟩)
        refine ⟨⟨meets.1.1, ?_⟩, ?_⟩
        · intro o listed
          obtain ⟨operand, inside, rfl⟩ := List.mem_map.mp listed
          exact phiOperands_nonzero nonzero given operand inside
        · change (phiOperands func 0 log blocks).length % 2 = 0
          rw [phiOperands_length]
          omega
      | patchDeferredPhi earlier => exact absurd first List.not_mem_nil
      | _ =>
        rw [List.mem_singleton.mp first]
        exact meets
    · exact ih (fun c listed => asserts c (by simp [listed])) c' later

theorem Deferral.elsewhere {version : U32} {func : PhiFunc} {calls : List Call}
    {ps : List (Piece U32)} (deferral : Deferral pf version func calls ps)
    (small : ((Module.new pf version).run pf calls).code.insertIndex < 2 ^ 32) {i : Nat}
    (fixed : ∀ k, VariableSlot pf version calls k →
      i ≠ ((Module.new pf version).run pf calls).codeStart pf + k) :
    ((((Module.new pf version).run pf calls).patchDeferredPhi func).2.assemble pf)[i]? =
      (((Module.new pf version).run pf calls).assemble pf)[i]? := by
  obtain ⟨front, before, after⟩ : ∃ front,
      ((Module.new pf version).run pf calls).assemble pf =
        front ++ ((Module.new pf version).run pf calls).code.written ∧
      (((Module.new pf version).run pf calls).patchDeferredPhi func).2.assemble pf =
        front ++ (((Module.new pf version).run pf calls).patchDeferredPhi func).2.code.written :=
    ⟨_, rfl, rfl⟩
  have start : ((Module.new pf version).run pf calls).codeStart pf = front.length := by
    rw [Module.codeStart, before, List.length_append, Nat.add_sub_cancel]
  rw [before, after, (deferral.laid.patch small func).written, deferral.laid.written]
  by_cases inFront : i < front.length
  · rw [List.getElem?_append_left inFront, List.getElem?_append_left inFront]
  · rw [List.getElem?_append_right (by omega), List.getElem?_append_right (by omega)]
    apply fill_getElem? (phiValue func) 0
    intro slot
    exact fixed _ (deferral.slots _ slot) (by omega)

/-- What a patch after the calls gives, against the run with direct phis. -/
structure PatchIsDirect (version : U32) (calls : List Call) (func : PhiFunc) : Prop where
  called : (((Module.new pf version).run pf calls).patchDeferredPhi func).1 =
    calls.flatMap Call.phiIndices
  assembled : (((Module.new pf version).run pf calls).patchDeferredPhi func).2.assemble pf =
    ((Module.new pf version).run pf (direct func [] calls)).assemble pf
  returned : unpatched ((Module.new pf version).trace pf calls) =
    unpatched ((Module.new pf version).trace pf (direct func [] calls))
  asserted : ∀ c ∈ direct func [] calls, c.Asserts
  elsewhere : ∀ i, (∀ k, VariableSlot pf version calls k →
      i ≠ ((Module.new pf version).run pf calls).codeStart pf + k) →
    ((((Module.new pf version).run pf calls).patchDeferredPhi func).2.assemble pf)[i]? =
      (((Module.new pf version).run pf calls).assemble pf)[i]?
  replaced : ∀ earlier : PhiFunc,
    (((Module.new pf version).run pf calls).patchDeferredPhi earlier).2.patchDeferredPhi func =
      ((Module.new pf version).run pf calls).patchDeferredPhi func

/-- Deferred phis that open their blocks become direct phis when they are patched. -/
theorem deferred_phis_are_direct (version : U32) {calls : List Call} {func : PhiFunc}
    (opens : PhisOpenBlocks calls) (asserts : ∀ c ∈ calls, c.Asserts)
    (fits : ∀ c ∈ calls, c.action.CodeFits)
    (short : ∀ resultType blocks, Call.deferredOpPhi resultType blocks ∈ calls →
      3 + 2 * blocks.length ≤ 65535)
    (small : ((Module.new pf version).run pf calls).code.insertIndex < 2 ^ 32)
    (nonzero : ∀ indices, (func indices).value ≠ 0) : PatchIsDirect pf version calls func := by
  obtain ⟨ps, deferral⟩ := exists_deferral pf version func opens asserts fits short small
  constructor
  case called => rw [(deferral.laid.patch_code small func).1, deferral.numbers]
  case assembled =>
    have patched := deferral.refines.patch func (fun tracked => tracked rfl)
    rw [patched.assemble_eq fun _ other => other, deferral.direct.assemble_eq fun _ other => other,
      deferral.filled, (deferral.laid.patch small func).written]
  case returned => exact deferral.returned
  case asserted => exact asserts_direct nonzero asserts
  case elsewhere => exact fun i fixed => deferral.elsewhere pf small fixed
  case replaced => exact fun earlier => deferral.laid.patch_patch small func earlier

theorem deferred_phis_are_direct_two : PatchIsDirect linuxX86 0
    [.addLabel ⟨5⟩, .flow (.opBranchConditional ⟨2⟩ ⟨6⟩ ⟨7⟩ 0 0), .addLabel ⟨6⟩,
      .deferredOpPhi ⟨1⟩ [⟨5⟩, ⟨7⟩], .patchDeferredPhi fun _ => ⟨9⟩, .deferredOpPhi ⟨1⟩ [⟨5⟩],
      .flow (.opReturn)] fun indices => if indices.length = 2 then ⟨3⟩ else ⟨4⟩ := by
  apply deferred_phis_are_direct linuxX86 0 (by decide) (by decide) (by decide) ?_ (by decide)
  · intro indices
    split <;> decide
  · intro resultType blocks member
    simp only [List.mem_cons, List.not_mem_nil, reduceCtorEq, false_or, or_false,
      Call.deferredOpPhi.injEq] at member
    rcases member with ⟨_, rfl⟩ | ⟨_, rfl⟩
    · decide
    · decide

end Sirit
