import Sirit.DeferredPhi
import Sirit.SizedRuns

/- What is left allocated behind the code, computed from the calls alone, and what it means
   for a deferred phi: its address is right exactly when nothing is left. -/
namespace Sirit
open Backpatch StdVector VectorCursor
variable (pf : Platform)

def Action.codeRequest : Action → Option (Nat × Nat)
  | .emit .code e _ => some (e.reserved, e.width)
  | .deferPhi resultType blocks =>
      some ((Sirit.deferredOpPhi resultType blocks).reserved,
        (Sirit.deferredOpPhi resultType blocks).width)
  | .glsl inst =>
      some ((opExtInst inst.resultType ⟨0⟩ 0 inst.operands).reserved,
        (opExtInst inst.resultType ⟨0⟩ 0 inst.operands).width)
  | .addLabel _ => some (2, 2)
  | _ => none

/-- `Reserve` grows the vector to the request if less is left, and writing uses words up. -/
def Call.leftover (left : Nat) (c : Call) : Nat :=
  match c.action.codeRequest with
  | some (reserved, width) => max left reserved - width
  | none => left

def leftover (calls : List Call) : Nat := calls.foldl Call.leftover 0

theorem Module.slack_exec (m : Module) (c : Call) :
    (m.exec pf c).2.code.slack = c.leftover m.code.slack := by
  unfold Module.exec Call.leftover
  cases c.action with
  | emit sec e returned =>
    cases sec with
    | code => exact Stream.slack_emit pf e m.code m.bound
    | _ => rfl
  | deferPhi resultType blocks =>
    exact Stream.slack_emit pf (Sirit.deferredOpPhi resultType blocks) m.code m.bound
  | glsl inst =>
    have emitted := Stream.slack_emit pf (opExtInst inst.resultType (m.getGLSLstd450 pf).1
      (pf.glslStd450 inst.opcode) inst.operands) (m.getGLSLstd450 pf).2.code
      (m.getGLSLstd450 pf).2.bound
    rw [(m.getGLSLstd450_code pf).1] at emitted
    rw [← (m.getGLSLstd450_code pf).1] at emitted ⊢
    exact emitted
  | addLabel label => exact m.slack_addLabel pf label
  | patch func => exact m.patch_slack func
  | addExtension extensionName =>
    exact congrArg (fun s : Stream => s.slack) (m.addExtension_code extensionName).1
  | addCapability capability =>
    exact congrArg (fun s : Stream => s.slack) (m.addCapability_code capability).1
  | _ => rfl

theorem run_leftover (version : U32) (calls : List Call) :
    ((Module.new pf version).run pf calls).code.slack = leftover calls := by
  induction calls using List.reverseRecOn with
  | nil => rfl
  | append_singleton calls c ih =>
    rw [Module.run_snoc, Module.slack_exec, ih, leftover, leftover, List.foldl_append]
    rfl

theorem SizedStream.size_emit {e : Emission} (fits : e.width ≤ e.reserved) {s : SizedStream}
    (bound : U32) {left : Nat} (before : s.size = s.insertIndex + left) :
    (s.emit pf e bound).2.1.size =
      (s.emit pf e bound).2.1.insertIndex + (max left e.reserved - e.width) := by
  have memory := (s.emit_eq pf e bound).2.1
  have size := congrArg Memory.size memory
  have index := congrArg Memory.insertIndex memory
  have long : ((e.instruction pf bound).openWords pf).length = e.width :=
    e.instruction_width pf bound
  simp only [Memory.modify, Memory.size_putAll, Memory.size_reserve, Memory.insertIndex_putAll,
    Memory.insertIndex_reserve, long] at size index
  omega

theorem SizedModule.size_exec {s : SizedModule} {c : Call} (fits : c.action.CodeFits)
    {left : Nat} (before : (s.streams .code).size = (s.streams .code).insertIndex + left) :
    ((s.exec pf c).2.streams .code).size =
      ((s.exec pf c).2.streams .code).insertIndex + c.leftover left := by
  unfold SizedModule.exec Call.leftover
  cases action : c.action with
  | emit sec e returned =>
    rw [action] at fits
    cases sec with
    | code => exact SizedStream.size_emit pf fits s.bound before
    | _ => exact before
  | deferPhi resultType blocks =>
    exact SizedStream.size_emit pf (deferredOpPhi_width_le resultType blocks) s.bound before
  | glsl inst =>
    have code : (s.getGLSLstd450 pf).2.streams .code = s.streams .code := by
      unfold SizedModule.getGLSLstd450
      split <;> rfl
    rw [← code] at before
    exact SizedStream.size_emit pf (opExtInst_width_le _ _ _ _) _ before
  | addLabel label =>
    have size : ((s.addLabel pf label).streams .code).size =
        max (s.streams .code).size ((s.streams .code).insertIndex + 2) := by
      exact (Memory.size_putAll _ _).trans (Memory.size_reserve 0 2 _)
    have index : ((s.addLabel pf label).streams .code).insertIndex =
        (s.streams .code).insertIndex + 2 := by
      have reserved := Memory.insertIndex_reserve 0 2 (s.streams .code).toMemory
      exact (Memory.insertIndex_putAll _ _).trans (congrArg (· + 2) reserved)
    change ((s.addLabel pf label).streams .code).size =
      ((s.addLabel pf label).streams .code).insertIndex + (max left 2 - 2)
    omega
  | patch func =>
    exact s.patch_keeps (I := fun code => code.size = code.insertIndex + left) func
      (fun _ _ _ kept => kept) before
  | _ => exact before

theorem run_size (version : U32) {calls : List Call} (fits : ∀ c ∈ calls, c.action.CodeFits) :
    (((SizedModule.new pf version).run pf calls).streams .code).size =
      (((SizedModule.new pf version).run pf calls).streams .code).insertIndex +
        leftover calls := by
  induction calls using List.reverseRecOn with
  | nil => rfl
  | append_singleton calls c ih =>
    have before := ih fun c member => fits c (List.mem_append_left _ member)
    have after := SizedModule.size_exec pf (fits c (by simp)) before
    rw [SizedModule.run, Runs.run_append, leftover, List.foldl_append]
    exact after

def Call.isPhi : Call → Bool
  | .flow (.opPhi _ _) => true
  | .deferredOpPhi _ _ => true
  | _ => false

theorem opened_label (before : List Call) (label : Id) {phis : List Call}
    (only : ∀ c ∈ phis, c.isPhi = true) :
    opened (before ++ .addLabel label :: phis) = true := by
  induction phis using List.reverseRecOn with
  | nil => exact opened_snoc before (.addLabel label)
  | append_singleton phis c _ =>
    have phi := only c (by simp)
    have last : opened ((before ++ .addLabel label :: phis) ++ [c]) = true := by
      rw [opened_snoc]
      cases c with
      | flow c =>
        cases c with
        | opPhi resultType operands => rfl
        | _ => cases phi
      | deferredOpPhi resultType blocks => rfl
      | _ => cases phi
    rwa [List.append_assoc] at last

/-- After every call of a run at most two words are left allocated behind the code, and
    none after a label and the phis that follow it. -/
theorem slack_bounded (version : U32) (calls : List Call) (asserts : ∀ c ∈ calls, c.Asserts)
    (fits : ∀ c ∈ calls, c.action.CodeFits) :
    (∀ made rest, calls = made ++ rest →
      (((SizedModule.new pf version).run pf made).streams .code).insertIndex ≤
          (((SizedModule.new pf version).run pf made).streams .code).size ∧
        (((SizedModule.new pf version).run pf made).streams .code).size ≤
          (((SizedModule.new pf version).run pf made).streams .code).insertIndex + 2) ∧
    ∀ before label phis rest, calls = before ++ .addLabel label :: phis ++ rest →
      (∀ c ∈ phis, c.isPhi = true) →
      (((SizedModule.new pf version).run pf (before ++ .addLabel label :: phis)).streams
          .code).size =
        (((SizedModule.new pf version).run pf (before ++ .addLabel label :: phis)).streams
          .code).insertIndex := by
  have bounds : ∀ made rest, calls = made ++ rest →
      (((SizedModule.new pf version).run pf made).streams .code).size =
          (((SizedModule.new pf version).run pf made).streams .code).insertIndex +
            leftover made ∧
        leftover made ≤ 2 ∧ (opened made = true → leftover made = 0) := by
    intro made rest cut
    have fits' : ∀ c ∈ made, c.action.CodeFits := fun c member => fits c (by simp [cut, member])
    have slack := slack_of_opened pf version
      (fun c member => asserts c (by simp [cut, member])) fits'
    rw [run_leftover] at slack
    exact ⟨run_size pf version fits', slack⟩
  refine ⟨?_, ?_⟩
  · intro made rest cut
    obtain ⟨size, small, _⟩ := bounds made rest cut
    omega
  · intro before label phis rest cut only
    obtain ⟨size, _, none⟩ := bounds _ rest cut
    rw [size, none (opened_label before label only), Nat.add_zero]

theorem slack_bounded_branch : (((SizedModule.new linuxX86 0).run linuxX86
    [.flow (.opBranchConditional ⟨1⟩ ⟨2⟩ ⟨3⟩ 0 0), .addLabel ⟨2⟩,
      .deferredOpPhi ⟨4⟩ [⟨5⟩]]).streams .code).size =
    (((SizedModule.new linuxX86 0).run linuxX86
      [.flow (.opBranchConditional ⟨1⟩ ⟨2⟩ ⟨3⟩ 0 0), .addLabel ⟨2⟩,
        .deferredOpPhi ⟨4⟩ [⟨5⟩]]).streams .code).insertIndex :=
  (slack_bounded linuxX86 0 [.flow (.opBranchConditional ⟨1⟩ ⟨2⟩ ⟨3⟩ 0 0), .addLabel ⟨2⟩,
      .deferredOpPhi ⟨4⟩ [⟨5⟩]] (by decide) (by decide)).2
    [.flow (.opBranchConditional ⟨1⟩ ⟨2⟩ ⟨3⟩ 0 0)] ⟨2⟩ [.deferredOpPhi ⟨4⟩ [⟨5⟩]] []
    rfl (by decide)

/-- What a patch reads at each node: the first word there, after the nodes before it. -/
def patchReads (func : PhiFunc) : List U32 → List Nat × Stream → List (U32 × U32)
  | [], _ => []
  | phiIndex :: nodes, r =>
      (phiIndex, r.2.value phiIndex) :: patchReads func nodes (patchPhi func r phiIndex)

/-- The first word is the header of a phi with this many blocks: the assert on the opcode
    holds, the count of arguments is theirs, and the cursor stays inside the instruction. -/
structure PhiRead (phiIndex firstWord : U32) (blocks : Nat) : Prop where
  asserted : firstWord &&& 0xFFFF = pf.op .opPhi
  long : 3 ≤ firstWord >>> 16
  numArgs : ((firstWord >>> 16 - 3) / 2).toNat = blocks
  cursors : ∀ arg < blocks, phiIndex.toNat + 3 + 2 * arg =
      (phiIndex + 3 + 2 * BitVec.ofNat 32 arg).toNat ∧
    phiIndex.toNat + 3 + 2 * arg < phiIndex.toNat + (firstWord >>> 16).toNat

theorem phiRead_header {phiIndex : U32} {blocks : Nat} (short : 3 + 2 * blocks ≤ 65535)
    (small : phiIndex.toNat + (3 + 2 * blocks) < 2 ^ 32) :
    PhiRead pf phiIndex (makeWord0 (pf.op .opPhi) (3 + 2 * blocks)) blocks := by
  have count : (makeWord0 (pf.op .opPhi) (3 + 2 * blocks) >>> 16).toNat = 3 + 2 * blocks :=
    wordCount_makeWord0 pf .opPhi short
  constructor
  case asserted => exact makeWord0_and pf .opPhi _
  case long =>
    rw [BitVec.le_def, count]
    exact Nat.le_add_right 3 _
  case numArgs => exact numArgs_eq pf short
  case cursors =>
    intro arg inside
    refine ⟨?_, ?_⟩
    · rw [BitVec.toNat_add, BitVec.toNat_add, BitVec.toNat_mul, BitVec.toNat_ofNat]
      change _ = ((phiIndex.toNat + 3) % 2 ^ 32 + 2 * (arg % 2 ^ 32) % 2 ^ 32) % 2 ^ 32
      omega
    · omega

theorem getD_behind {before middle middle' after : List U32}
    (same : middle'.length = middle.length) {i : Nat}
    (behind : before.length + middle.length ≤ i) :
    (before ++ middle' ++ after).getD i 0 = (before ++ middle ++ after).getD i 0 := by
  have long : (before ++ middle').length = (before ++ middle).length := by
    simp only [List.length_append, same]
  have past : (before ++ middle).length ≤ i := by
    rw [List.length_append]
    exact behind
  rw [List.getD_eq_getElem?_getD, List.getD_eq_getElem?_getD,
    List.getElem?_append_right (long ▸ past), List.getElem?_append_right past, long]

structure PhiFound (start : Nat) (code : Stream) (read : U32 × U32) (blocks : Nat) : Prop where
  behind : start ≤ read.1.toNat
  unchanged : read.2 = code.value read.1
  phi : PhiRead pf read.1 read.2 blocks

theorem patchReads_phis (func : PhiFunc) {ps : List (Piece U32)} (phis : ∀ p ∈ ps, IsPhi pf p)
    (log : List Nat) {code : Stream} {before after : List U32}
    (words : code.words = before ++ cells ps ++ after)
    (small : before.length + (cells ps).length < 2 ^ 32) :
    List.Forall₂ (PhiFound pf before.length code)
      (patchReads func ((starts before.length ps).map (BitVec.ofNat 32)) (log, code))
      (sizes ps) := by
  induction ps generalizing log code before with
  | nil => exact List.Forall₂.nil
  | cons p ps ih =>
    rw [cells_cons, List.length_append] at small
    rw [cells_cons, ← List.append_assoc] at words
    have later : ∀ q ∈ ps, IsPhi pf q := fun q member => phis q (by simp [member])
    cases p with
    | text ws =>
      simp only [Piece.cells] at words small
      have rest := ih later log words (by
        rw [List.length_append]
        omega)
      rw [List.length_append] at rest
      have sooner : ∀ read blocks, PhiFound pf (before.length + ws.length) code read blocks →
          PhiFound pf before.length code read blocks := by
        rintro read blocks ⟨behind, same, phi⟩
        exact ⟨by omega, same, phi⟩
      simpa [starts, sizes, Piece.starts, Piece.sizes, Piece.cells] using rest.imp sooner
    | record head slots =>
      simp only [Piece.cells] at words small
      have index : (BitVec.ofNat 32 before.length).toNat = before.length := by
        rw [BitVec.toNat_ofNat]
        omega
      have phi := phis (.record head slots) (by simp)
      rw [List.append_assoc] at words
      obtain ⟨_, first⟩ := patchPhi_fills pf func phi log words index (by omega)
      have filled := Piece.cells_fill_length (phiValue func) log (.record head slots)
      simp only [Piece.fill, Piece.cells] at filled
      have words' := first.words
      rw [← List.append_assoc _ (cells ps)] at words'
      have rest := ih later (patchPhi func (log, code) (BitVec.ofNat 32 before.length)).1 words' (by
        rw [List.length_append, filled]
        omega)
      rw [List.length_append, filled] at rest
      simp only [starts, Piece.starts, List.singleton_append, List.map_cons, patchReads, sizes,
        List.flatMap_cons, Piece.sizes]
      refine List.Forall₂.cons ?_ (rest.imp ?_)
      · have header := value_of_isPhi pf phi words index
        obtain ⟨short, resultType, result, rfl⟩ := phi
        simp only [List.length_append, slotCells_length, List.length_cons, List.length_nil]
          at small
        refine ⟨Nat.le_of_eq index.symm, rfl, ?_⟩
        rw [header]
        apply phiRead_header pf short
        rw [index]
        omega
      · rintro read blocks ⟨inside, same, phi⟩
        refine ⟨by omega, same.trans ?_, phi⟩
        rw [Stream.value, Stream.value, first.words, words]
        exact getD_behind filled inside

theorem Module.written_prefix (m : Module) {calls : List Call}
    (unpatched : ∀ c ∈ calls, ¬ c.action.IsPatch) :
    m.code.written <+: (m.run pf calls).code.written := by
  apply Runs.invariant_run (I := fun u : Module => m.code.written <+: u.code.written)
  · intro u c member grown
    rw [Module.exec, Module.written_perform pf u (unpatched c member)]
    exact grown.trans (List.prefix_append _ _)
  · exact List.prefix_refl _

/-- The index a deferred phi is noted with is that of its header in the code, and a patch
    made any time later finds the phi there. -/
structure PhiAddressed (version : U32) (before : List Call) (resultType : Id)
    (blocks : List Id) (phiIndex : U32) : Prop where
  noted : ((Module.new pf version).run pf
      (before ++ [.deferredOpPhi resultType blocks])).deferredPhiNodes =
    ((Module.new pf version).run pf before).deferredPhiNodes ++ [phiIndex]
  header : phiIndex.toNat = ((Module.new pf version).run pf before).code.insertIndex
  read : ∀ after, (∀ c ∈ after, ¬ c.action.IsPatch) →
    PhiRead pf phiIndex (((Module.new pf version).run pf
      (before ++ .deferredOpPhi resultType blocks :: after)).code.value phiIndex) blocks.length

theorem phi_room (m : Module) {resultType : Id} {blocks : List Id}
    (typed : resultType.value ≠ 0)
    (small : (m.exec pf (.deferredOpPhi resultType blocks)).2.code.words.length < 2 ^ 32) :
    m.code.insertIndex + m.code.slack < 2 ^ 32 ∧
      m.code.insertIndex + (3 + 2 * blocks.length) < 2 ^ 32 := by
  have index := Stream.insertIndex_emit pf (Sirit.deferredOpPhi resultType blocks) m.code m.bound
  have slack := Stream.slack_emit pf (Sirit.deferredOpPhi resultType blocks) m.code m.bound
  have width := deferredOpPhi_width typed blocks
  have request : (Sirit.deferredOpPhi resultType blocks).reserved = 3 + blocks.length * 2 := rfl
  rw [Cursor.words_length] at small
  have size : (m.code.emit pf (Sirit.deferredOpPhi resultType blocks) m.bound).2.1.insertIndex +
      (m.code.emit pf (Sirit.deferredOpPhi resultType blocks) m.bound).2.1.slack < 2 ^ 32 :=
    small
  omega

theorem value_of_phi (m : Module) {calls : List Call} {resultType : Id} {blocks : List Id}
    (typed : resultType.value ≠ 0) (unpatched : ∀ c ∈ calls, ¬ c.action.IsPatch)
    {phiIndex : U32} (header : phiIndex.toNat = m.code.insertIndex) :
    (m.run pf (.deferredOpPhi resultType blocks :: calls)).code.value phiIndex =
      makeWord0 (pf.op .opPhi) (3 + 2 * blocks.length) := by
  have written := Module.written_perform pf m
    (a := .deferPhi resultType blocks) (fun patch => patch)
  have phi : m.codeWords pf (.deferPhi resultType blocks) =
      (phiPiece pf resultType m.bound blocks).cells := deferredOpPhi_words pf typed _ blocks
  obtain ⟨rest, first⟩ : ∃ rest, (phiPiece pf resultType m.bound blocks).cells =
      makeWord0 (pf.op .opPhi) (3 + 2 * blocks.length) :: rest := ⟨_, rfl⟩
  obtain ⟨more, grown⟩ :=
    Module.written_prefix pf (m.exec pf (.deferredOpPhi resultType blocks)).2 unpatched
  have words := Cursor.written_append_drop
    (m.run pf (.deferredOpPhi resultType blocks :: calls)).code.toCursor
  have start : (m.run pf (.deferredOpPhi resultType blocks :: calls)).code.written =
      m.code.written ++ makeWord0 (pf.op .opPhi) (3 + 2 * blocks.length) :: (rest ++ more) := by
    rw [phi, first] at written
    refine grown.symm.trans ((congrArg (· ++ more) written).trans ?_)
    rw [List.append_assoc, List.cons_append]
  rw [start, List.append_assoc, List.cons_append] at words
  exact Stream.value_eq words.symm (header.trans (Cursor.written_length m.code.toCursor).symm)

theorem phiAddressed_iff (version : U32) (before : List Call) {resultType : Id}
    {blocks : List Id} (typed : resultType.value ≠ 0) (short : 3 + 2 * blocks.length ≤ 65535)
    (small : ((Module.new pf version).run pf
      (before ++ [.deferredOpPhi resultType blocks])).code.words.length < 2 ^ 32) :
    (∃ phiIndex, PhiAddressed pf version before resultType blocks phiIndex) ↔
      leftover before = 0 := by
  obtain ⟨m, hm⟩ : ∃ m, m = (Module.new pf version).run pf before := ⟨_, rfl⟩
  rw [Module.run_snoc, ← hm] at small
  obtain ⟨room, room'⟩ := phi_room pf m typed small
  have address : m.code.localAddress.toNat = m.code.insertIndex + leftover before := by
    rw [Stream.localAddress, BitVec.toNat_ofNat, Cursor.words_length, Nat.mod_eq_of_lt room,
      ← run_leftover pf version before, hm]
  have noted : ((Module.new pf version).run pf
      (before ++ [.deferredOpPhi resultType blocks])).deferredPhiNodes =
        m.deferredPhiNodes ++ [m.code.localAddress] := by
    rw [Module.run_snoc, hm]
    rfl
  constructor
  · rintro ⟨phiIndex, addressed⟩
    have nodes := addressed.noted
    have header := addressed.header
    rw [noted, ← hm, List.append_cancel_left_eq, List.cons.injEq] at nodes
    rw [← nodes.1, address, ← hm] at header
    omega
  · intro none
    rw [none, Nat.add_zero] at address
    refine ⟨m.code.localAddress, ?_, ?_, ?_⟩
    · rw [noted, hm]
    · rw [address, hm]
    · intro after unpatched
      rw [Module.run, Runs.run_append]
      change PhiRead pf _ ((((Module.new pf version).run pf before).run pf
        (.deferredOpPhi resultType blocks :: after)).code.value _) _
      rw [← hm, value_of_phi pf m typed unpatched address]
      apply phiRead_header pf short
      rw [address]
      exact room'

theorem Module.words_length_exec (m : Module) (c : Call) :
    m.code.words.length ≤ (m.exec pf c).2.code.words.length := by
  rw [Cursor.words_length, Cursor.words_length]
  rcases m.code_perform pf c.action with
    ⟨e, bound, _, code⟩ | ⟨label, _, code⟩ | ⟨func, _, code⟩ | ⟨_, code⟩
  · rw [Module.exec, code, Stream.insertIndex_emit, Stream.slack_emit]
    omega
  · have index : (m.addLabel pf label).code.insertIndex = m.code.insertIndex + 2 := by
      rw [Module.addLabel_eq, Cursor.insertIndex_putAll, Cursor.insertIndex_reserve]
      rfl
    rw [Module.exec, code, Module.slack_addLabel, index]
    omega
  · apply Nat.le_of_eq
    rw [Module.exec, code, Module.patch_insertIndex, Module.patch_slack]
  · apply Nat.le_of_eq
    rw [Module.exec, code]

def Call.PhiFits : Call → Prop
  | .deferredOpPhi resultType blocks => resultType.value ≠ 0 ∧ 3 + 2 * blocks.length ≤ 65535
  | _ => True

instance decidableCallPhiFits : (c : Call) → Decidable c.PhiFits
  | .deferredOpPhi resultType blocks =>
      inferInstanceAs (Decidable (resultType.value ≠ 0 ∧ 3 + 2 * blocks.length ≤ 65535))
  | .addExtension _ | .addCapability _ | .setMemoryModel _ _ | .addEntryPoint _ _ _ _
  | .addExecutionMode _ _ _ | .addLabel _ | .addLocalVariable _ _ _ | .addGlobalVariable _ _ _
  | .patchDeferredPhi _ | .type _ | .constant _ | .annotate _ | .debug _ | .flow _ | .opLabel
  | .memory _ | .atomic _ | .barrier _ | .misc _ | .arithmetic _ | .conversion _
  | .derivatives _ | .logical _ | .bit _ | .group _ | .image _ | .opExtInst _ _ _ _
  | .glsl _ => instDecidableTrue

/-- Each deferred phi of a run is addressed rightly exactly when the calls before it left
    nothing allocated; and if that holds of all of them, whatever patches were made
    between, a patch finds one phi after the other with its blocks, while it writes to those
    it has been through. -/
theorem phis_addressed_iff (version : U32) (calls : List Call)
    (fits : ∀ c ∈ calls, c.PhiFits ∧ c.action.CodeFits)
    (small : ((Module.new pf version).run pf calls).code.words.length < 2 ^ 32) :
    (∀ before resultType blocks after,
      calls = before ++ .deferredOpPhi resultType blocks :: after →
        ((∃ phiIndex, PhiAddressed pf version before resultType blocks phiIndex) ↔
          leftover before = 0)) ∧
    ((∀ before resultType blocks after,
        calls = before ++ .deferredOpPhi resultType blocks :: after → leftover before = 0) →
      ∀ func : PhiFunc, List.Forall₂ (fun read blocks => PhiRead pf read.1 read.2 blocks)
        (patchReads func ((Module.new pf version).run pf calls).deferredPhiNodes
          ([], ((Module.new pf version).run pf calls).code))
        (calls.flatMap Call.phiSizes)) := by
  refine ⟨?_, ?_⟩
  · intro before resultType blocks after cut
    obtain ⟨⟨typed, short⟩, _⟩ := fits (.deferredOpPhi resultType blocks) (by simp [cut])
    apply phiAddressed_iff pf version before typed short
    refine Nat.lt_of_le_of_lt ?_ small
    have grown := Runs.monotone_run (f := fun m : Module => m.code.words.length)
      (s := (Module.new pf version).run pf (before ++ [.deferredOpPhi resultType blocks]))
      (fun m c => m.words_length_exec pf c) after
    rw [cut]
    simpa [Module.run, Runs.run_append] using grown
  · intro none func
    have within : ((Module.new pf version).run pf calls).code.insertIndex < 2 ^ 32 :=
      Nat.lt_of_le_of_lt ((Module.new pf version).run pf calls).code.bounded small
    obtain ⟨ps, deferral⟩ := exists_deferral_of_tight pf version func (by
      intro before resultType blocks after cut
      obtain ⟨⟨typed, short⟩, _⟩ := fits (.deferredOpPhi resultType blocks) (by simp [cut])
      have left := none before resultType blocks after cut
      exact ⟨typed, short, (run_leftover pf version before).trans left⟩)
      within
    have laid := deferral.laid
    have words : ((Module.new pf version).run pf calls).code.words = [] ++ cells ps ++
        ((Module.new pf version).run pf calls).code.words.drop
          ((Module.new pf version).run pf calls).code.insertIndex := by
      rw [List.nil_append, ← laid.written, Cursor.written_append_drop]
    have long : (cells ps).length = ((Module.new pf version).run pf calls).code.insertIndex := by
      rw [← laid.written, Cursor.written_length]
    rw [laid.nodes, ← deferral.sizes]
    have reads := patchReads_phis pf func laid.phis [] words (by
      rw [List.length_nil, long, Nat.zero_add]
      exact within)
    exact reads.imp fun _ _ found => found.phi

theorem phis_addressed_iff_block : ∃ phiIndex, PhiAddressed linuxX86 0
    [.memory (.opLoad ⟨1⟩ ⟨2⟩ none), .addLabel ⟨5⟩, .deferredOpPhi ⟨1⟩ [⟨6⟩, ⟨7⟩]]
    ⟨1⟩ [⟨6⟩] phiIndex :=
  ((phis_addressed_iff linuxX86 0 [.memory (.opLoad ⟨1⟩ ⟨2⟩ none), .addLabel ⟨5⟩,
    .deferredOpPhi ⟨1⟩ [⟨6⟩, ⟨7⟩], .deferredOpPhi ⟨1⟩ [⟨6⟩]] (by decide) (by decide)).1
    _ ⟨1⟩ [⟨6⟩] [] rfl).mpr (by decide)

/-- A load without a memory access leaves a word behind, and a deferred phi right after it is
    noted with the index of its own second word. -/
theorem phi_after_load_not_addressed : ¬ ∀ (pf : Platform) (version : U32)
    (before : List Call) (resultType : Id) (blocks : List Id),
    (∀ c ∈ before ++ [.deferredOpPhi resultType blocks], c.Asserts ∧ c.action.CodeFits) →
    3 + 2 * blocks.length ≤ 65535 →
    ((Module.new pf version).run pf
      (before ++ [.deferredOpPhi resultType blocks])).code.words.length < 2 ^ 32 →
    ∃ phiIndex, PhiAddressed pf version before resultType blocks phiIndex := by
  intro always
  obtain ⟨phiIndex, addressed⟩ := always linuxX86 0 [.memory (.opLoad ⟨1⟩ ⟨2⟩ none)] ⟨1⟩ [⟨3⟩]
    (by decide) (by decide) (by decide)
  have noted : [5] = [] ++ [phiIndex] := addressed.noted
  have fifth : phiIndex = 5 := by simpa using noted.symm
  have fourth : phiIndex.toNat = 4 := addressed.header
  rw [fifth] at fourth
  exact absurd fourth (by decide)

end Sirit
