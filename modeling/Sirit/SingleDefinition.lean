import Sirit.Defining
import Sirit.SizedRuns

/- How many ids a module can have, and that each is defined at most once. The counter has
   32 bits and starts behind zero; the bound in the header is one above it. -/
namespace Sirit
open Interning
variable (pf : Platform)

def validId (id : Id) : Bool := decide (id.value ≠ 0)

theorem mem_idsFrom {first count : Nat} {id : U32} :
    id ∈ idsFrom first count ↔ ∃ n, first ≤ n ∧ n < first + count ∧ BitVec.ofNat 32 n = id := by
  simp only [idsFrom, List.mem_map, List.mem_range'_1, and_assoc]

theorem idsFrom_nodup_iff (count : Nat) : (idsFrom 1 count).Nodup ↔ count ≤ 2 ^ 32 := by
  constructor
  · intro nodup
    by_contra many
    -- the id after 2^32 others is the first one again
    have first : 1 ∈ List.range' 1 count := List.mem_range'_1.mpr ⟨Nat.le_refl 1, by omega⟩
    have again : 2 ^ 32 + 1 ∈ List.range' 1 count := List.mem_range'_1.mpr ⟨by omega, by omega⟩
    have same : BitVec.ofNat 32 1 = BitVec.ofNat 32 (2 ^ 32 + 1) := by decide
    have equal := List.inj_on_of_nodup_map nodup first again same
    omega
  · intro few
    apply List.Nodup.map_on
    · intro n hn k hk same
      have low := List.mem_range'_1.mp hn
      have low' := List.mem_range'_1.mp hk
      have values := congrArg BitVec.toNat same
      rw [BitVec.toNat_ofNat, BitVec.toNat_ofNat] at values
      omega
    · exact List.nodup_range'

theorem idsFrom_valid_iff (count : Nat) :
    (∀ id ∈ idsFrom 1 count, validId ⟨id⟩ = true) ↔ count < 2 ^ 32 := by
  constructor
  · intro valid
    by_contra many
    have last : 0 ∈ idsFrom 1 count := mem_idsFrom.mpr ⟨2 ^ 32, by omega, by omega, by decide⟩
    exact absurd (valid 0 last) (by decide)
  · intro few id member
    obtain ⟨n, low, high, rfl⟩ := mem_idsFrom.mp member
    rw [validId, decide_eq_true_eq]
    intro zero
    have value := congrArg BitVec.toNat zero
    rw [BitVec.toNat_ofNat, Nat.mod_eq_of_lt (by omega)] at value
    exact absurd value (by simp; omega)

theorem idsFrom_bounded_iff (count : Nat) :
    (∀ id ∈ idsFrom 1 count, id.toNat < (BitVec.ofNat 32 count + 1).toNat) ↔
      count < 2 ^ 32 - 1 := by
  constructor
  · intro bounded
    by_contra many
    have top := bounded _ (mem_idsFrom.mpr ⟨2 ^ 32 - 1, by omega, by omega, rfl⟩)
    have highest := (BitVec.ofNat 32 count + 1).isLt
    have value : (BitVec.ofNat 32 (2 ^ 32 - 1)).toNat = 2 ^ 32 - 1 := by decide
    omega
  · intro few id member
    obtain ⟨n, low, high, rfl⟩ := mem_idsFrom.mp member
    rw [← ofNat_succ, BitVec.toNat_ofNat, BitVec.toNat_ofNat, Nat.mod_eq_of_lt (by omega),
      Nat.mod_eq_of_lt (by omega)]
    omega

/-- In every run without patches the ids in result slots and those of labels are pairwise
    distinct exactly up to 2^32 of them, valid exactly below 2^32 of them, and below the
    bound in the header exactly below 2^32 - 1 of them. -/
theorem id_capacity_iff (version : U32) (calls : List Call)
    (unpatched : ∀ c ∈ calls, ¬ c.action.IsPatch) :
    ∃ (ids : List U32) (bound : U32),
      (((SizedModule.new pf version).run pf calls).missed = 0 →
        (((SizedModule.new pf version).run pf calls).assemble pf).drop 5 =
          ((listing pf version calls).all pf).flatMap (Instruction.words pf)) ∧
      (((SizedModule.new pf version).run pf calls).assemble pf)[3]? = some bound ∧
      ids = ((listing pf version calls).all pf).filterMap Instruction.result ++
        labelsOf ((SizedModule.new pf version).trace pf calls) ∧
      (ids.Nodup ↔ ids.length ≤ 2 ^ 32) ∧
      ((∀ id ∈ ids, validId ⟨id⟩ = true) ↔ ids.length < 2 ^ 32) ∧
      ((∀ id ∈ ids, id.toNat < bound.toNat) ↔ ids.length < 2 ^ 32 - 1) := by
  obtain ⟨_, refines⟩ := run_refines_unpatched pf version unpatched
  obtain ⟨_, follows⟩ := sized_follows pf version calls
  obtain ⟨traces, words⟩ := sized_listing pf version unpatched
  have dense := listing_dense pf version calls
  rw [Listing.Dense, ← (listing pf version calls).results_all pf, listing_labels,
    ← traces] at dense
  refine ⟨_, ((SizedModule.new pf version).run pf calls).bound + 1, words, ?_, rfl, ?_⟩
  · exact SizedModule.assemble_bound pf _
  · have count := dense.length_eq
    rw [idsFrom, List.length_map, List.length_range'] at count
    rw [count, dense.nodup_iff, follows.bound, refines.bound, Listing.bound,
      ← idsFrom_bounded_iff, ← idsFrom_valid_iff, ← idsFrom_nodup_iff]
    simp only [dense.mem_iff, and_self]

theorem id_capacity_iff_helper : ∃ ids : List U32,
    ids = ((listing linuxX86 0 [.type .typeVoid, .opLabel, .glsl (.opSin ⟨1⟩ ⟨1⟩)]).all
        linuxX86).filterMap Instruction.result ++
      labelsOf ((SizedModule.new linuxX86 0).trace linuxX86
        [.type .typeVoid, .opLabel, .glsl (.opSin ⟨1⟩ ⟨1⟩)]) ∧
    (ids.Nodup ↔ ids.length ≤ 2 ^ 32) := by
  obtain ⟨ids, _, _, _, listed, distinct, _⟩ := id_capacity_iff linuxX86 0
    [.type .typeVoid, .opLabel, .glsl (.opSin ⟨1⟩ ⟨1⟩)] (by decide)
  exact ⟨ids, listed, distinct⟩

def Instruction.label (i : Instruction) : Option U32 :=
  if i.op = .opLabel ∧ i.result = none then i.operands.head? else none

def Action.addedLabel : Action → Option U32
  | .addLabel label => some label.value
  | _ => none

def Call.addedLabel (c : Call) : Option U32 := c.action.addedLabel

theorem filterMap_resultId_perm (is : List Instruction) :
    (is.filterMap Instruction.resultId).Perm
      (is.filterMap Instruction.result ++ is.filterMap Instruction.label) := by
  induction is with
  | nil => exact .refl _
  | cons i is ih =>
    cases result : i.result with
    | some id =>
      have defined : i.resultId = some id := by rw [Instruction.resultId, result, Option.some_or]
      have unlabelled : i.label = none := by
        refine if_neg ?_
        rintro ⟨_, empty⟩
        rw [result] at empty
        cases empty
      rw [List.filterMap_cons_some defined, List.filterMap_cons_some result,
        List.filterMap_cons_none unlabelled]
      exact ih.cons id
    | none =>
      have same : i.resultId = i.label := by
        rw [Instruction.resultId, Instruction.label, result, Option.none_or]
        simp only [and_true]
      rw [List.filterMap_cons_none result]
      cases label : i.label with
      | none =>
        rw [List.filterMap_cons_none (same.trans label), List.filterMap_cons_none label]
        exact ih
      | some id =>
        rw [List.filterMap_cons_some (same.trans label), List.filterMap_cons_some label]
        exact (ih.cons id).trans List.perm_middle.symm

theorem label_eq_none {i : Instruction} (other : i.op ≠ .opLabel) : i.label = none :=
  if_neg fun label => other label.1

theorem Emission.label_instruction {e : Emission} (other : e.head.opcode ≠ .opLabel)
    (bound : U32) : (e.instruction pf bound).label = none := by
  apply label_eq_none
  rw [Emission.instruction_op]
  exact other

theorem Listing.code_labels_emit (l : Listing) (sec : Section) {e : Emission}
    (other : sec = .code → e.head.opcode ≠ .opLabel) :
    ((l.emit pf sec e).2.instructions .code).filterMap Instruction.label =
      (l.instructions .code).filterMap Instruction.label := by
  rw [l.instructions_emit pf .code sec e, List.filterMap_append]
  split
  · rename_i code
    rw [List.filterMap_cons_none (e.label_instruction pf (other code.symm) l.bound),
      List.filterMap_nil, List.append_nil]
  · rw [List.filterMap_nil, List.append_nil]

theorem Listing.code_labels_step (l : Listing) (c : Call) :
    ((l.step pf c).2.instructions .code).filterMap Instruction.label =
      (l.instructions .code).filterMap Instruction.label ++ c.addedLabel.toList := by
  have well := c.wellPlaced
  unfold Listing.step Call.addedLabel
  cases action : c.action with
  | emit sec e returned =>
    refine (l.code_labels_emit pf sec ?_).trans (List.append_nil _).symm
    rintro rfl
    simp only [action, Action.wellPlaced, Bool.and_eq_true] at well
    simpa [Section.admits] using well.1
  | deferPhi resultType blocks =>
    have other : (Sirit.deferredOpPhi resultType blocks).head.opcode ≠ .opLabel :=
      show Op.opPhi ≠ .opLabel by decide
    exact (l.code_labels_emit pf .code fun _ => other).trans (List.append_nil _).symm
  | glsl inst =>
    refine ((l.getGLSLstd450 pf).2.code_labels_emit pf .code fun _ => ?_).trans ?_
    · exact show Op.opExtInst ≠ .opLabel by decide
    · rw [l.instructions_getGLSLstd450 pf (by decide)]
      exact (List.append_nil _).symm
  | addLabel label =>
    simp only [Listing.perform, Listing.addLabel, Function.update_self, List.filterMap_append]
    rfl
  | _ => exact (List.append_nil _).symm

theorem listing_code_labels (version : U32) (calls : List Call) :
    ((listing pf version calls).instructions .code).filterMap Instruction.label =
      calls.filterMap Call.addedLabel := by
  have grown := Runs.appended
    (f := fun l : Listing => (l.instructions .code).filterMap Instruction.label)
    (Listing.code_labels_step pf) (s := Listing.new pf version) calls
  rw [List.filterMap_eq_flatMap_toList Call.addedLabel]
  exact grown

theorem listing_all_labels (version : U32) (calls : List Call) :
    ((listing pf version calls).all pf).filterMap Instruction.label =
      calls.filterMap Call.addedLabel := by
  have placed := listing_placed pf version calls
  have none : ∀ part : List Instruction, (∀ i ∈ part, i.op ≠ .opLabel) →
      part.filterMap Instruction.label = [] := by
    intro part other
    rw [List.filterMap_eq_nil_iff]
    exact fun i member => label_eq_none (other i member)
  have sections : ∀ sec, sec ≠ .code →
      ((listing pf version calls).instructions sec).filterMap Instruction.label = [] := by
    intro sec other
    apply none
    rintro i member label
    rcases placed.sections sec i member with admitted | ⟨code, _⟩
    · rw [label] at admitted
      cases sec <;> first | exact other rfl | cases admitted
    · exact other code
  have declared : (listing pf version calls).declarationInstructions.filterMap
      Instruction.label = [] := by
    apply none
    rintro i member label
    obtain ⟨entry, listed, rfl⟩ := List.mem_map.mp member
    have typed := placed.declarations entry listed
    have op : entry.1.op = .opLabel := label
    rw [op] at typed
    cases typed
  have mapped : ∀ (α : Type) (f : α → Instruction) (xs : List α),
      (∀ x, (f x).op ≠ .opLabel) → (xs.map f).filterMap Instruction.label = [] := by
    intro α f xs other
    apply none
    intro i member
    obtain ⟨x, _, rfl⟩ := List.mem_map.mp member
    exact other x
  have capabilities := mapped U32 capabilityInstruction
    (pf.capabilityOrder (listing pf version calls).capabilities) fun _ =>
      show Op.opCapability ≠ .opLabel by decide
  have extensions := mapped (List U8) (extensionInstruction pf)
    (pf.extensionOrder (listing pf version calls).extensions) fun _ =>
      show Op.opExtension ≠ .opLabel by decide
  have model := mapped Unit (fun _ => memoryModelInstruction
    (listing pf version calls).addressingModel (listing pf version calls).memoryModel) [()]
    fun _ => show Op.opMemoryModel ≠ .opLabel by decide
  rw [← listing_code_labels pf version]
  simp only [Listing.all, Listing.preamble, Listing.globals, List.filterMap_append, capabilities,
    extensions, declared, sections .extInstImports (by decide), sections .entryPoints (by decide),
    sections .executionModes (by decide), sections .debug (by decide),
    sections .annotations (by decide), sections .globalVariables (by decide), List.nil_append]
  rw [show [memoryModelInstruction (listing pf version calls).addressingModel
    (listing pf version calls).memoryModel].filterMap Instruction.label = [] from model]
  rfl

/-- The ids of a run are all different, so an id has two definitions only if its label is
    added twice. -/
theorem listing_definitions_nodup_iff (version : U32) (calls : List Call)
    (labelled : ∀ label, Call.addLabel label ∈ calls → label.value ∈
      labelsOf (Runs.trace (Listing.step pf) (Listing.new pf version) calls))
    (few : (listing pf version calls).ids < 2 ^ 32) :
    (((listing pf version calls).all pf).filterMap Instruction.resultId).Nodup ↔
      (calls.filterMap Call.addedLabel).Nodup := by
  have distinct := listing_ids_nodup pf version calls few
  obtain ⟨results, _, apart⟩ := List.nodup_append.mp distinct
  rw [(filterMap_resultId_perm _).nodup_iff, listing_all_labels, List.nodup_append]
  constructor
  · exact fun unique => unique.2.1
  · intro once
    refine ⟨results, once, ?_⟩
    intro id result id' added
    obtain ⟨c, member, label⟩ := List.mem_filterMap.mp added
    refine apart id result id' ?_
    cases c <;> cases label
    exact labelled _ member

inductive InterfaceCall where
  | call (c : Call)
  /-- `AddLabel()` -/
  | addLabel
  /-- `OpLabel(label_name)` -/
  | opLabel (labelName : List U8)

def InterfaceCall.exec : InterfaceCall → SizedModule → Option Id × SizedModule
  | .call c, m => m.exec pf c
  | .addLabel, m => m.opLabel.2.exec pf (.addLabel m.opLabel.1)
  | .opLabel labelName, m => m.opLabel.2.exec pf (.debug (.name m.opLabel.1 labelName))

def InterfaceCall.calls : InterfaceCall → SizedModule → List Call
  | .call c, _ => [c]
  | .addLabel, m => [.opLabel, .addLabel m.opLabel.1]
  | .opLabel labelName, m => [.opLabel, .debug (.name m.opLabel.1 labelName)]

def interfaceCalls : SizedModule → List InterfaceCall → List Call
  | _, [] => []
  | m, u :: us => u.calls m ++ interfaceCalls (u.exec pf m).2 us

theorem InterfaceCall.run_calls (u : InterfaceCall) (m : SizedModule) :
    m.run pf (u.calls m) = (u.exec pf m).2 := by
  cases u <;> rfl

theorem run_interfaceCalls (m : SizedModule) (us : List InterfaceCall) :
    Runs.run (InterfaceCall.exec pf) m us = m.run pf (interfaceCalls pf m us) := by
  induction us generalizing m with
  | nil => rfl
  | cons u us ih =>
    rw [Runs.run_cons, ih, interfaceCalls, SizedModule.run, SizedModule.run, Runs.run_append]
    congr 1
    exact (u.run_calls pf m).symm

/-- A call that adds no label of the caller's choice and patches nothing. -/
def InterfaceCall.Plain : InterfaceCall → Prop
  | .call c => c.addedLabel = none ∧ ¬ c.action.IsPatch
  | _ => True

instance decidableInterfaceCallPlain (u : InterfaceCall) : Decidable u.Plain := by
  cases u <;> dsimp only [InterfaceCall.Plain] <;> infer_instance

theorem interfaceCalls_unpatched (m : SizedModule) {us : List InterfaceCall}
    (plain : ∀ u ∈ us, u.Plain) : ∀ c ∈ interfaceCalls pf m us, ¬ c.action.IsPatch := by
  induction us generalizing m with
  | nil => exact fun c member => absurd member List.not_mem_nil
  | cons u us ih =>
    intro c member
    rcases List.mem_append.mp member with here | later
    · cases u with
      | call d =>
        obtain rfl := List.mem_singleton.mp here
        exact (plain (.call c) List.mem_cons_self).2
      | addLabel | opLabel _ =>
        simp only [InterfaceCall.calls, List.mem_cons, List.not_mem_nil, or_false] at here
        rcases here with rfl | rfl
        all_goals exact fun none => none
    · exact ih _ (fun v member => plain v (List.mem_cons_of_mem u member)) c later

theorem addedLabels_sublist (m : SizedModule) {us : List InterfaceCall}
    (plain : ∀ u ∈ us, u.Plain) : ((interfaceCalls pf m us).filterMap Call.addedLabel).Sublist
      (labelsOf (m.trace pf (interfaceCalls pf m us))) := by
  induction us generalizing m with
  | nil => exact List.Sublist.refl _
  | cons u us ih =>
    have later := ih (u.exec pf m).2 fun v member => plain v (List.mem_cons_of_mem u member)
    rw [interfaceCalls, List.filterMap_append, SizedModule.trace, Runs.trace_append, labelsOf,
      List.filterMap_append]
    refine List.Sublist.append ?_ ?_
    · cases u with
      | call c =>
        have unadded : c.addedLabel = none := (plain (.call c) List.mem_cons_self).1
        rw [InterfaceCall.calls, List.filterMap_cons_none unadded]
        exact List.nil_sublist _
      | addLabel => exact List.Sublist.refl _
      | opLabel labelName => exact List.nil_sublist _
    · have after := u.run_calls pf m
      rw [SizedModule.run] at after
      rw [after]
      exact later

/-- In a run that adds labels from `OpLabel` only, every id has at most one definition in the
    assembled module exactly when no label is added twice. A client that leaves labels to
    `AddLabel()` always gets such a module. -/
theorem single_definitions_iff (version : U32) :
    (∀ calls : List Call, (∀ c ∈ calls, ¬ c.action.IsPatch) →
      (∀ label, Call.addLabel label ∈ calls →
        label.value ∈ labelsOf ((SizedModule.new pf version).trace pf calls)) →
      (listing pf version calls).ids < 2 ^ 32 →
      (((SizedModule.new pf version).run pf calls).missed = 0 →
        (((SizedModule.new pf version).run pf calls).assemble pf).drop 5 =
          ((listing pf version calls).all pf).flatMap (Instruction.words pf)) ∧
      ((((listing pf version calls).all pf).filterMap Instruction.resultId).Nodup ↔
        (calls.filterMap Call.addedLabel).Nodup)) ∧
    ∀ us : List InterfaceCall, (∀ u ∈ us, u.Plain) →
      (listing pf version (interfaceCalls pf (SizedModule.new pf version) us)).ids < 2 ^ 32 →
      ((Runs.run (InterfaceCall.exec pf) (SizedModule.new pf version) us).missed = 0 →
        ((Runs.run (InterfaceCall.exec pf) (SizedModule.new pf version) us).assemble pf).drop 5 =
          ((listing pf version (interfaceCalls pf (SizedModule.new pf version) us)).all
            pf).flatMap (Instruction.words pf)) ∧
      (((listing pf version (interfaceCalls pf (SizedModule.new pf version) us)).all
        pf).filterMap Instruction.resultId).Nodup := by
  refine ⟨?_, ?_⟩
  · intro calls unpatched labelled few
    obtain ⟨traces, words⟩ := sized_listing pf version unpatched
    rw [traces] at labelled
    exact ⟨words, listing_definitions_nodup_iff pf version calls labelled few⟩
  · intro us plain few
    have own := addedLabels_sublist pf (SizedModule.new pf version) plain
    have unpatched := interfaceCalls_unpatched pf (SizedModule.new pf version) plain
    obtain ⟨traces, words⟩ := sized_listing pf version unpatched
    rw [traces] at own
    rw [run_interfaceCalls]
    refine ⟨words, ?_⟩
    rw [listing_definitions_nodup_iff pf version _ (fun label member =>
      own.subset (List.mem_filterMap.mpr ⟨_, member, rfl⟩)) few]
    have distinct := listing_ids_nodup pf version _ few
    exact own.nodup (List.nodup_append.mp distinct).2.1

theorem single_definitions_iff_blocks :
    ((Runs.run (InterfaceCall.exec linuxX86) (SizedModule.new linuxX86 0)
      [.call (.type .typeVoid), .addLabel, .opLabel [0x62], .call (.flow (.opBranch ⟨3⟩)),
        .addLabel]).assemble linuxX86).drop 5 =
      ((listing linuxX86 0 (interfaceCalls linuxX86 (SizedModule.new linuxX86 0)
        [.call (.type .typeVoid), .addLabel, .opLabel [0x62], .call (.flow (.opBranch ⟨3⟩)),
          .addLabel])).all linuxX86).flatMap (Instruction.words linuxX86) ∧
    (((listing linuxX86 0 (interfaceCalls linuxX86 (SizedModule.new linuxX86 0)
      [.call (.type .typeVoid), .addLabel, .opLabel [0x62], .call (.flow (.opBranch ⟨3⟩)),
        .addLabel])).all linuxX86).filterMap Instruction.resultId).Nodup := by
  obtain ⟨words, once⟩ := (single_definitions_iff linuxX86 0).2 [.call (.type .typeVoid),
    .addLabel, .opLabel [0x62], .call (.flow (.opBranch ⟨3⟩)), .addLabel] (by decide) (by decide)
  exact ⟨words (by decide), once⟩

end Sirit
