import Sirit.Deduplication
import Sirit.Sections

/- The instruction that defines an id: its result slot, or the operand of a label. -/
namespace Sirit
open Framing Interning
variable (pf : Platform)

/-- The id an instruction defines. That of a label was allocated by `OpLabel`. -/
def Instruction.resultId (i : Instruction) : Option U32 :=
  i.result.or (if i.op = .opLabel then i.operands.head? else none)

def Emission.key (e : Emission) : Option DeclKey :=
  match e.head with
  | .op _ => none
  | .opId o => some ⟨o.opcode, o.resultType.value, operandWords pf e.operands⟩

/-- What a call has its id defined by, where `set` is the import of GLSL.std.450. -/
def Action.defined (set : Id) : Action → Option DeclKey
  | .emit _ e _ => e.key pf
  | .declare e => some (e.key pf)
  | .deferPhi resultType blocks => (Sirit.deferredOpPhi resultType blocks).key pf
  | .glsl inst => (opExtInst inst.resultType set (pf.glslStd450 inst.opcode) inst.operands).key pf
  | _ => none

theorem Listing.mem_emitted_iff {l : Listing} {i : Instruction} :
    i ∈ l.emitted ↔ (∃ sec, i ∈ l.instructions sec) ∨ i ∈ l.declarationInstructions := by
  simp only [Listing.emitted, List.mem_append]
  constructor
  · rintro (((((((inside | inside) | inside) | inside) | inside) | inside) | inside) | inside)
    all_goals first | exact Or.inr inside | exact Or.inl ⟨_, inside⟩
  · rintro (⟨sec, inside⟩ | declared)
    · cases sec <;> simp only [inside, true_or, or_true]
    · simp only [declared, true_or, or_true]

theorem Listing.mem_emitted_emit (l : Listing) (sec : Section) (e : Emission) :
    e.instruction pf l.bound ∈ (l.emit pf sec e).2.emitted := by
  rw [Listing.mem_emitted_iff]
  refine Or.inl ⟨sec, ?_⟩
  simp [Listing.emit]

theorem Listing.mem_emitted_declare (l : Listing) (e : Declaration) :
    (e.key pf).instruction (l.declare pf e).1.value ∈ (l.declare pf e).2.emitted := by
  rw [Listing.mem_emitted_iff]
  exact Or.inr (List.mem_map.mpr ⟨_, l.declarations.intern_mem (e.key pf) (l.bound + 1), rfl⟩)

theorem Listing.emitted_step {l : Listing} {i : Instruction} (member : i ∈ l.emitted)
    (c : Call) : i ∈ (l.step pf c).2.emitted := by
  rw [Listing.mem_emitted_iff] at member ⊢
  rcases member with ⟨sec, inside⟩ | declared
  · exact Or.inl ⟨sec, (l.instructions_prefix pf c sec).subset inside⟩
  · exact Or.inr (((l.declarations_extends pf c).map _).subset declared)

theorem Listing.glslStd450_step {l : Listing} {set : Id} (imported : l.glslStd450 = some set)
    (c : Call) : (l.step pf c).2.glslStd450 = some set := by
  unfold Listing.step
  cases c.action with
  | declare e => exact imported
  | glsl inst =>
    simp only [Listing.perform, Listing.opGlsl, Listing.getGLSLstd450, imported]
    exact imported
  | _ => exact imported

theorem Listing.getGLSLstd450_imported (l : Listing) :
    (l.getGLSLstd450 pf).2.glslStd450 = some (l.getGLSLstd450 pf).1 := by
  unfold Listing.getGLSLstd450
  split
  · rename_i id imported
    exact imported
  · rfl

theorem Emission.key_eq_some {e : Emission} {k : DeclKey} (keyed : e.key pf = some k)
    (bound : U32) : e.instruction pf bound = k.instruction (bound + 1) ∧
      e.nextBound bound = bound + 1 := by
  cases h : e.head with
  | op o => simp [Emission.key, h] at keyed
  | opId o =>
    simp only [Emission.key, h, Option.some.injEq] at keyed
    subst keyed
    simp only [Emission.instruction, Emission.nextBound, h, DeclKey.instruction, and_self]

theorem Listing.step_defined {l : Listing} {c : Call} {set : Id} {k : DeclKey}
    (imported : ∀ id, (l.step pf c).2.glslStd450 = some id → id = set)
    (defined : c.action.defined pf set = some k) :
    ∃ id, (l.step pf c).1 = some id ∧ k.instruction id.value ∈ (l.step pf c).2.emitted := by
  have well := c.wellPlaced
  unfold Listing.step at imported ⊢
  cases action : c.action with
  | emit sec e returned =>
    rw [action] at defined
    obtain ⟨listed, next⟩ := Emission.key_eq_some pf defined l.bound
    have member := l.mem_emitted_emit pf sec e
    rw [listed] at member
    refine ⟨⟨l.bound + 1⟩, ?_, member⟩
    simp only [action, Action.wellPlaced, Bool.and_eq_true] at well
    cases head : e.head with
    | op o => simp only [Action.defined, Emission.key, head, reduceCtorEq] at defined
    | opId o =>
      cases returned with
      | endOp => exact congrArg (fun bound => some (Id.mk bound)) next
      | nothing => simp [head] at well
      | argument id => simp [head] at well
  | declare e =>
    rw [action] at defined
    cases defined
    exact ⟨_, rfl, l.mem_emitted_declare pf e⟩
  | deferPhi resultType blocks =>
    rw [action] at defined
    have keyed : (Sirit.deferredOpPhi resultType blocks).key pf = some k := defined
    obtain ⟨listed, next⟩ := Emission.key_eq_some pf keyed l.bound
    have member := l.mem_emitted_emit pf .code (Sirit.deferredOpPhi resultType blocks)
    rw [listed] at member
    exact ⟨⟨l.bound + 1⟩, rfl, member⟩
  | glsl inst =>
    rw [action] at defined imported
    have import_set : (l.getGLSLstd450 pf).1 = set :=
      imported _ (l.getGLSLstd450_imported pf)
    have keyed : (opExtInst inst.resultType (l.getGLSLstd450 pf).1 (pf.glslStd450 inst.opcode)
        inst.operands).key pf = some k := import_set ▸ defined
    obtain ⟨listed, next⟩ := Emission.key_eq_some pf keyed (l.getGLSLstd450 pf).2.bound
    have member := (l.getGLSLstd450 pf).2.mem_emitted_emit pf .code
      (opExtInst inst.resultType (l.getGLSLstd450 pf).1 (pf.glslStd450 inst.opcode)
        inst.operands)
    rw [listed] at member
    exact ⟨⟨(l.getGLSLstd450 pf).2.bound + 1⟩, rfl, member⟩
  | _ =>
    rw [action] at defined
    cases defined

def labelsOf (entries : List (Call × Option Id)) : List U32 :=
  entries.filterMap fun entry =>
    match entry with
    | (.opLabel, some label) => some label.value
    | _ => none

theorem Listing.getGLSLstd450_labels (l : Listing) : (l.getGLSLstd450 pf).2.labels = l.labels := by
  unfold Listing.getGLSLstd450
  split <;> rfl

theorem Listing.labels_step (l : Listing) (c : Call) :
    (l.step pf c).2.labels = l.labels ++ labelsOf [(c, (l.step pf c).1)] := by
  cases c <;> first
    | rfl
    | exact (List.append_nil _).symm
    | exact (l.getGLSLstd450_labels pf).trans (List.append_nil _).symm

theorem run_labels (l : Listing) (calls : List Call) :
    (Runs.run (Listing.step pf) l calls).labels =
      l.labels ++ labelsOf (Runs.trace (Listing.step pf) l calls) := by
  induction calls generalizing l with
  | nil => exact (List.append_nil _).symm
  | cons c calls ih =>
    rw [Runs.run_cons, ih, Listing.labels_step, List.append_assoc]
    congr 1
    rw [labelsOf, labelsOf, ← List.filterMap_append]
    rfl

theorem filter_result {is : List Instruction} {i : Instruction} {id : U32}
    (nodup : (is.filterMap Instruction.result).Nodup) (member : i ∈ is)
    (result : i.result = some id) : is.filter (fun j => j.result = some id) = [i] := by
  induction is with
  | nil => exact absurd member List.not_mem_nil
  | cons j is ih =>
    by_cases here : j.result = some id
    · rw [List.filterMap_cons_some here, List.nodup_cons] at nodup
      obtain ⟨once, _⟩ := nodup
      have none : ∀ k ∈ is, k.result ≠ some id := by
        intro k inside same
        exact once (List.mem_filterMap.mpr ⟨k, inside, same⟩)
      have first : j = i := by
        rcases List.mem_cons.mp member with same | later
        · exact same.symm
        · exact absurd result (none i later)
      rw [List.filter_cons_of_pos (by simpa using here), first, List.filter_eq_nil_iff.mpr]
      intro k inside
      simpa using none k inside
    · have later : i ∈ is := by
        rcases List.mem_cons.mp member with same | later
        · exact absurd (same ▸ result) here
        · exact later
      have nodup' : (is.filterMap Instruction.result).Nodup := by
        have tail := (List.sublist_cons_self j is).filterMap Instruction.result
        exact tail.nodup nodup
      rw [List.filter_cons_of_neg (by simpa using here)]
      exact ih nodup' later

theorem Listing.mem_all {l : Listing} {i : Instruction} (member : i ∈ l.all pf) :
    i ∈ l.emitted ∨ i.resultId = none := by
  simp only [Listing.all, Listing.preamble, Listing.globals, List.mem_append, List.mem_map,
    List.mem_singleton] at member
  rw [Listing.mem_emitted_iff]
  rcases member with (((((((((capability | extension) | inside) | model) | inside) | inside) |
    inside) | inside) | (declared | inside)) | inside)
  case inl.inl.inl.inl.inl.inl.inl.inl.inl =>
    obtain ⟨x, _, rfl⟩ := capability
    exact Or.inr rfl
  case inl.inl.inl.inl.inl.inl.inl.inl.inr =>
    obtain ⟨x, _, rfl⟩ := extension
    exact Or.inr rfl
  case inl.inl.inl.inl.inl.inl.inr => exact Or.inr (model ▸ rfl)
  case inl.inr.inl => exact Or.inl (Or.inr declared)
  all_goals exact Or.inl (Or.inl ⟨_, inside⟩)

theorem Listing.Placed.resultId_eq {labels : Id → Prop} {l : Listing}
    (placed : l.Placed labels) {i : Instruction} (member : i ∈ l.emitted)
    (empty : i.result = none) {id : U32} (defines : i.resultId = some id) :
    ∃ label, labels label ∧ id = label.value := by
  have unadmitted : ∀ sec : Section, sec.admits .opLabel = false := by
    intro sec
    cases sec <;> rfl
  rw [Instruction.resultId, empty, Option.none_or] at defines
  split at defines
  · rename_i isLabel
    rcases Listing.mem_emitted_iff.mp member with ⟨sec, inside⟩ | declared
    · rcases placed.sections sec i inside with admitted | ⟨_, label, given, same⟩
      · rw [isLabel, unadmitted] at admitted
        cases admitted
      · rw [same] at defines
        exact ⟨label, given, (Option.some.inj defines).symm⟩
    · obtain ⟨entry, listed, rfl⟩ := List.mem_map.mp declared
      have typed := placed.declarations entry listed
      have op : entry.1.op = .opLabel := isLabel
      rw [op] at typed
      cases typed
  · cases defines

theorem Listing.filter_resultId {labels : Id → Prop} {l : Listing} {i : Instruction} {id : U32}
    (placed : l.Placed labels) (dense : l.Dense) (few : l.ids < 2 ^ 32)
    (labelled : ∀ label, labels label → label.value ∈ l.labels)
    (member : i ∈ l.emitted) (result : i.result = some id) :
    (l.all pf).filter (fun j => j.resultId = some id) = [i] := by
  obtain ⟨nodup, _⟩ := Listing.nodup_ids dense few
  obtain ⟨nodupResults, _, apart⟩ := List.nodup_append.mp nodup
  have slot : id ∈ l.results := List.mem_filterMap.mpr ⟨i, member, result⟩
  have same : (l.all pf).filter (fun j => j.resultId = some id) =
      (l.all pf).filter (fun j => j.result = some id) := by
    apply List.filter_congr
    intro j inside
    rw [decide_eq_decide]
    cases held : j.result with
    | some r => rw [Instruction.resultId, held, Option.some_or]
    | none =>
      refine iff_of_false ?_ (by simp)
      intro defines
      rcases Listing.mem_all pf inside with emitted | nothing
      · obtain ⟨label, given, same⟩ := placed.resultId_eq emitted held defines
        exact apart id slot label.value (labelled label given) same
      · rw [nothing] at defines
        cases defines
  rw [same]
  apply filter_result _ (l.emitted_subset_all pf member) result
  rw [l.results_all pf]
  exact nodupResults

theorem run_emitted {l : Listing} {i : Instruction} (member : i ∈ l.emitted)
    (calls : List Call) : i ∈ (Runs.run (Listing.step pf) l calls).emitted := by
  apply Runs.invariant_run (I := fun u : Listing => i ∈ u.emitted)
  · exact fun u c _ inside => Listing.emitted_step pf inside c
  · exact member

theorem run_glslStd450 {l : Listing} {set : Id} (imported : l.glslStd450 = some set)
    (calls : List Call) :
    (Runs.run (Listing.step pf) l calls).glslStd450 = some set := by
  apply Runs.invariant_run (I := fun u : Listing => u.glslStd450 = some set)
  · exact fun u c _ same => Listing.glslStd450_step pf same c
  · exact imported

theorem listing_labels (version : U32) (calls : List Call) :
    (listing pf version calls).labels =
      labelsOf (Runs.trace (Listing.step pf) (Listing.new pf version) calls) := by
  rw [listing, run_labels]
  rfl

theorem listing_ids_nodup (version : U32) (calls : List Call)
    (few : (listing pf version calls).ids < 2 ^ 32) :
    (((listing pf version calls).all pf).filterMap Instruction.result ++
      labelsOf (Runs.trace (Listing.step pf) (Listing.new pf version) calls)).Nodup := by
  rw [Listing.results_all, ← listing_labels]
  exact (Listing.nodup_ids (listing_dense pf version calls) few).1

theorem listing_filter_resultId {version : U32} {calls : List Call}
    (labelled : ∀ label, Call.addLabel label ∈ calls →
      (Call.opLabel, some label) ∈ Runs.trace (Listing.step pf) (Listing.new pf version) calls)
    (few : (listing pf version calls).ids < 2 ^ 32) {i : Instruction} {id : U32}
    (member : i ∈ (listing pf version calls).emitted) (result : i.result = some id) :
    ((listing pf version calls).all pf).filter (fun j => j.resultId = some id) = [i] := by
  apply Listing.filter_resultId pf (listing_placed pf version calls)
    (listing_dense pf version calls) few _ member result
  intro label given
  rw [listing_labels]
  exact List.mem_filterMap.mpr ⟨_, labelled label given, rfl⟩

theorem listing_defined (version : U32) {calls : List Call} {c : Call} {r : Option Id}
    {k : DeclKey}
    (entry : (c, r) ∈ Runs.trace (Listing.step pf) (Listing.new pf version) calls)
    (defined : c.action.defined pf ((listing pf version calls).glslStd450.getD ⟨0⟩) = some k) :
    ∃ id, r = some id ∧ k.instruction id.value ∈ (listing pf version calls).emitted := by
  obtain ⟨before, after, rfl, rfl⟩ := Runs.mem_trace_iff.mp entry
  have cut : listing pf version (before ++ c :: after) =
      Runs.run (Listing.step pf) ((listing pf version before).step pf c).2 after := by
    rw [listing, Runs.run_append, Runs.run_cons]
    rfl
  rw [cut] at defined ⊢
  obtain ⟨id, answer, listed⟩ := Listing.step_defined pf (by
    intro id imported
    rw [run_glslStd450 pf imported after, Option.getD_some]) defined
  exact ⟨id, answer, run_emitted pf listed after⟩

/-- The ids of a run are 1 up to the bound, each once: those in result slots and those of
    labels. Each call that takes an id through a stream returns one that exactly one
    instruction of the assembled module defines, and that instruction is the call's. -/
theorem ids_defined_once (version : U32) (calls : List Call)
    (unpatched : ∀ c ∈ calls, ¬ c.action.IsPatch)
    (labelled : ∀ label, Call.addLabel label ∈ calls →
      (Call.opLabel, some label) ∈ (Module.new pf version).trace pf calls)
    (few : (listing pf version calls).ids < 2 ^ 32 - 1)
    (short : (listing pf version calls).Short pf) :
    ∃ is : List Instruction,
      split wordCount ((((Module.new pf version).run pf calls).assemble pf).drop 5) =
        (is.map (Instruction.words pf), []) ∧
      (is.filterMap Instruction.result ++
        labelsOf ((Module.new pf version).trace pf calls)).Nodup ∧
      (is.filterMap Instruction.result ++
        labelsOf ((Module.new pf version).trace pf calls)).Perm
          (idsFrom 1 ((Module.new pf version).run pf calls).bound.toNat) ∧
      (∀ c r k, (c, r) ∈ (Module.new pf version).trace pf calls →
        c.action.defined pf (((Module.new pf version).run pf calls).glslStd450.getD ⟨0⟩) =
          some k →
        ∃ id, r = some id ∧
          is.filter (fun i => i.resultId = some id.value) = [k.instruction id.value]) ∧
      (((Module.new pf version).run pf calls).assemble pf)[3]? =
        some (((Module.new pf version).run pf calls).bound + 1) ∧
      ∀ id ∈ is.filterMap Instruction.result ++
          labelsOf ((Module.new pf version).trace pf calls),
        id.toNat < (((Module.new pf version).run pf calls).bound + 1).toNat := by
  obtain ⟨traces, refines⟩ := run_refines_unpatched pf version unpatched
  have dense := listing_dense pf version calls
  have few32 : (listing pf version calls).ids < 2 ^ 32 := by omega
  obtain ⟨nodup, within⟩ := Listing.nodup_ids dense few32
  have labels : (listing pf version calls).labels =
      labelsOf ((Module.new pf version).trace pf calls) := by
    rw [traces, listing_labels]
  have bound : ((Module.new pf version).run pf calls).bound.toNat =
      (listing pf version calls).ids := by
    rw [refines.bound, Listing.bound, BitVec.toNat_ofNat, Nat.mod_eq_of_lt few32]
  refine ⟨_, split_assemble pf version unpatched short, ?_⟩
  rw [Listing.results_all, ← labels, bound]
  refine ⟨nodup, dense, ?_, ?_, ?_⟩
  · intro c r k entry defined
    rw [traces] at entry
    rw [refines.glslStd450] at defined
    obtain ⟨id, answer, listed⟩ := listing_defined pf version entry defined
    rw [traces] at labelled
    exact ⟨id, answer, listing_filter_resultId pf labelled few32 listed rfl⟩
  · rw [refines.assemble_eq fun _ _ => trivial, refines.bound]
    rfl
  · intro id member
    have top := (within id member).2
    rw [BitVec.toNat_add, bound]
    change id.toNat < ((listing pf version calls).ids + 1) % 2 ^ 32
    rw [Nat.mod_eq_of_lt (by omega)]
    omega

theorem ids_defined_once_mixed : ∃ is : List Instruction,
    split wordCount ((((Module.new linuxX86 0).run linuxX86 [.opLabel, .type .typeVoid,
        .addLabel ⟨1⟩, .type .typeVoid, .glsl (.opSin ⟨2⟩ ⟨2⟩)]).assemble linuxX86).drop 5) =
      (is.map (Instruction.words linuxX86), []) ∧
    (is.filterMap Instruction.result ++ labelsOf ((Module.new linuxX86 0).trace linuxX86
      [.opLabel, .type .typeVoid, .addLabel ⟨1⟩, .type .typeVoid,
        .glsl (.opSin ⟨2⟩ ⟨2⟩)])).Perm [1, 2, 3, 4] := by
  obtain ⟨is, walked, _, dense, _⟩ := ids_defined_once linuxX86 0 [.opLabel, .type .typeVoid,
    .addLabel ⟨1⟩, .type .typeVoid, .glsl (.opSin ⟨2⟩ ⟨2⟩)] (by decide) (by
      intro label given
      have first : label = ⟨1⟩ := by simpa using given
      subst first
      exact List.mem_cons_self) (by decide) (by decide)
  exact ⟨is, walked, dense⟩

end Sirit
