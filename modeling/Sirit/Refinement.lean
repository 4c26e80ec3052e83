import Sirit.Listing

/- The module refines its listing: every stream holds the words of the instructions
   listed for it, and the map of existing declarations holds the table. -/
namespace Sirit
open Interning VectorCursor
variable (pf : Platform)

@[simp] theorem Module.stream_setStream (m : Module) (sec sec' : Section) (s : Stream) :
    (m.setStream sec s).stream sec' = if sec' = sec then s else m.stream sec' := by
  cases sec <;> cases sec' <;> rfl

theorem foldl_capabilities (capabilities words : List U32) :
    capabilities.foldl (fun words capability =>
        words ++ [makeWord0 (pf.op .opCapability) 2, capability]) words =
      words ++ (capabilities.map capabilityInstruction).flatMap (Instruction.words pf) := by
  induction capabilities generalizing words with
  | nil => simp
  | cons capability capabilities ih =>
    rw [List.foldl_cons, ih, List.append_assoc]
    rfl

theorem extensionInstruction_words (extensionName : List U8) :
    (extensionInstruction pf extensionName).words pf =
      makeWord0 (pf.op .opExtension) (wordsInString extensionName + 1) ::
        stringWords pf.charSigned extensionName := by
  rw [← stringWords_length pf.charSigned extensionName]
  rfl

theorem foldl_insertExtension (extensions : List (List U8)) (words : List U32) :
    extensions.foldl (insertExtension pf) words =
      words ++ (extensions.map (extensionInstruction pf)).flatMap (Instruction.words pf) := by
  induction extensions generalizing words with
  | nil => simp
  | cons name extensions ih =>
    rw [List.foldl_cons, ih, insertExtension_eq, List.map_cons, List.flatMap_cons,
      extensionInstruction_words, List.append_assoc]

/-- `tracked` are the sections whose words are listed. Patches write to the code only. -/
structure Refines (tracked : Section → Prop) (m : Module) (l : Listing) : Prop where
  version : m.version = l.version
  bound : m.bound = l.bound
  capabilities : m.capabilities = l.capabilities
  extensions : m.extensions = l.extensions
  addressingModel : m.addressingModel = l.addressingModel
  memoryModel : m.memoryModel = l.memoryModel
  glslStd450 : m.glslStd450 = l.glslStd450
  existing : m.declarations.existingDeclarations =
    l.declarations.entries.map fun e => (e.1.words pf, e.2)
  declared : m.declarations.stream.written =
    l.declarationInstructions.flatMap (Instruction.words pf)
  sections : ∀ sec, tracked sec →
    (m.stream sec).written = (l.instructions sec).flatMap (Instruction.words pf)

theorem Refines.new (tracked : Section → Prop) (version : U32) :
    Refines pf tracked (Module.new pf version) (Listing.new pf version) where
  version := rfl
  bound := rfl
  capabilities := rfl
  extensions := rfl
  addressingModel := rfl
  memoryModel := rfl
  glslStd450 := rfl
  existing := rfl
  declared := rfl
  sections := by
    intro sec _
    cases sec <;> rfl

theorem ofNat_succ (n : Nat) : BitVec.ofNat 32 (n + 1) = BitVec.ofNat 32 n + 1 :=
  BitVec.ofNat_add n 1

theorem Emission.nextBound_eq (e : Emission) (n : Nat) :
    e.nextBound (BitVec.ofNat 32 n) = BitVec.ofNat 32 (n + e.results) := by
  cases h : e.head with
  | op op => simp only [Emission.nextBound, Emission.results, h, Nat.add_zero]
  | opId op => simp only [Emission.nextBound, Emission.results, h, ofNat_succ]

theorem Module.addLabel_eq (m : Module) (label : Id) : (m.addLabel pf label).code.toCursor =
    (m.code.toCursor.reserve 0 2).putAll ((labelInstruction label).words pf) := rfl

theorem Module.written_addLabel (m : Module) (label : Id) :
    (m.addLabel pf label).code.written = m.code.written ++ (labelInstruction label).words pf := by
  rw [Module.addLabel_eq, Cursor.written_putAll, Cursor.written_reserve]

section Step
variable {pf} {tracked : Section → Prop} {m : Module} {l : Listing}
  (refines : Refines pf tracked m l)
include refines

theorem Refines.kept {m' : Module} (streams : ∀ sec, m'.stream sec = m.stream sec) :
    ∀ sec, tracked sec →
      (m'.stream sec).written = (l.instructions sec).flatMap (Instruction.words pf) := by
  intro sec track
  rw [streams sec]
  exact refines.sections sec track

theorem Refines.emit (sec : Section) (e : Emission) :
    (m.emit pf sec e).1 = (l.emit pf sec e).1 ∧
      Refines pf tracked (m.emit pf sec e).2 (l.emit pf sec e).2 := by
  refine ⟨?_, ?_⟩
  · simp only [Module.emit, Stream.emit_id, Listing.emit, refines.bound]
  · have written := Stream.written_emit pf e (m.stream sec) m.bound
    have counter := Stream.emit_bound pf e (m.stream sec) m.bound
    constructor
    case bound =>
      rw [refines.bound] at counter
      simp only [Module.emit, refines.bound, counter]
      exact e.nextBound_eq l.ids
    case sections =>
      intro other track
      change ((m.setStream sec _).stream other).written = _
      rw [Module.stream_setStream]
      by_cases same : other = sec
      · subst same
        simp only [if_pos, Listing.emit, Function.update_self, List.flatMap_append,
          List.flatMap_cons, List.flatMap_nil, List.append_nil]
        rw [written, refines.sections other track, refines.bound]
      · simp only [if_neg same, Listing.emit, Function.update_of_ne same]
        exact refines.sections other track
    all_goals
      cases sec <;> first
        | exact refines.version | exact refines.capabilities | exact refines.extensions
        | exact refines.addressingModel | exact refines.memoryModel
        | exact refines.glslStd450 | exact refines.existing | exact refines.declared

theorem Refines.lookup (k : DeclKey) :
    m.declarations.existingDeclarations.lookup (k.words pf) = l.declarations.find k := by
  rw [refines.existing, Table.find]
  exact lookup_map_injective (DeclKey.words_injective pf) l.declarations.entries k

theorem Refines.declare (e : Declaration) :
    (m.declare pf e).1 = (l.declare pf e).1 ∧
      Refines pf tracked (m.declare pf e).2 (l.declare pf e).2 := by
  have lookup := refines.lookup (e.key pf)
  cases found : l.declarations.find (e.key pf) with
  | some i =>
    have known := lookup.trans found
    have id := Declarations.declare_known_id m.bound known
    have existing := Declarations.declare_known_existing m.bound known
    have written := Declarations.declare_known_written m.bound known
    have abstract : l.declare pf e = (⟨i⟩, l) := by
      simp only [Listing.declare, Table.intern_known found, found, Option.isSome_some, if_true]
    rw [abstract]
    refine ⟨id.1, ?_⟩
    exact { refines with
      bound := id.2.trans refines.bound
      existing := existing.trans refines.existing
      declared := written.trans refines.declared
      sections := refines.kept fun sec => by cases sec <;> rfl }
  | none =>
    have unknown := lookup.trans found
    have id := Declarations.declare_new_id m.bound unknown
    have existing := Declarations.declare_new_existing m.bound unknown
    have written := Declarations.declare_new_written m.bound unknown
    have abstract : l.declare pf e = (⟨l.bound + 1⟩, { l with
        ids := l.ids + 1
        declarations := l.declarations.add (e.key pf) (l.bound + 1) found }) := by
      simp only [Listing.declare, Table.intern_new found, found, Option.isSome_none,
        Bool.false_eq_true, if_false]
    rw [abstract]
    rw [refines.bound] at id existing written
    refine ⟨?_, ?_⟩
    · simp only [Module.declare, refines.bound, id.1]
    · exact { refines with
        bound := by
          simp only [Module.declare, refines.bound, id.2]
          exact (ofNat_succ l.ids).symm
        existing := by
          simp only [Module.declare, refines.bound, existing, refines.existing, Table.add,
            List.map_append, List.map_cons, List.map_nil]
        declared := by
          simp only [Module.declare, refines.bound, written, refines.declared,
            Listing.declarationInstructions, Table.add, List.map_append, List.map_cons,
            List.map_nil, List.flatMap_append, List.flatMap_cons, List.flatMap_nil,
            List.append_nil]
        sections := refines.kept fun sec => by cases sec <;> rfl }

theorem Refines.opLabel :
    m.opLabel.1 = l.opLabel.1 ∧ Refines pf tracked m.opLabel.2 l.opLabel.2 := by
  refine ⟨?_, ?_⟩
  · simp only [Module.opLabel, Listing.opLabel, refines.bound]
  · exact { refines with
      bound := by
        simp only [Module.opLabel, Listing.opLabel, refines.bound]
        exact (ofNat_succ l.ids).symm
      sections := refines.kept fun sec => by cases sec <;> rfl }

theorem Refines.addLabel (label : Id) :
    Refines pf tracked (m.addLabel pf label) (l.addLabel label) := by
  exact { refines with
    sections := by
      intro sec track
      have same := refines.sections sec track
      cases sec <;> try exact same
      change (m.addLabel pf label).code.written = _
      rw [Module.written_addLabel]
      simp only [Listing.addLabel, Function.update_self, List.flatMap_append, List.flatMap_cons,
        List.flatMap_nil, List.append_nil]
      exact congrArg (· ++ _) same }

theorem Refines.getGLSLstd450 :
    (m.getGLSLstd450 pf).1 = (l.getGLSLstd450 pf).1 ∧
      Refines pf tracked (m.getGLSLstd450 pf).2 (l.getGLSLstd450 pf).2 := by
  unfold Module.getGLSLstd450 Listing.getGLSLstd450
  rw [refines.glslStd450]
  cases l.glslStd450 with
  | some id => exact ⟨rfl, refines⟩
  | none =>
    obtain ⟨id, after⟩ := refines.emit .extInstImports glslStd450Import
    refine ⟨id, ?_⟩
    exact { after with
      glslStd450 := congrArg some id
      sections := after.kept fun sec => by cases sec <;> rfl }

theorem Refines.opGlsl (inst : GlslInst) :
    (m.opGlsl pf inst).1 = (l.opGlsl pf inst).1 ∧
      Refines pf tracked (m.opGlsl pf inst).2 (l.opGlsl pf inst).2 := by
  obtain ⟨id, after⟩ := refines.getGLSLstd450
  simp only [Module.opGlsl, Listing.opGlsl, id]
  exact after.emit .code _

theorem Refines.addExtension (extensionName : List U8) :
    Refines pf tracked (m.addExtension extensionName)
      (l.perform pf (.addExtension extensionName)).2 := by
  have same := refines.extensions
  unfold Module.addExtension Listing.perform Runs.addNew
  rw [same]
  by_cases member : extensionName ∈ l.extensions
  · simp only [if_pos member]
    exact refines
  · simp only [if_neg member]
    exact { refines with
      extensions := rfl
      sections := refines.kept fun sec => by cases sec <;> rfl }

theorem Refines.addCapability (capability : U32) :
    Refines pf tracked (m.addCapability capability)
      (l.perform pf (.addCapability capability)).2 := by
  have same := refines.capabilities
  unfold Module.addCapability Listing.perform Runs.addNew
  rw [same]
  by_cases member : capability ∈ l.capabilities
  · simp only [if_pos member]
    exact refines
  · simp only [if_neg member]
    exact { refines with
      capabilities := rfl
      sections := refines.kept fun sec => by cases sec <;> rfl }

theorem Refines.patch (func : PhiFunc) (untracked : ¬ tracked .code) :
    Refines pf tracked (m.patchDeferredPhi func).2 l :=
  { refines with
    sections := by
      intro sec track
      have same := refines.sections sec track
      cases sec <;> first | exact same | exact absurd track untracked }

theorem Refines.perform (a : Action) (unpatched : a.IsPatch → ¬ tracked .code) :
    (m.perform pf a).1 = (l.perform pf a).1 ∧
      Refines pf tracked (m.perform pf a).2 (l.perform pf a).2 := by
  cases a with
  | emit sec e returned =>
    obtain ⟨id, after⟩ := refines.emit sec e
    exact ⟨congrArg (fun id => returned.value id) id, after⟩
  | declare e =>
    obtain ⟨id, after⟩ := refines.declare e
    exact ⟨congrArg some id, after⟩
  | deferPhi resultType blocks =>
    have noted : Refines pf tracked
        { m with deferredPhiNodes := m.deferredPhiNodes ++ [m.code.localAddress] } l :=
      { refines with
        sections := refines.kept fun sec => by cases sec <;> rfl }
    obtain ⟨id, after⟩ := noted.emit .code (Sirit.deferredOpPhi resultType blocks)
    exact ⟨congrArg some id, after⟩
  | glsl inst =>
    obtain ⟨id, after⟩ := refines.opGlsl inst
    exact ⟨congrArg some id, after⟩
  | addLabel label => exact ⟨rfl, refines.addLabel label⟩
  | opLabel =>
    obtain ⟨id, after⟩ := refines.opLabel
    exact ⟨congrArg some id, after⟩
  | addExtension extensionName => exact ⟨rfl, refines.addExtension extensionName⟩
  | addCapability capability => exact ⟨rfl, refines.addCapability capability⟩
  | setMemoryModel addressingModel memoryModel =>
    refine ⟨rfl, ?_⟩
    exact { refines with
      addressingModel := rfl
      memoryModel := rfl
      sections := refines.kept fun sec => by cases sec <;> rfl }
  | patch func => exact ⟨rfl, refines.patch func (unpatched trivial)⟩

theorem Refines.assemble_eq (others : ∀ sec, sec ≠ .code → tracked sec) :
    m.assemble pf = [pf.magicNumber, l.version, generatorMagicNumber, l.bound + 1, 0] ++
      (l.preamble pf ++ l.globals).flatMap (Instruction.words pf) ++ m.code.written := by
  have extInstImports : m.extInstImports.written = _ :=
    refines.sections .extInstImports (others _ (by decide))
  have entryPoints : m.entryPoints.written = _ :=
    refines.sections .entryPoints (others _ (by decide))
  have executionModes : m.executionModes.written = _ :=
    refines.sections .executionModes (others _ (by decide))
  have debug : m.debug.written = _ := refines.sections .debug (others _ (by decide))
  have annotations : m.annotations.written = _ :=
    refines.sections .annotations (others _ (by decide))
  have globalVariables : m.globalVariables.written = _ :=
    refines.sections .globalVariables (others _ (by decide))
  simp only [Module.assemble, foldl_capabilities, foldl_insertExtension, refines.version,
    refines.bound, refines.capabilities, refines.extensions, refines.addressingModel,
    refines.memoryModel, refines.declared, extInstImports, entryPoints, executionModes, debug,
    annotations, globalVariables, Listing.preamble, Listing.globals, List.flatMap_append,
    List.append_assoc]
  rfl

end Step

theorem Refines.drop_assemble {m : Module} {l : Listing}
    (refines : Refines pf (fun _ => True) m l) :
    (m.assemble pf).drop 5 = (l.all pf).flatMap (Instruction.words pf) := by
  have code : m.code.written = _ := refines.sections .code trivial
  rw [refines.assemble_eq fun _ _ => trivial, code, Listing.all, List.append_assoc,
    ← List.flatMap_append]
  rfl

theorem run_refines (tracked : Section → Prop) (version : U32) (calls : List Call)
    (unpatched : ∀ c ∈ calls, c.action.IsPatch → ¬ tracked .code) :
    (Module.new pf version).trace pf calls =
        Runs.trace (Listing.step pf) (Listing.new pf version) calls ∧
      Refines pf tracked ((Module.new pf version).run pf calls) (listing pf version calls) := by
  apply Runs.simulation (P := fun _ c => c.action.IsPatch → ¬ tracked .code)
  · intro m l c ok refines
    exact refines.perform c.action ok
  · exact Refines.new pf tracked version
  · exact Runs.throughout_of_forall fun _ c member => unpatched c member

theorem run_refines_unpatched (version : U32) {calls : List Call}
    (unpatched : ∀ c ∈ calls, ¬ c.action.IsPatch) :
    (Module.new pf version).trace pf calls =
        Runs.trace (Listing.step pf) (Listing.new pf version) calls ∧
      Refines pf (fun _ => True) ((Module.new pf version).run pf calls)
        (listing pf version calls) :=
  run_refines pf (fun _ => True) version calls fun c member patch =>
    absurd patch (unpatched c member)

theorem Module.run_snoc (m : Module) (calls : List Call) (c : Call) :
    m.run pf (calls ++ [c]) = ((m.run pf calls).exec pf c).2 := Runs.run_append calls [c]

theorem Module.trace_snoc (m : Module) (calls : List Call) (c : Call) :
    m.trace pf (calls ++ [c]) =
      m.trace pf calls ++ [(c, ((m.run pf calls).exec pf c).1)] := Runs.trace_append calls [c]

theorem listing_snoc (version : U32) (calls : List Call) (c : Call) :
    listing pf version (calls ++ [c]) = ((listing pf version calls).step pf c).2 :=
  Runs.run_append calls [c]

end Sirit
