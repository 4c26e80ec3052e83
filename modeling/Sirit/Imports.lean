import Sirit.Defining
import Sirit.StringLiterals

/- The import of GLSL.std.450 is made by the first helper that needs it, in the argument list
   of its own expression, and shared by all others. -/
namespace Sirit
open Framing Interning LittleEndian
variable (pf : Platform)

def Call.isGlsl : Call → Bool
  | .glsl _ => true
  | _ => false

def importInstruction (set : U32) : Instruction :=
  ⟨.opExtInstImport, 0, some set, stringWords pf.charSigned glslStd450Name⟩

def GlslInst.instruction (inst : GlslInst) (set result : U32) : Instruction :=
  ⟨.opExtInst, inst.resultType.value, some result,
    set :: pf.glslStd450 inst.opcode :: inst.operands.map Id.value⟩

def Listing.Imported (called : Bool) (l : Listing) : Prop :=
  match called with
  | false => l.glslStd450 = none ∧ l.instructions .extInstImports = []
  | true => ∃ set, l.glslStd450 = some ⟨set⟩ ∧
      l.instructions .extInstImports = [importInstruction pf set]

theorem Listing.Imported.getGLSLstd450 {called : Bool} {l : Listing}
    (imported : l.Imported pf called) : (l.getGLSLstd450 pf).2.Imported pf true := by
  cases called with
  | false =>
    obtain ⟨none, empty⟩ := imported
    refine ⟨l.bound + 1, ?_, ?_⟩
    · simp only [Listing.getGLSLstd450, none]
      rfl
    · have added := l.instructions_emit pf .extInstImports .extInstImports glslStd450Import
      rw [empty] at added
      simp only [Listing.getGLSLstd450, none]
      refine added.trans ?_
      simp [importInstruction, glslStd450Import, Emission.instruction, Operand.words, Head.bare,
        OpId.opcode, OpId.resultType]
  | true =>
    obtain ⟨set, some, single⟩ := imported
    refine ⟨set, ?_, ?_⟩
    · simp only [Listing.getGLSLstd450, some]
    · simp only [Listing.getGLSLstd450, some, single]

theorem Listing.Imported.step {called : Bool} {l : Listing} (imported : l.Imported pf called)
    (c : Call) : (l.step pf c).2.Imported pf (called || c.isGlsl) := by
  have kept : ∀ {l' : Listing}, l'.glslStd450 = l.glslStd450 →
      l'.instructions .extInstImports = l.instructions .extInstImports →
      l'.Imported pf called := by
    intro l' same same'
    cases called with
    | false => exact ⟨same.trans imported.1, same'.trans imported.2⟩
    | true =>
      obtain ⟨set, some, single⟩ := imported
      exact ⟨set, same.trans some, same'.trans single⟩
  cases c with
  | glsl c =>
    obtain ⟨set, some, single⟩ := imported.getGLSLstd450
    change Listing.Imported pf (called || true) _
    rw [Bool.or_true]
    exact ⟨set, some, single⟩
  | _ =>
    change Listing.Imported pf (called || false) _
    rw [Bool.or_false]
    apply kept
    · rfl
    · rfl

theorem listing_imported (version : U32) (calls : List Call) :
    (listing pf version calls).Imported pf (calls.any Call.isGlsl) := by
  have all : ∀ (calls : List Call) (called : Bool) (l : Listing), l.Imported pf called →
      (Runs.run (Listing.step pf) l calls).Imported pf (called || calls.any Call.isGlsl) := by
    intro calls
    induction calls with
    | nil =>
      intro called l imported
      rw [List.any_nil, Bool.or_false]
      exact imported
    | cons c calls ih =>
      intro called l imported
      rw [List.any_cons, ← Bool.or_assoc]
      exact ih _ _ (imported.step pf c)
  exact all calls false (Listing.new pf version) ⟨rfl, rfl⟩

theorem readString_import (signed : Bool) :
    readString (stringWords signed glslStd450Name) = some (glslStd450Name, []) := by
  have clean : CleanString signed glslStd450Name := by
    rw [cleanString_iff]
    intro i inside high
    have low : ∀ b ∈ glslStd450Name, b.msb = false := by decide
    rw [low _ (List.getElem_mem inside), Bool.and_false] at high
    cases high
  rw [stringWords_eq_packString]
  have back := readString_packString clean (by decide) []
  rwa [List.append_nil] at back

theorem GlslInst.instruction_eq (inst : GlslInst) (set result : U32) {k : DeclKey}
    (keyed : (opExtInst inst.resultType ⟨set⟩ (pf.glslStd450 inst.opcode) inst.operands).key pf =
      some k) : k.instruction result = inst.instruction pf set result := by
  cases keyed
  simp [DeclKey.instruction, GlslInst.instruction, opExtInst, Operand.words, OpId.opcode,
    OpId.resultType]

theorem Listing.all_around_imports (l : Listing) : ∃ before after,
    l.all pf = before ++ l.instructions .extInstImports ++ after ∧
      (∀ i ∈ l.emitted, i ∈ l.instructions .extInstImports ∨ i ∈ after) ∧
      ∀ i ∈ l.declarationInstructions, i ∈ after := by
  refine ⟨(pf.capabilityOrder l.capabilities).map capabilityInstruction ++
      (pf.extensionOrder l.extensions).map (extensionInstruction pf),
    memoryModelInstruction l.addressingModel l.memoryModel :: (l.instructions .entryPoints ++
      l.instructions .executionModes ++ l.instructions .debug ++ l.instructions .annotations ++
      l.globals ++ l.instructions .code), ?_, ?_, ?_⟩
  · simp only [Listing.all, Listing.preamble, List.append_assoc, List.singleton_append]
    rfl
  · intro i member
    simp only [Listing.emitted, Listing.globals, List.mem_append, List.mem_cons] at member ⊢
    tauto
  · intro i member
    simp only [Listing.globals, List.mem_append, List.mem_cons]
    tauto

def Action.returnsArgument : Action → Bool
  | .emit _ _ (.argument _) | .addLabel _ => true
  | _ => false

theorem Listing.step_counter {l : Listing} {c : Call} {id : Id}
    (answer : (l.step pf c).1 = some id) (own : c.action.returnsArgument = false)
    (other : ∀ e, c.action ≠ .declare e) : id.value = (l.step pf c).2.bound := by
  have emitted : ∀ (l : Listing) (sec : Section) (e : Emission),
      (l.emit pf sec e).1.value = (l.emit pf sec e).2.bound :=
    fun l sec e => e.nextBound_eq l.ids
  unfold Listing.step at answer ⊢
  cases action : c.action with
  | emit sec e returned =>
    rw [action] at answer own
    cases returned with
    | endOp =>
      obtain rfl := Option.some.inj answer
      exact emitted l sec e
    | nothing => cases answer
    | argument given => cases own
  | declare e => exact absurd action (other e)
  | deferPhi resultType blocks =>
    rw [action] at answer
    obtain rfl := Option.some.inj answer
    exact emitted l .code _
  | glsl inst =>
    rw [action] at answer
    obtain rfl := Option.some.inj answer
    exact emitted (l.getGLSLstd450 pf).2 .code _
  | addLabel label =>
    rw [action] at own
    cases own
  | opLabel =>
    rw [action] at answer
    obtain rfl := Option.some.inj answer
    exact (ofNat_succ l.ids).symm
  | _ =>
    rw [action] at answer
    cases answer

/-- The helper that makes the import allocates its own id right after it. -/
theorem Listing.step_import {l : Listing} {c : Call} {set : Id}
    (cached : (l.step pf c).2.glslStd450 = some set) :
    l.glslStd450 = some set ∨
      set.value = l.bound + 1 ∧ (l.step pf c).2.ids = l.ids + 2 := by
  unfold Listing.step at cached ⊢
  cases action : c.action with
  | glsl inst =>
    rw [action] at cached
    cases first : l.glslStd450 with
    | some id =>
      simp only [Listing.perform, Listing.opGlsl, Listing.getGLSLstd450, first] at cached
      exact Or.inl (first.symm.trans cached)
    | none =>
      simp only [Listing.perform, Listing.opGlsl, Listing.getGLSLstd450, first] at cached ⊢
      exact Or.inr ⟨congrArg Id.value (Option.some.inj cached).symm, rfl⟩
  | _ =>
    rw [action] at cached
    exact Or.inl cached

theorem import_made (version : U32) {calls : List Call} {set : Id}
    (cached : (listing pf version calls).glslStd450 = some set) :
    ∃ before c after, calls = before ++ c :: after ∧
      set.value = (listing pf version before).bound + 1 ∧
      (listing pf version (before ++ [c])).ids = (listing pf version before).ids + 2 := by
  induction calls using List.reverseRecOn with
  | nil => cases cached
  | append_singleton calls c ih =>
    rw [listing_snoc] at cached
    rcases Listing.step_import pf cached with earlier | ⟨id, ids⟩
    · obtain ⟨before, d, after, cut, made⟩ := ih earlier
      exact ⟨before, d, after ++ [c], by simp [cut], made⟩
    · refine ⟨calls, c, [], rfl, id, ?_⟩
      rw [listing_snoc]
      exact ids

theorem bound_ne_import (version : U32) {made rest : List Call} {set : Id}
    (cached : (listing pf version (made ++ rest)).glslStd450 = some set)
    (few : (listing pf version (made ++ rest)).ids < 2 ^ 32) :
    (listing pf version made).bound ≠ set.value := by
  obtain ⟨before, c, after, cut, id, ids⟩ := import_made pf version cached
  have within := listing_ids_append pf version made rest
  have whole := listing_ids_append pf version (before ++ [c]) after
  rw [List.append_assoc, List.singleton_append, ← cut] at whole
  have number : (listing pf version made).ids ≠ (listing pf version before).ids + 1 := by
    rcases List.append_eq_append_iff.mp cut with ⟨more, rfl, _⟩ | ⟨more, rfl, tail⟩
    · have grown := listing_ids_append pf version made more
      omega
    · cases more with
      | nil =>
        rw [List.append_nil]
        omega
      | cons d more =>
        obtain ⟨rfl, _⟩ := List.cons.inj tail
        have grown := listing_ids_append pf version (before ++ [c]) more
        rw [List.append_assoc, List.singleton_append] at grown
        omega
  intro same
  have value := congrArg BitVec.toNat same
  rw [id, Listing.bound_toNat (by omega), Listing.bound_succ (by omega)] at value
  exact number value

theorem listing_glsl (version : U32) {calls : List Call} {c : Call} {r : Option Id}
    {inst : GlslInst} {set : U32}
    (entry : (c, r) ∈ Runs.trace (Listing.step pf) (Listing.new pf version) calls)
    (action : c.action = .glsl inst)
    (cached : (listing pf version calls).glslStd450 = some ⟨set⟩) :
    ∃ id, r = some id ∧
      inst.instruction pf set id.value ∈ (listing pf version calls).emitted := by
  obtain ⟨k, keyed⟩ : ∃ k, (opExtInst inst.resultType ⟨set⟩ (pf.glslStd450 inst.opcode)
    inst.operands).key pf = some k := ⟨_, rfl⟩
  obtain ⟨id, answer, listed⟩ := listing_defined pf version (k := k) entry (by
    rw [action, cached, Option.getD_some]
    exact keyed)
  rw [inst.instruction_eq pf set id.value keyed] at listed
  exact ⟨id, answer, listed⟩

theorem filter_single {α : Type} {p : α → Bool} {before after : List α} {a : α}
    (single : (before ++ a :: after).filter p = [a]) (kept : p a = true) :
    ∀ b ∈ before ++ after, p b = false := by
  have once := congrArg List.length single
  rw [List.filter_append, List.filter_cons_of_pos kept, List.length_append, List.length_cons,
    List.length_singleton] at once
  have none : (before ++ after).filter p = [] := by
    rw [List.filter_append, ← List.length_eq_zero_iff, List.length_append]
    omega
  intro b member
  rw [List.filter_eq_nil_iff] at none
  exact Bool.eq_false_iff.mpr (none b member)

/-- In an assembled module there is no import if no helper was called, and else one: it reads
    back as GLSL.std.450, its id is that of nothing else and no call answers with it, and the
    instruction of each helper stands behind it, has it for its set, and has the id the
    helper returned. -/
theorem one_glsl_import (version : U32) (calls : List Call)
    (unpatched : ∀ c ∈ calls, ¬ c.action.IsPatch)
    (few : (listing pf version calls).ids < 2 ^ 32 - 1)
    (short : (listing pf version calls).Short pf) :
    split wordCount ((((Module.new pf version).run pf calls).assemble pf).drop 5) =
      (((listing pf version calls).all pf).map (Instruction.words pf), []) ∧
    ((∀ c ∈ calls, c.isGlsl = false) →
      ∀ i ∈ (listing pf version calls).all pf, i.op ≠ .opExtInstImport) ∧
    ((∃ c ∈ calls, c.isGlsl = true) → ∃ set before after,
      (listing pf version calls).all pf = before ++ importInstruction pf set :: after ∧
      (∀ i ∈ before ++ after, i.op ≠ .opExtInstImport) ∧
      readString (importInstruction pf set).operands = some (glslStd450Name, []) ∧
      set ∉ (before ++ after).filterMap Instruction.result ++
        labelsOf ((Module.new pf version).trace pf calls) ∧
      (∀ c id, (c, some id) ∈ (Module.new pf version).trace pf calls →
        c.action.returnsArgument = false → id.value ≠ set) ∧
      ∀ c r inst, (c, r) ∈ (Module.new pf version).trace pf calls → c.action = .glsl inst →
        ∃ id, r = some id ∧ id.value ≠ set ∧
          after.filter (fun i => i.result = some id.value) =
            [inst.instruction pf set id.value]) := by
  obtain ⟨traces, _⟩ := run_refines_unpatched pf version unpatched
  have imported := listing_imported pf version calls
  have imports := (listing_placed pf version calls).filter_op pf
    (listing_code_home pf version calls) (o := .opExtInstImport) rfl
  have few32 : (listing pf version calls).ids < 2 ^ 32 := by omega
  have nodup := listing_ids_nodup pf version calls few32
  refine ⟨split_assemble pf version unpatched short, ?_, ?_⟩
  · intro none i member op
    have uncalled : calls.any Call.isGlsl = false := by
      rw [List.any_eq_false]
      intro c inside
      rw [none c inside]
      exact Bool.false_ne_true
    rw [uncalled] at imported
    rw [imported.2, List.filter_nil, List.filter_eq_nil_iff] at imports
    exact imports i member (by simpa using op)
  · rintro ⟨c, inside, called⟩
    rw [List.any_eq_true.mpr ⟨c, inside, called⟩] at imported
    obtain ⟨set, cached, single⟩ := imported
    obtain ⟨before, after, all, behind, declared⟩ :=
      (listing pf version calls).all_around_imports pf
    rw [single, List.append_assoc, List.singleton_append] at all
    have result : (importInstruction pf set).result = some set := rfl
    rw [all, single] at imports
    rw [all, List.filterMap_append, List.filterMap_cons_some result, List.append_assoc,
      List.cons_append, List.nodup_middle, List.nodup_cons, ← List.append_assoc,
      ← List.filterMap_append, ← traces] at nodup
    obtain ⟨apart, others⟩ := nodup
    have elsewhere : ∀ i ∈ after, ∀ id, i.result = some id → id ≠ set := by
      rintro i inside id defines rfl
      apply apart
      exact List.mem_append_left _ (List.mem_filterMap.mpr
        ⟨i, List.mem_append_right _ inside, defines⟩)
    refine ⟨set, before, after, all, ?_, readString_import pf.charSigned, apart, ?_, ?_⟩
    · intro i member op
      have other := filter_single (imports.trans (List.filter_cons_of_pos rfl)) rfl i member
      exact of_decide_eq_false other op
    · intro c id entry own
      rw [traces] at entry
      obtain ⟨made, rest, rfl, answer⟩ := Runs.mem_trace_iff.mp entry
      by_cases declares : ∃ e, c.action = .declare e
      · obtain ⟨e, action⟩ := declares
        obtain ⟨d, rfl, rfl⟩ := Call.exists_declarationCall action
        obtain ⟨found, returned, member⟩ := declaration_answered pf version made rest d
        have same : some id = some found := by
          rw [← returned, exec_declaration, answer, Listing.step, action]
          rfl
        obtain rfl := Option.some.inj same
        exact elsewhere _ (declared _ (List.mem_map_of_mem member)) _ rfl
      · have counter := Listing.step_counter pf answer.symm own
          fun e action => declares ⟨e, action⟩
        have last : id.value = (listing pf version (made ++ [c])).bound := by
          rw [listing_snoc]
          exact counter
        rw [last]
        rw [← List.singleton_append, ← List.append_assoc] at cached few32
        exact bound_ne_import pf version cached few32
    · intro c r inst entry action
      rw [traces] at entry
      obtain ⟨id, answer, listed⟩ := listing_glsl pf version entry action cached
      have inside : inst.instruction pf set id.value ∈ after := by
        rcases behind _ listed with first | later
        · rw [single, List.mem_singleton] at first
          have op : Op.opExtInst = Op.opExtInstImport := congrArg Instruction.op first
          cases op
        · exact later
      refine ⟨id, answer, elsewhere _ inside _ rfl, ?_⟩
      refine filter_result ?_ inside rfl
      rw [List.filterMap_append] at others
      exact (List.nodup_append.mp (List.nodup_append.mp others).1).2.1

theorem one_glsl_import_shared : ∃ set before after,
    split wordCount ((((Module.new linuxX86 0).run linuxX86 [.glsl (.opSin ⟨1⟩ ⟨2⟩),
        .type .typeVoid, .opLabel, .flow (.opBranch ⟨4⟩),
        .glsl (.opPow ⟨1⟩ ⟨2⟩ ⟨2⟩)]).assemble linuxX86).drop 5) =
      ((before ++ importInstruction linuxX86 set :: after).map (Instruction.words linuxX86),
        []) ∧
    ∀ i ∈ before ++ after, i.op ≠ .opExtInstImport := by
  obtain ⟨walked, _, shared⟩ := one_glsl_import linuxX86 0 [.glsl (.opSin ⟨1⟩ ⟨2⟩),
    .type .typeVoid, .opLabel, .flow (.opBranch ⟨4⟩), .glsl (.opPow ⟨1⟩ ⟨2⟩ ⟨2⟩)]
    (by decide) (by decide) (by decide)
  obtain ⟨set, before, after, cut, only, _⟩ := shared ⟨.glsl (.opSin ⟨1⟩ ⟨2⟩), by simp, rfl⟩
  rw [cut] at walked
  exact ⟨set, before, after, walked, only⟩

end Sirit
