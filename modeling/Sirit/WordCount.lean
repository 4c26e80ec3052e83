import Sirit.Assembled
import Sirit.PhiAddress

/- The header of an instruction counts its words in 16 bits. Nothing bounds the count, so it
   is right for instructions of at most 65535 words and loses its upper bits for others. -/
namespace Sirit
open VectorCursor
variable (pf : Platform)

inductive Place where
  | stream (sec : Section)
  | declarations
  deriving DecidableEq

def Module.emitted (m : Module) : Place → List U32
  | .stream sec => (m.stream sec).written
  | .declarations => m.declarations.stream.written

def Action.emits : Action → Option (Place × Op)
  | .emit sec e _ => some (.stream sec, e.head.opcode)
  | .declare e => some (.declarations, e.opId.opcode)
  | .deferPhi _ _ => some (.stream .code, .opPhi)
  | .glsl _ => some (.stream .code, .opExtInst)
  | .addLabel _ => some (.stream .code, .opLabel)
  | _ => none

/-- The first word has the opcode in its low half, and in its high half what is left of the
    number of words in 16 bits. -/
def Headed (o : Op) (words : List U32) : Prop :=
  ∃ header tail, words = header :: tail ∧ headerOpcode header = pf.opcode o ∧
    wordCount header = words.length % 2 ^ 16

def Counted (o : Op) (words : List U32) : Prop :=
  ∃ header tail, words = header :: tail ∧ headerOpcode header = pf.opcode o ∧
    wordCount header = words.length

theorem Instruction.headed (i : Instruction) : Headed pf i.op (i.words pf) :=
  ⟨_, i.tail, rfl, headerOpcode_makeWord0 pf i.op _, wordCount_makeWord0_mod pf i.op _⟩

theorem Headed.counted_iff {o : Op} {words : List U32} (headed : Headed pf o words) :
    Counted pf o words ↔ words.length ≤ 65535 := by
  obtain ⟨header, tail, rfl, opcode, count⟩ := headed
  constructor
  · rintro ⟨_, _, same, _, exact_count⟩
    obtain ⟨rfl, rfl⟩ := List.cons.inj same
    omega
  · intro short
    refine ⟨header, tail, rfl, opcode, ?_⟩
    omega

def Module.Repeats (m : Module) : Action → Prop
  | .declare e =>
      (m.declarations.existingDeclarations.lookup ((e.key pf).words pf)).isSome = true
  | _ => False

theorem Module.emitted_perform (m : Module) {a : Action} {place : Place} {o : Op}
    (emits : a.emits = some (place, o)) :
    (m.Repeats pf a ∧ (m.perform pf a).2.emitted place = m.emitted place) ∨
      ∃ i : Instruction, i.op = o ∧
        (m.perform pf a).2.emitted place = m.emitted place ++ i.words pf := by
  cases a with
  | emit sec e returned =>
    cases emits
    refine Or.inr ⟨e.instruction pf m.bound, e.instruction_op pf m.bound, ?_⟩
    have written := Stream.written_emit pf e (m.stream sec) m.bound
    cases sec <;> exact written
  | declare e =>
    cases emits
    cases found : m.declarations.existingDeclarations.lookup ((e.key pf).words pf) with
    | some entry =>
      have repeats : m.Repeats pf (.declare e) := Option.isSome_iff_exists.mpr ⟨entry, found⟩
      exact Or.inl ⟨repeats, Declarations.declare_known_written m.bound found⟩
    | none =>
      exact Or.inr ⟨(e.key pf).instruction (m.bound + 1), rfl,
        Declarations.declare_new_written m.bound found⟩
  | deferPhi resultType blocks =>
    cases emits
    exact Or.inr ⟨(Sirit.deferredOpPhi resultType blocks).instruction pf m.bound, rfl,
      Stream.written_emit pf _ m.code m.bound⟩
  | glsl inst =>
    cases emits
    have written := Stream.written_emit pf (opExtInst inst.resultType (m.getGLSLstd450 pf).1
      (pf.glslStd450 inst.opcode) inst.operands) (m.getGLSLstd450 pf).2.code
      (m.getGLSLstd450 pf).2.bound
    have code := congrArg (fun s : Stream => s.written) (m.getGLSLstd450_code pf).1
    refine Or.inr ⟨(opExtInst inst.resultType (m.getGLSLstd450 pf).1
      (pf.glslStd450 inst.opcode) inst.operands).instruction pf (m.getGLSLstd450 pf).2.bound,
      rfl, ?_⟩
    exact written.trans (congrArg (· ++ _) code)
  | addLabel label =>
    cases emits
    exact Or.inr ⟨labelInstruction label, rfl, m.written_addLabel pf label⟩
  | addExtension _ | addCapability _ | setMemoryModel _ _ | opLabel | patch _ => cases emits

/-- Every instruction a call appends, and every extension of an assembled module, has its
    opcode and its number of words modulo 2^16 in its header; the number is exact up to
    65535 words, and not beyond. -/
theorem word_counts_exact_iff :
    (∀ (m : Module) (c : Call) (place : Place) (o : Op), c.action.emits = some (place, o) →
      ∃ words, (m.exec pf c).2.emitted place = m.emitted place ++ words ∧
        ((m.Repeats pf c.action ∧ words = []) ∨
          (Headed pf o words ∧ (Counted pf o words ↔ words.length ≤ 65535)))) ∧
    ∀ (words : List U32) (extensionName : List U8), ∃ extension,
      insertExtension pf words extensionName = words ++ extension ∧
        Headed pf .opExtension extension ∧
        (Counted pf .opExtension extension ↔ extension.length ≤ 65535) := by
  refine ⟨?_, ?_⟩
  · intro m c place o emits
    rcases Module.emitted_perform pf m emits with ⟨repeats, same⟩ | ⟨i, rfl, grown⟩
    · exact ⟨[], same.trans (List.append_nil _).symm, Or.inl ⟨repeats, rfl⟩⟩
    · exact ⟨_, grown, Or.inr ⟨i.headed pf, (i.headed pf).counted_iff pf⟩⟩
  · intro words extensionName
    have headed := (extensionInstruction pf extensionName).headed pf
    refine ⟨(extensionInstruction pf extensionName).words pf, ?_, headed,
      headed.counted_iff pf⟩
    rw [extensionInstruction_words]
    exact insertExtension_eq pf words extensionName

theorem word_counts_exact_iff_pair : ∃ words,
    ((Module.new linuxX86 0).exec linuxX86
        (.memory (.opCompositeConstruct ⟨1⟩ [⟨2⟩, ⟨3⟩]))).2.emitted (.stream .code) =
      (Module.new linuxX86 0).emitted (.stream .code) ++ words ∧
    Headed linuxX86 .opCompositeConstruct words ∧
    (Counted linuxX86 .opCompositeConstruct words ↔ words.length ≤ 65535) := by
  obtain ⟨words, grown, repeats | counted⟩ := (word_counts_exact_iff linuxX86).1
    (Module.new linuxX86 0) (.memory (.opCompositeConstruct ⟨1⟩ [⟨2⟩, ⟨3⟩])) (.stream .code)
    .opCompositeConstruct rfl
  · exact absurd repeats.1 fun none => none
  · exact ⟨words, grown, counted⟩

/-- A structure of 65534 members has 65536 words and a word count of zero. -/
theorem wide_struct_count_wraps : ¬ ∀ (pf : Platform) (m : Module) (c : Call) (place : Place)
    (o : Op), c.Asserts → c.action.emits = some (place, o) → ∀ words, words ≠ [] →
    (m.exec pf c).2.emitted place = m.emitted place ++ words → Counted pf o words := by
  intro always
  obtain ⟨members, count, given⟩ : ∃ members : List Id,
      members.length = 65534 ∧ ∀ i ∈ members, i = ⟨1⟩ :=
    ⟨List.replicate 65534 ⟨1⟩, List.length_replicate, fun _ => List.eq_of_mem_replicate⟩
  obtain ⟨i, struct⟩ : ∃ i : Instruction, i =
      ((TypeCall.typeStruct members).declaration.key linuxX86).instruction 1 := ⟨_, rfl⟩
  have long : i.width = 65536 := by
    simp [struct, DeclKey.instruction, Declaration.key, TypeCall.declaration,
      Instruction.width, Instruction.tail, OpId.resultType, typeWords, count]
  have asserts : (Call.type (.typeStruct members)).Asserts := by
    refine ⟨⟨trivial, ?_⟩, trivial⟩
    intro operand member
    obtain ⟨id, inside, rfl⟩ := List.mem_map.mp member
    rw [given id inside]
    decide
  have counted := always linuxX86 (Module.new linuxX86 0) (.type (.typeStruct members))
    .declarations .opTypeStruct asserts rfl (i.words linuxX86) (List.cons_ne_nil _ _) (by
      rw [struct]
      exact Declarations.declare_new_written 0 rfl)
  have headed : Headed linuxX86 .opTypeStruct (i.words linuxX86) := by
    rw [struct]
    exact Instruction.headed linuxX86 _
  have short := (headed.counted_iff linuxX86).mp counted
  rw [Instruction.words_length, long] at short
  omega

end Sirit
