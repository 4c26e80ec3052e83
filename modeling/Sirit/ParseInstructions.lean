import Sirit.Disassembly

/- tests/main.cpp: the parser that the tests read assembled modules with, and the counting
   loop of `test_capability_dedup`. -/
namespace Sirit
open Framing
variable (pf : Platform)

/-- `words` is the index that the pointer of the source points to. -/
structure ParsedInstruction where
  opcode : U32
  wordCount : U32
  words : Nat
  deriving DecidableEq

def parseFrom (code : List U32) (i : Nat) (out : List ParsedInstruction) :
    List ParsedInstruction :=
  if inside : i < code.length then
    let header := code[i]
    let op := header &&& 0xFFFF
    let wc := header >>> 16
    if wc = 0 ∨ code.length < i + wc.toNat then out
    else parseFrom code (i + wc.toNat) (out ++ [⟨op, wc, i⟩])
  else out
termination_by code.length - i
decreasing_by
  rename_i valid
  rw [not_or] at valid
  have positive : wc.toNat ≠ 0 := fun zero => valid.1 (BitVec.eq_of_toNat_eq zero)
  change code.length - (i + wc.toNat) < code.length - i
  omega

def parseInstructions (code : List U32) : List ParsedInstruction :=
  if code.length < 5 then [] else parseFrom code 5 []

def parsedEntry (p : Nat × List U32) : ParsedInstruction :=
  ⟨p.2.headD 0 &&& 0xFFFF, p.2.headD 0 >>> 16, p.1⟩

theorem wordCount_eq_zero_iff (w : U32) : w >>> 16 = 0 ↔ wordCount w = 0 := by
  rw [wordCount, ← BitVec.toNat_inj]
  rfl

theorem parseFrom_eq (code : List U32) (i : Nat) (out : List ParsedInstruction) :
    parseFrom code i out =
      out ++ (positions i (split wordCount (code.drop i)).1).map parsedEntry := by
  fun_induction parseFrom code i out with
  | case1 i out inside header wc stop =>
    rw [List.drop_eq_getElem_cons inside, split_cons, if_pos]
    · exact (List.append_nil out).symm
    · rw [← List.drop_eq_getElem_cons inside, List.length_drop]
      refine stop.imp (wordCount_eq_zero_iff _).mp fun past => ?_
      change code.length < i + wordCount code[i] at past
      omega
  | case2 i out inside header op wc more ih =>
    rw [not_or, Nat.not_lt] at more
    have positive : wordCount code[i] ≠ 0 := fun zero => more.1 ((wordCount_eq_zero_iff _).mpr zero)
    have fits : i + wordCount code[i] ≤ code.length := more.2
    have valid : ¬ (wordCount code[i] = 0 ∨ (code.drop i).length < wordCount code[i]) := by
      rw [List.length_drop]
      omega
    have long : ((code.drop i).take (wordCount code[i])).length = wordCount code[i] := by
      rw [List.length_take, List.length_drop]
      omega
    have head : ((code.drop i).take (wordCount code[i])).headD 0 = code[i] := by
      rw [List.drop_eq_getElem_cons inside]
      obtain ⟨n, count⟩ := Nat.exists_eq_succ_of_ne_zero positive
      rw [count]
      rfl
    rw [List.drop_eq_getElem_cons inside, split_cons, ← List.drop_eq_getElem_cons inside,
      if_neg valid, List.drop_drop, positions, long, List.map_cons, ih, List.append_assoc]
    simp only [parsedEntry, head]
    rfl
  | case3 i out outside =>
    rw [List.drop_eq_nil_of_le (Nat.le_of_not_lt outside)]
    exact (List.append_nil out).symm

theorem parseInstructions_eq (code : List U32) :
    parseInstructions code = (positions 5 (split wordCount (code.drop 5)).1).map parsedEntry := by
  unfold parseInstructions
  split
  · rename_i short
    rw [List.drop_eq_nil_of_le (by omega)]
    rfl
  · exact parseFrom_eq code 5 []

def ParsedInstruction.slice (code : List U32) (inst : ParsedInstruction) : List U32 :=
  (code.drop inst.words).take inst.wordCount.toNat

def countCapability (code : List U32) (capability : U32) : Nat :=
  (parseInstructions code).countP fun inst =>
    decide (inst.opcode = pf.op .opCapability ∧ 2 ≤ inst.wordCount.toNat ∧
      code.getD (inst.words + 1) 0 = capability)

theorem parsedEntry_slice {code f : List U32} {n : Nat} (frame : Frame wordCount f)
    (found : (code.drop n).take f.length = f) : (parsedEntry (n, f)).slice code = f := by
  obtain ⟨header, tail, rfl, counted⟩ := frame
  have long : (parsedEntry (n, header :: tail)).wordCount.toNat = (header :: tail).length :=
    counted
  rw [ParsedInstruction.slice, long]
  exact found

theorem positions_split_slice (code : List U32) (n : Nat) :
    ∀ p ∈ positions n (split wordCount (code.drop n)).1,
      Frame wordCount p.2 ∧ (code.drop p.1).take p.2.length = p.2 ∧
        p.1 + p.2.length ≤ code.length := by
  intro p member
  obtain ⟨whole, frames⟩ : (split wordCount (code.drop n)).1.flatten ++
    (split wordCount (code.drop n)).2 = code.drop n ∧ _ := split_sound (code.drop n)
  have inside : n ≤ code.length := by
    by_contra short
    rw [List.drop_eq_nil_of_le (by omega)] at member
    exact absurd member List.not_mem_nil
  have long : (code.take n).length = n := List.length_take_of_le inside
  have placed : p ∈ positions (code.take n).length (split wordCount (code.drop n)).1 := by
    rw [long]
    exact member
  have found := positions_slice placed (split wordCount (code.drop n)).2
  rw [List.append_assoc, whole, List.take_append_drop] at found
  obtain ⟨listed, _, last⟩ := positions_bounds member
  have whole := congrArg List.length whole
  rw [List.length_append, List.length_drop] at whole
  exact ⟨frames p.2 listed, found, by omega⟩

theorem parsed_inside {code : List U32} {inst : ParsedInstruction}
    (member : inst ∈ parseInstructions code) :
    inst.words + inst.wordCount.toNat ≤ code.length := by
  rw [parseInstructions_eq] at member
  obtain ⟨⟨n, f⟩, listed, rfl⟩ := List.mem_map.mp member
  obtain ⟨⟨header, tail, rfl, counted⟩, _, last⟩ := positions_split_slice code 5 _ listed
  change n + wordCount header ≤ code.length
  rw [counted]
  exact last

theorem parsed_slices (code : List U32) :
    (parseInstructions code).map (ParsedInstruction.slice code) =
      (split wordCount (code.drop 5)).1 := by
  rw [parseInstructions_eq, List.map_map]
  refine (List.map_congr_left ?_).trans (positions_map_snd 5 _)
  intro p member
  obtain ⟨frame, found, _⟩ := positions_split_slice code 5 p member
  exact parsedEntry_slice frame found

theorem parsed_opcode {code : List U32} {inst : ParsedInstruction}
    (member : inst ∈ parseInstructions code) :
    inst.opcode = (inst.slice code).headD 0 &&& 0xFFFF := by
  rw [parseInstructions_eq] at member
  obtain ⟨⟨n, f⟩, listed, rfl⟩ := List.mem_map.mp member
  obtain ⟨frame, found, _⟩ := positions_split_slice code 5 _ listed
  rw [parsedEntry_slice frame found]
  rfl

/-- The opcodes that no method streams: `Assemble` writes them itself. -/
def Op.assembled : Op → Bool
  | .opCapability | .opExtension | .opMemoryModel => true
  | _ => false

theorem Call.emits_unassembled {c : Call} {sec : Section} {e : Emission} {returned : Returned}
    (action : c.action = .emit sec e returned) : e.head.opcode.assembled = false := by
  cases c with
  | annotate c => cases c <;> cases action <;> rfl
  | debug c => cases c <;> cases action <;> rfl
  | flow c => cases c <;> cases action <;> rfl
  | memory c => cases c <;> cases action <;> rfl
  | atomic c => cases c <;> cases action <;> rfl
  | barrier c => cases c <;> cases action <;> rfl
  | misc c => cases c <;> cases action <;> rfl
  | arithmetic c => cases c <;> cases action <;> rfl
  | conversion c => cases c <;> cases action <;> rfl
  | derivatives c => cases c <;> cases action <;> rfl
  | logical c => cases c <;> cases action <;> rfl
  | bit c => cases c <;> cases action <;> rfl
  | group c => cases c <;> cases action <;> rfl
  | image c => cases c <;> cases action <;> rfl
  | addEntryPoint _ _ _ _ | addExecutionMode _ _ _ | addLocalVariable _ _ _
  | addGlobalVariable _ _ _ | opExtInst _ _ _ _ => cases action; rfl
  | _ => cases action

theorem Call.declares_unassembled {c : Call} {e : Declaration} (action : c.action = .declare e) :
    e.opId.opcode.assembled = false := by
  cases c with
  | type c => cases c <;> cases action <;> rfl
  | constant c => cases c <;> cases action <;> rfl
  | _ => cases action

theorem Call.writes_unassembled {c : Call} {i : Instruction} (writes : c.action.Writes pf i) :
    i.op.assembled = false := by
  cases action : c.action with
  | emit sec e returned =>
    rw [action] at writes
    cases writes
    rw [Emission.instruction_op]
    exact Call.emits_unassembled action
  | declare e =>
    rw [action] at writes
    cases writes
    exact Call.declares_unassembled action
  | _ =>
    rw [action] at writes
    cases writes <;> rfl

def countsCapability (capability : U32) (f : List U32) : Bool :=
  decide (f.headD 0 &&& 0xFFFF = pf.op .opCapability ∧ 2 ≤ f.length ∧ f.getD 1 0 = capability)

theorem countCapability_eq (code : List U32) (capability : U32) :
    countCapability pf code capability =
      (split wordCount (code.drop 5)).1.countP (countsCapability pf capability) := by
  rw [← parsed_slices, List.countP_map, countCapability]
  apply List.countP_congr
  intro inst member
  have opcode := parsed_opcode member
  have inside := parsed_inside member
  have long : (inst.slice code).length = inst.wordCount.toNat := by
    rw [ParsedInstruction.slice, List.length_take, List.length_drop]
    omega
  simp only [Function.comp_apply, countsCapability, decide_eq_true_eq, ← opcode, long]
  refine and_congr_right fun _ => and_congr_right fun two => ?_
  have second : (inst.slice code).getD 1 0 = code.getD (inst.words + 1) 0 := by
    rw [ParsedInstruction.slice, List.getD_eq_getElem?_getD, List.getD_eq_getElem?_getD,
      List.getElem?_take_of_lt (by omega), List.getElem?_drop]
  rw [second]

def Instruction.adds (capability : U32) (i : Instruction) : Bool :=
  decide (i.op = .opCapability ∧ i.tail ≠ [] ∧ i.tail.headD 0 = capability)

theorem countsCapability_words (capability : U32) (i : Instruction) :
    countsCapability pf capability (i.words pf) = i.adds capability := by
  have opcode : (i.words pf).headD 0 &&& 0xFFFF = pf.op i.op := makeWord0_and pf i.op _
  rw [countsCapability, opcode, Instruction.adds, decide_eq_decide, pf.op_injective.eq_iff]
  refine and_congr_right fun _ => ?_
  cases tail : i.tail with
  | nil => simp [Instruction.words, tail]
  | cons w ws => simp [Instruction.words, tail]

theorem countP_capability (version : U32) (calls : List Call) (capability : U32) :
    ((listing pf version calls).all pf).countP (Instruction.adds capability) =
      (listing pf version calls).capabilities.count capability := by
  have none : ∀ part : List Instruction, (∀ i ∈ part, i.op ≠ .opCapability) →
      part.countP (Instruction.adds capability) = 0 := by
    intro part other
    rw [List.countP_eq_zero]
    intro i member
    simp [Instruction.adds, other i member]
  have unassembled : ∀ i ∈ (listing pf version calls).emitted, i.op ≠ .opCapability := by
    rintro i member same
    obtain ⟨c, _, writes⟩ := listing_writes pf member
    have streamed := Call.writes_unassembled pf writes
    rw [same] at streamed
    cases streamed
  have sections : ∀ sec,
      ((listing pf version calls).instructions sec).countP (Instruction.adds capability) = 0 :=
    fun sec => none _ fun i member =>
      unassembled i (Listing.mem_emitted_iff.mpr (Or.inl ⟨sec, member⟩))
  have declared : (listing pf version calls).declarationInstructions.countP
      (Instruction.adds capability) = 0 :=
    none _ fun i member => unassembled i (Listing.mem_emitted_iff.mpr (Or.inr member))
  have extensions := none ((pf.extensionOrder (listing pf version calls).extensions).map
    (extensionInstruction pf)) (by
      intro i member
      obtain ⟨x, _, rfl⟩ := List.mem_map.mp member
      exact show Op.opExtension ≠ .opCapability by decide)
  have model := none [memoryModelInstruction (listing pf version calls).addressingModel
    (listing pf version calls).memoryModel] (by
      intro i member
      rw [List.mem_singleton.mp member]
      exact show Op.opMemoryModel ≠ .opCapability by decide)
  have order := pf.capabilityOrder_perm (listing pf version calls).capabilities
  simp only [Listing.all, Listing.preamble, Listing.globals, List.countP_append, sections,
    declared, extensions, model, Nat.add_zero]
  rw [← order.count_eq, List.countP_map, List.count_eq_countP]
  apply List.countP_congr
  intro x _
  simp [Instruction.adds, capabilityInstruction, Instruction.tail, typeWords]

/-- Whatever the words, the parser stays inside them and reads every instruction up to a
    word count that is zero or reaches past the end. Of an assembled module, if no store
    missed its vector, it reads the listing of the run, in which every capability that was
    added is counted once. -/
theorem parse_instructions_listing :
    (∀ code : List U32,
      (∀ inst ∈ parseInstructions code, inst.words + inst.wordCount.toNat ≤ code.length ∧
        Frame wordCount (inst.slice code) ∧
        inst.opcode = (inst.slice code).headD 0 &&& 0xFFFF) ∧
      ∃ rest, ((parseInstructions code).map (ParsedInstruction.slice code)).flatten ++ rest =
          code.drop 5 ∧
        (rest = [] ∨ ∃ w ws, rest = w :: ws ∧
          (wordCount w = 0 ∨ (w :: ws).length < wordCount w))) ∧
    ∀ (version : U32) (calls : List Call), (∀ c ∈ calls, ¬ c.action.IsPatch) →
      (listing pf version calls).Short pf →
      ((SizedModule.new pf version).run pf calls).missed = 0 →
      (parseInstructions (((SizedModule.new pf version).run pf calls).assemble pf)).map
          (ParsedInstruction.slice (((SizedModule.new pf version).run pf calls).assemble pf)) =
        ((listing pf version calls).all pf).map (Instruction.words pf) ∧
      ∀ capability,
        (Call.addCapability capability ∈ calls →
          countCapability pf (((SizedModule.new pf version).run pf calls).assemble pf)
            capability = 1) ∧
        (Call.addCapability capability ∉ calls →
          countCapability pf (((SizedModule.new pf version).run pf calls).assemble pf)
            capability = 0) := by
  refine ⟨?_, ?_⟩
  · intro code
    obtain ⟨whole, frames⟩ : (split wordCount (code.drop 5)).1.flatten ++
      (split wordCount (code.drop 5)).2 = code.drop 5 ∧ _ := split_sound (code.drop 5)
    refine ⟨?_, (split wordCount (code.drop 5)).2, ?_, split_rest (code.drop 5)⟩
    · intro inst member
      refine ⟨parsed_inside member, frames _ ?_, parsed_opcode member⟩
      rw [← parsed_slices]
      exact List.mem_map_of_mem member
    · rw [parsed_slices, whole]
  · intro version calls unpatched short inside
    have walk := split_assemble pf version unpatched short
    obtain ⟨_, follows⟩ := sized_follows pf version calls
    rw [← follows.assemble_eq pf inside] at walk
    refine ⟨by rw [parsed_slices, walk], ?_⟩
    intro capability
    rw [countCapability_eq, walk, List.countP_map, Function.comp_def]
    simp only [countsCapability_words]
    rw [countP_capability]
    obtain ⟨distinct, added⟩ := listing_capabilities pf version calls
    rw [← added capability]
    exact ⟨List.count_eq_one_of_mem distinct, List.count_eq_zero_of_not_mem⟩

theorem parse_instructions_listing_twice :
    countCapability linuxX86 (((SizedModule.new linuxX86 0).run linuxX86 [.addCapability 1,
      .addCapability 10, .addCapability 1]).assemble linuxX86) 1 = 1 :=
  (((parse_instructions_listing linuxX86).2 0 [.addCapability 1, .addCapability 10,
    .addCapability 1] (by decide) (by decide) (by decide)).2 1).1 List.mem_cons_self

end Sirit
