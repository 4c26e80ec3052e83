import Sirit.Framing
import Sirit.Refinement

/- Walking the assembled words by the word counts of their headers. -/
namespace Sirit
open Framing Interning
variable (pf : Platform)

def wordCount (w : U32) : Nat := (w >>> 16).toNat

def headerOpcode (w : U32) : BitVec 16 := w.setWidth 16

/-- A word count of more than 16 bits loses the bits above. -/
theorem wordCount_makeWord0_mod (o : Op) (n : Nat) :
    wordCount (makeWord0 (pf.op o) n) = n % 65536 := by
  have opcode := (pf.opcode o).isLt
  have disjoint : (pf.op o).toNat = (pf.opcode o).toNat := by
    rw [Platform.op, BitVec.toNat_setWidth]
    exact Nat.mod_eq_of_lt (by omega)
  have shifted : (BitVec.ofNat 32 n <<< 16).toNat = (n % 65536) <<< 16 := by
    rw [BitVec.toNat_shiftLeft, BitVec.toNat_ofNat, Nat.shiftLeft_eq, Nat.shiftLeft_eq]
    omega
  rw [wordCount, makeWord0, BitVec.toNat_ushiftRight, BitVec.toNat_or, disjoint, shifted,
    Nat.or_comm, ← Nat.shiftLeft_add_eq_or_of_lt opcode, Nat.shiftRight_eq_div_pow,
    Nat.shiftLeft_eq]
  omega

theorem wordCount_makeWord0 (o : Op) {n : Nat} (short : n ≤ 65535) :
    wordCount (makeWord0 (pf.op o) n) = n := by
  rw [wordCount_makeWord0_mod, Nat.mod_eq_of_lt (Nat.lt_succ_of_le short)]

theorem headerOpcode_makeWord0 (o : Op) (n : Nat) :
    headerOpcode (makeWord0 (pf.op o) n) = pf.opcode o := by
  ext i hi
  simp only [headerOpcode, makeWord0, Platform.op, BitVec.getElem_setWidth, BitVec.getLsbD_or,
    BitVec.getLsbD_setWidth, BitVec.getLsbD_shiftLeft]
  simp [hi, show i < 32 by omega]

theorem makeWord0_and (o : Op) (n : Nat) : makeWord0 (pf.op o) n &&& 0xFFFF = pf.op o := by
  ext i hi
  have mask : (0xFFFF : U32) = (BitVec.allOnes 16).setWidth 32 := by decide
  simp only [makeWord0, Platform.op, mask, BitVec.getElem_and, BitVec.getElem_or,
    BitVec.getElem_setWidth, BitVec.getElem_shiftLeft, BitVec.getLsbD_allOnes]
  by_cases low : i < 16
  · simp [low]
  · simp [low, BitVec.getLsbD_of_ge _ _ (Nat.le_of_not_lt low)]

theorem Instruction.headerOpcode_words (i : Instruction) :
    headerOpcode ((i.words pf).headD 0) = pf.opcode i.op := headerOpcode_makeWord0 pf i.op _

theorem filter_headerOpcode (is : List Instruction) (o : Op) :
    (is.map (Instruction.words pf)).filter
        (fun f => headerOpcode (f.headD 0) = pf.opcode o) =
      (is.filter fun i => i.op = o).map (Instruction.words pf) := by
  rw [List.filter_map]
  congr 1
  apply List.filter_congr
  intro i _
  simp only [Function.comp_apply, Instruction.headerOpcode_words, pf.opcode_injective.eq_iff]

theorem Instruction.frame {i : Instruction} (short : i.width ≤ 65535) :
    Frame wordCount (i.words pf) :=
  ⟨_, _, rfl, wordCount_makeWord0 pf i.op short⟩

theorem split_instructions {is : List Instruction} (short : ∀ i ∈ is, i.width ≤ 65535)
    (ws : List U32) :
    split wordCount (is.flatMap (Instruction.words pf) ++ ws) =
      (is.map (Instruction.words pf) ++ (split wordCount ws).1, (split wordCount ws).2) := by
  rw [List.flatMap_def]
  apply split_frames_append
  intro f member
  obtain ⟨i, inside, rfl⟩ := List.mem_map.mp member
  exact i.frame pf (short i inside)

def Call.capability : Call → Option U32
  | .addCapability capability => some capability
  | _ => none

def Call.extension : Call → Option (List U8)
  | .addExtension extensionName => some extensionName
  | _ => none

def lastMemoryModel (calls : List Call) : U32 × U32 :=
  calls.foldl (fun last c =>
    match c with
    | .setMemoryModel addressingModel memoryModel => (addressingModel, memoryModel)
    | _ => last) (pf.logical, pf.glsl450)

theorem Listing.getGLSLstd450_fields (l : Listing) :
    (l.getGLSLstd450 pf).2.capabilities = l.capabilities ∧
      (l.getGLSLstd450 pf).2.extensions = l.extensions ∧
      (l.getGLSLstd450 pf).2.addressingModel = l.addressingModel ∧
      (l.getGLSLstd450 pf).2.memoryModel = l.memoryModel := by
  unfold Listing.getGLSLstd450
  split <;> exact ⟨rfl, rfl, rfl, rfl⟩

theorem Listing.step_capabilities (l : Listing) (c : Call) :
    (l.step pf c).2.capabilities =
      c.capability.elim l.capabilities fun x => Runs.addNew x l.capabilities := by
  obtain ⟨import_eq, _⟩ := l.getGLSLstd450_fields pf
  cases c <;> first | rfl | exact import_eq

theorem Listing.step_extensions (l : Listing) (c : Call) :
    (l.step pf c).2.extensions =
      c.extension.elim l.extensions fun x => Runs.addNew x l.extensions := by
  obtain ⟨_, import_eq, _⟩ := l.getGLSLstd450_fields pf
  cases c <;> first | rfl | exact import_eq

theorem listing_memoryModel (version : U32) (calls : List Call) :
    ((listing pf version calls).addressingModel, (listing pf version calls).memoryModel) =
      lastMemoryModel pf calls := by
  have all : ∀ (calls : List Call) (l : Listing),
      ((Runs.run (Listing.step pf) l calls).addressingModel,
        (Runs.run (Listing.step pf) l calls).memoryModel) =
      calls.foldl (fun last c =>
        match c with
        | .setMemoryModel addressingModel memoryModel => (addressingModel, memoryModel)
        | _ => last) (l.addressingModel, l.memoryModel) := by
    intro calls
    induction calls with
    | nil => intro l; rfl
    | cons c calls ih =>
      intro l
      obtain ⟨_, _, addressing, memory⟩ := l.getGLSLstd450_fields pf
      rw [Runs.run_cons, ih, List.foldl_cons]
      congr 1
      cases c <;> first | rfl | exact Prod.ext addressing memory
  exact all calls (Listing.new pf version)

theorem capability_eq_some_iff {c : Call} {x : U32} :
    c.capability = some x ↔ c = .addCapability x := by
  cases c <;> simp [Call.capability]

theorem extension_eq_some_iff {c : Call} {x : List U8} :
    c.extension = some x ↔ c = .addExtension x := by
  cases c <;> simp [Call.extension]

theorem listing_capabilities (version : U32) (calls : List Call) :
    (listing pf version calls).capabilities.Nodup ∧
      ∀ x, x ∈ (listing pf version calls).capabilities ↔ Call.addCapability x ∈ calls := by
  obtain ⟨nodup, members⟩ := Runs.collected (f := Listing.capabilities)
    (Listing.step_capabilities pf) (s := Listing.new pf version) calls
  refine ⟨nodup List.nodup_nil, ?_⟩
  intro x
  rw [listing, members]
  simp [Listing.new, capability_eq_some_iff]

theorem listing_extensions (version : U32) (calls : List Call) :
    (listing pf version calls).extensions.Nodup ∧
      ∀ x, x ∈ (listing pf version calls).extensions ↔ Call.addExtension x ∈ calls := by
  obtain ⟨nodup, members⟩ := Runs.collected (f := Listing.extensions)
    (Listing.step_extensions pf) (s := Listing.new pf version) calls
  refine ⟨nodup List.nodup_nil, ?_⟩
  intro x
  rw [listing, members]
  simp [Listing.new, extension_eq_some_iff]

theorem split_assemble (version : U32) {calls : List Call}
    (unpatched : ∀ c ∈ calls, ¬ c.action.IsPatch) (short : (listing pf version calls).Short pf) :
    split wordCount ((((Module.new pf version).run pf calls).assemble pf).drop 5) =
      (((listing pf version calls).all pf).map (Instruction.words pf), []) := by
  obtain ⟨_, refines⟩ := run_refines_unpatched pf version unpatched
  have whole := split_instructions pf short []
  rw [List.append_nil] at whole
  rw [refines.drop_assemble, whole, split_nil, List.append_nil]

/-- For every run without patches, walking the assembled words by the word counts ends
    exactly at the end, and visits the sections in order. -/
theorem assemble_well_formed (version : U32) (calls : List Call)
    (unpatched : ∀ c ∈ calls, ¬ c.action.IsPatch) (short : (listing pf version calls).Short pf) :
    ∃ (capabilities : List U32) (extensions : List (List U8)),
      capabilities.Nodup ∧ (∀ x, x ∈ capabilities ↔ Call.addCapability x ∈ calls) ∧
      extensions.Nodup ∧ (∀ x, x ∈ extensions ↔ Call.addExtension x ∈ calls) ∧
      split wordCount ((((Module.new pf version).run pf calls).assemble pf).drop 5) =
        ((capabilities.map capabilityInstruction ++
          extensions.map (extensionInstruction pf) ++
          (listing pf version calls).instructions .extInstImports ++
          [memoryModelInstruction (lastMemoryModel pf calls).1 (lastMemoryModel pf calls).2] ++
          (listing pf version calls).instructions .entryPoints ++
          (listing pf version calls).instructions .executionModes ++
          (listing pf version calls).instructions .debug ++
          (listing pf version calls).instructions .annotations ++
          (listing pf version calls).declarationInstructions ++
          (listing pf version calls).instructions .globalVariables ++
          (listing pf version calls).instructions .code).map (Instruction.words pf), []) := by
  obtain ⟨distinct, added⟩ := listing_capabilities pf version calls
  obtain ⟨distinct', added'⟩ := listing_extensions pf version calls
  have order := pf.capabilityOrder_perm (listing pf version calls).capabilities
  have order' := pf.extensionOrder_perm (listing pf version calls).extensions
  refine ⟨_, _, order.nodup_iff.mpr distinct, ?_, order'.nodup_iff.mpr distinct', ?_, ?_⟩
  · intro x
    rw [order.mem_iff, added]
  · intro x
    rw [order'.mem_iff, added']
  · rw [split_assemble pf version unpatched short, ← listing_memoryModel pf version calls]
    simp only [Listing.all, Listing.preamble, Listing.globals, List.append_assoc]

theorem assemble_well_formed_mixed : ∃ is : List Instruction,
    split wordCount ((((Module.new linuxX86 0).run linuxX86
      [.addCapability 1, .type .typeVoid, .debug (.name ⟨1⟩ [0x66]), .addCapability 1,
        .type .typeVoid, .addLabel ⟨2⟩, .glsl (.opSin ⟨1⟩ ⟨3⟩)]).assemble linuxX86).drop 5) =
      (is.map (Instruction.words linuxX86), []) := by
  obtain ⟨_, _, _, _, _, _, walk⟩ := assemble_well_formed linuxX86 0
    [.addCapability 1, .type .typeVoid, .debug (.name ⟨1⟩ [0x66]), .addCapability 1,
      .type .typeVoid, .addLabel ⟨2⟩, .glsl (.opSin ⟨1⟩ ⟨3⟩)] (by decide) (by decide)
  exact ⟨_, walk⟩

end Sirit
