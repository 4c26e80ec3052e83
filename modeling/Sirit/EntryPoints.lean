import Sirit.Assembled
import Sirit.Reservation
import Sirit.Sections
import Sirit.StringLiterals

/- Entry points: a name in the middle of an instruction ends at its NUL, and the ids after
   it at the word count, so the calls can be read off the assembled words. -/
namespace Sirit
open Framing LittleEndian
variable (pf : Platform)

structure EntryPoint where
  executionModel : U32
  entryPoint : Id
  name : List U8
  interfaces : List Id
  deriving DecidableEq

def EntryPoint.call (e : EntryPoint) : Call :=
  .addEntryPoint e.executionModel e.entryPoint e.name e.interfaces

def EntryPoint.emission (e : EntryPoint) : Emission :=
  addEntryPoint e.executionModel e.entryPoint e.name e.interfaces

def EntryPoint.instruction (e : EntryPoint) : Instruction := e.emission.instruction pf 0

def Call.asEntryPoint : Call → Option EntryPoint
  | .addEntryPoint executionModel entryPoint name interfaces =>
      some ⟨executionModel, entryPoint, name, interfaces⟩
  | _ => none

def EntryPoint.Named (e : EntryPoint) : Prop := ∀ b ∈ e.name, b ≠ 0 ∧ b.toNat < 128

instance decidableEntryPointNamed (e : EntryPoint) : Decidable e.Named :=
  inferInstanceAs (Decidable (∀ b ∈ e.name, b ≠ 0 ∧ b.toNat < 128))

def readEntryPoint : List U32 → Option EntryPoint
  | _ :: executionModel :: entryPoint :: ws =>
      (readString ws).map fun r => ⟨executionModel, ⟨entryPoint⟩, r.1, r.2.map Id.mk⟩
  | _ => none

theorem asEntryPoint_eq_some_iff {c : Call} {e : EntryPoint} :
    c.asEntryPoint = some e ↔ c = e.call := by
  obtain ⟨executionModel, entryPoint, name, interfaces⟩ := e
  cases c <;> simp [Call.asEntryPoint, EntryPoint.call]

theorem EntryPoint.Named.readable {e : EntryPoint} (named : e.Named) (signed : Bool) :
    0 ∉ e.name ∧ CleanString signed e.name := by
  refine ⟨fun nul => (named 0 nul).1 rfl, ?_⟩
  rw [cleanString_iff]
  intro i inside high
  have low := (named e.name[i] (List.getElem_mem inside)).2
  simp only [Bool.and_eq_true, BitVec.msb_eq_decide, decide_eq_true_iff] at high
  omega

theorem EntryPoint.instruction_words (e : EntryPoint) :
    ∃ header, (e.instruction pf).words pf = header :: e.executionModel :: e.entryPoint.value ::
      (packString pf.charSigned e.name ++ e.interfaces.map Id.value) := by
  refine ⟨makeWord0 (pf.op .opEntryPoint) ((e.instruction pf).tail.length + 1), ?_⟩
  simp [EntryPoint.instruction, EntryPoint.emission, addEntryPoint, Emission.instruction,
    Instruction.words, Instruction.tail, typeWords, Operand.words, stringWords_eq_packString]

theorem readEntryPoint_words {e : EntryPoint} (named : e.Named) :
    readEntryPoint ((e.instruction pf).words pf) = some e := by
  obtain ⟨header, words⟩ := e.instruction_words pf
  obtain ⟨nulFree, clean⟩ := named.readable pf.charSigned
  have ids : (e.interfaces.map Id.value).map Id.mk = e.interfaces := by
    rw [List.map_map]
    exact List.map_id _
  rw [words, readEntryPoint, readString_packString clean nulFree, Option.map_some, ids]

theorem EntryPoint.width_le_reserved (e : EntryPoint) : e.emission.width ≤ e.emission.reserved := by
  simp only [EntryPoint.emission, addEntryPoint, Emission.width_op, operandsWidth_append,
    operandsWidth_cons, operandsWidth_nil, operandsWidth_span_id, Operand.width]
  omega

theorem listing_entryPoints (version : U32) (calls : List Call) :
    (listing pf version calls).instructions .entryPoints =
      (calls.filterMap Call.asEntryPoint).map (EntryPoint.instruction pf) := by
  rw [← List.filterMap_eq_map, List.filterMap_filterMap, List.filterMap_eq_flatMap_toList]
  apply Runs.appended (f := fun l : Listing => l.instructions .entryPoints)
  intro l c
  rw [l.instructions_step pf c (by decide) (by decide)]
  congr 1
  cases c <;> rfl

def entryPointFrames (words : List U32) : List (List U32) :=
  (split wordCount (words.drop 5)).1.filter fun f =>
    headerOpcode (f.headD 0) = pf.opcode .opEntryPoint

theorem entryPointFrames_assemble (version : U32) {calls : List Call}
    (unpatched : ∀ c ∈ calls, ¬ c.action.IsPatch) (short : (listing pf version calls).Short pf) :
    entryPointFrames pf (((Module.new pf version).run pf calls).assemble pf) =
      (calls.filterMap Call.asEntryPoint).map fun e => (e.instruction pf).words pf := by
  have single := (listing_placed pf version calls).filter_op pf
    (listing_code_home pf version calls) (o := .opEntryPoint) rfl
  have all : ((listing pf version calls).instructions .entryPoints).filter
      (fun i => i.op = .opEntryPoint) = (listing pf version calls).instructions .entryPoints := by
    rw [List.filter_eq_self, listing_entryPoints]
    intro i member
    obtain ⟨e, _, rfl⟩ := List.mem_map.mp member
    rfl
  rw [entryPointFrames, split_assemble pf version unpatched short, filter_headerOpcode, single,
    all, listing_entryPoints, List.map_map]
  rfl

/-- The frames of entry points make up their section, and reading them gives back the calls
    of the run in order; each call stores inside the vector, whatever was in it, and no two
    have the same words. -/
theorem entry_points_decode (version : U32) (calls : List Call)
    (unpatched : ∀ c ∈ calls, ¬ c.action.IsPatch)
    (named : ∀ e : EntryPoint, e.call ∈ calls → e.Named)
    (short : (listing pf version calls).Short pf) :
    (∀ (m : Module) (e : EntryPoint), m.StaysInside pf e.call) ∧
    (entryPointFrames pf (((Module.new pf version).run pf calls).assemble pf)).flatten =
      ((Module.new pf version).run pf calls).entryPoints.written ∧
    (entryPointFrames pf (((Module.new pf version).run pf calls).assemble pf)).map
      readEntryPoint = (calls.filterMap Call.asEntryPoint).map some ∧
    ∀ e e' : EntryPoint, e.Named → e'.Named →
      (e.instruction pf).words pf = (e'.instruction pf).words pf → e = e' := by
  refine ⟨?_, ?_, ?_, ?_⟩
  · intro m e
    rw [m.staysInside_emit pf (e := e.emission) rfl]
    exact Or.inl e.width_le_reserved
  · obtain ⟨_, refines⟩ := run_refines_unpatched pf version unpatched
    have written : ((Module.new pf version).run pf calls).entryPoints.written = _ :=
      refines.sections .entryPoints trivial
    rw [entryPointFrames_assemble pf version unpatched short, written, listing_entryPoints,
      List.flatMap_def, List.map_map]
    rfl
  · rw [entryPointFrames_assemble pf version unpatched short, List.map_map]
    apply List.map_congr_left
    intro e member
    obtain ⟨c, inside, same⟩ := List.mem_filterMap.mp member
    have called : e.call ∈ calls := asEntryPoint_eq_some_iff.mp same ▸ inside
    exact readEntryPoint_words pf (named e called)
  · intro e e' named named' same
    have first := readEntryPoint_words pf named
    rw [same, readEntryPoint_words pf named'] at first
    exact (Option.some.inj first).symm

theorem entry_points_decode_main : (entryPointFrames linuxX86
    (((Module.new linuxX86 0).run linuxX86 [.addEntryPoint 0 ⟨1⟩ [] [], .addCapability 1,
      .addEntryPoint 4 ⟨2⟩ [0x6D, 0x61, 0x69, 0x6E] [⟨3⟩, ⟨4⟩]]).assemble linuxX86)).map
      readEntryPoint =
    [some ⟨0, ⟨1⟩, [], []⟩, some ⟨4, ⟨2⟩, [0x6D, 0x61, 0x69, 0x6E], [⟨3⟩, ⟨4⟩]⟩] :=
  (entry_points_decode linuxX86 0 [.addEntryPoint 0 ⟨1⟩ [] [], .addCapability 1,
    .addEntryPoint 4 ⟨2⟩ [0x6D, 0x61, 0x69, 0x6E] [⟨3⟩, ⟨4⟩]] (by decide) (by
      intro e member
      obtain ⟨executionModel, entryPoint, name, interfaces⟩ := e
      simp only [EntryPoint.call, List.mem_cons, Call.addEntryPoint.injEq, reduceCtorEq,
        List.not_mem_nil, or_false, false_or] at member
      rcases member with ⟨rfl, rfl, rfl, rfl⟩ | ⟨rfl, rfl, rfl, rfl⟩
      · decide
      · decide) (by decide)).2.2.1

end Sirit
