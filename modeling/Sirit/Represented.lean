import Mathlib.Data.List.Induction
import Sirit.Deduplication

/- What the map of existing declarations says about the words of the declarations, in
   every state the class can be in, however other streams move the counter between its
   calls and whatever the buffer holds past its end. -/
namespace Sirit
open Framing Interning VectorCursor
variable (pf : Platform)

/-- Where a declaration has its result id: constants have a result type before it. -/
def Op.resultSlot : Op → Nat
  | .opConstantTrue | .opConstantFalse | .opConstant | .opConstantComposite
  | .opConstantSampler | .opConstantNull => 2
  | _ => 1

def normalized (slot : Nat) (words : List U32) : List U32 :=
  (words.modify 0 (· &&& 0xFFFF)).set slot 0

structure Corresponds (bound : U32) (entry : List U32 × U32) (i : Instruction) : Prop where
  key : normalized i.op.resultSlot (i.words pf) = entry.1
  id : (i.words pf)[i.op.resultSlot]? = some entry.2
  positive : 1 ≤ entry.2.toNat
  allocated : entry.2.toNat ≤ bound.toNat

/-- The words are those of the instructions `is`, and the map and `is` are in bijection. -/
structure Represents (bound : U32) (d : Declarations) (is : List Instruction) : Prop where
  words : d.stream.written = is.flatMap (Instruction.words pf)
  keys : (d.existingDeclarations.map Prod.fst).Nodup
  instructions : is.Nodup
  entry : ∀ entry ∈ d.existingDeclarations, ∃! i, i ∈ is ∧ Corresponds pf bound entry i
  instruction : ∀ i ∈ is, ∃! entry, entry ∈ d.existingDeclarations ∧
    Corresponds pf bound entry i

/-- The states between complete calls, with the value of the counter. -/
inductive Declarations.Reachable : Declarations → U32 → Prop where
  | new : Reachable Declarations.new 0
  | raise {d : Declarations} {bound bound' : U32} (reached : Reachable d bound)
      (raised : bound.toNat ≤ bound'.toNat) : Reachable d bound'
  | stale {d d' : Declarations} {bound : U32} (reached : Reachable d bound)
      (written : d'.stream.written = d.stream.written)
      (existing : d'.existingDeclarations = d.existingDeclarations) : Reachable d' bound
  | declare {d : Declarations} {bound : U32} (reached : Reachable d bound)
      (c : DeclarationCall) (typed : c.declaration.opId.Asserts)
      (few : bound.toNat < 2 ^ 32 - 1) :
      Reachable (d.declare pf c.declaration bound).2.1 (d.declare pf c.declaration bound).2.2

theorem DeclarationCall.resultSlot_eq (c : DeclarationCall)
    (typed : c.declaration.opId.Asserts) :
    (c.declaration.key pf).op.resultSlot =
      if (c.declaration.key pf).resultType ≠ 0 then 2 else 1 := by
  cases c with
  | type c => cases c <;> rfl
  | constant c => cases c <;> exact (if_pos typed).symm

theorem DeclKey.normalized_words {k : DeclKey}
    (slot : k.op.resultSlot = if k.resultType ≠ 0 then 2 else 1) (id : U32) :
    normalized k.op.resultSlot ((k.instruction id).words pf) = k.words pf ∧
      ((k.instruction id).words pf)[k.op.resultSlot]? = some id := by
  obtain ⟨stored, blank⟩ := k.blank_openWords pf id
  have cleared : ((k.instruction id).words pf).modify 0 (· &&& 0xFFFF) =
      (k.instruction id).openWords pf := by
    simp only [Instruction.words, Instruction.openWords, List.modify_zero_cons, makeWord0_and]
  refine ⟨?_, ?_⟩
  · rw [normalized, cleared, slot, blank]
  · rw [slot]
    by_cases none : k.resultType = 0
    · rw [if_neg (not_not_intro none)]
      simp [Instruction.words, Instruction.tail, DeclKey.instruction, none, typeWords]
    · rw [if_pos none]
      simp [Instruction.words, Instruction.tail, DeclKey.instruction, typeWords_some none]

section Correspondence
variable {pf} {bound bound' : U32} {d d' : Declarations} {is : List Instruction}

theorem Corresponds.entry_eq {entry entry' : List U32 × U32} {i : Instruction}
    (first : Corresponds pf bound entry i) (second : Corresponds pf bound' entry' i) :
    entry = entry' := by
  apply Prod.ext
  · exact first.key.symm.trans second.key
  · exact Option.some.inj (first.id.symm.trans second.id)

theorem Corresponds.raise {entry : List U32 × U32} {i : Instruction}
    (corresponds : Corresponds pf bound entry i) (raised : bound.toNat ≤ bound'.toNat) :
    Corresponds pf bound' entry i :=
  { corresponds with allocated := Nat.le_trans corresponds.allocated raised }

variable (represents : Represents pf bound d is)
include represents

theorem Represents.mem_of_corresponds {entry : List U32 × U32} {i : Instruction}
    (member : i ∈ is) (corresponds : Corresponds pf bound' entry i) :
    entry ∈ d.existingDeclarations ∧ Corresponds pf bound entry i := by
  obtain ⟨own, ⟨inside, matched⟩, _⟩ := represents.instruction i member
  rw [corresponds.entry_eq matched]
  exact ⟨inside, matched⟩

theorem Represents.stale (written : d'.stream.written = d.stream.written)
    (existing : d'.existingDeclarations = d.existingDeclarations) :
    Represents pf bound d' is where
  words := written.trans represents.words
  keys := existing ▸ represents.keys
  instructions := represents.instructions
  entry := existing ▸ represents.entry
  instruction := existing ▸ represents.instruction

theorem Represents.raise (raised : bound.toNat ≤ bound'.toNat) :
    Represents pf bound' d is where
  words := represents.words
  keys := represents.keys
  instructions := represents.instructions
  entry := by
    intro entry member
    obtain ⟨i, ⟨inside, corresponds⟩, only⟩ := represents.entry entry member
    refine ⟨i, ⟨inside, corresponds.raise raised⟩, ?_⟩
    rintro j ⟨inside', corresponds'⟩
    exact only j ⟨inside', (represents.mem_of_corresponds inside' corresponds').2⟩
  instruction := by
    intro i member
    obtain ⟨entry, ⟨inside, corresponds⟩, _⟩ := represents.instruction i member
    refine ⟨entry, ⟨inside, corresponds.raise raised⟩, ?_⟩
    rintro other ⟨_, corresponds'⟩
    exact corresponds'.entry_eq corresponds

/-- The undoing branch of `EndOp`. -/
theorem Represents.declare_known {e : Declaration} {entry : U32}
    (found : d.existingDeclarations.lookup ((e.key pf).words pf) = some entry) :
    Represents pf bound (d.declare pf e bound).2.1 is :=
  represents.stale (Declarations.declare_known_written bound found)
    (Declarations.declare_known_existing bound found)

theorem Represents.add {k : DeclKey} {id : U32}
    (slot : k.op.resultSlot = if k.resultType ≠ 0 then 2 else 1)
    (absent : d.existingDeclarations.lookup (k.words pf) = none)
    (fresh : bound.toNat < id.toNat)
    (written : d'.stream.written = d.stream.written ++ (k.instruction id).words pf)
    (existing : d'.existingDeclarations = d.existingDeclarations ++ [(k.words pf, id)]) :
    Represents pf id d' (is ++ [k.instruction id]) := by
  obtain ⟨key, stored⟩ := k.normalized_words pf slot id
  have new : Corresponds pf id (k.words pf, id) (k.instruction id) :=
    ⟨key, stored, Nat.lt_of_le_of_lt (Nat.zero_le _) fresh, Nat.le_refl _⟩
  have before := represents.raise (Nat.le_of_lt fresh)
  have unlisted : ∀ entry, entry.2 = id → entry ∉ d.existingDeclarations := by
    rintro entry rfl member
    obtain ⟨i, ⟨_, corresponds⟩, _⟩ := represents.entry entry member
    have := corresponds.allocated
    omega
  have outside : ∀ i ∈ is, ¬ Corresponds pf id (k.words pf, id) i := by
    intro i member corresponds
    exact unlisted _ rfl (represents.mem_of_corresponds member corresponds).1
  constructor
  case words =>
    rw [written, represents.words, List.flatMap_append, List.flatMap_singleton]
  case keys =>
    rw [existing]
    exact nodup_keys_add represents.keys absent id
  case instructions =>
    refine List.nodup_append.mpr ⟨represents.instructions, List.nodup_singleton _, ?_⟩
    rintro i member j single rfl
    rw [List.mem_singleton.mp single] at member
    exact outside _ member new
  case entry =>
    rw [existing]
    intro entry member
    rcases List.mem_append.mp member with old | single
    · obtain ⟨i, ⟨inside, corresponds⟩, only⟩ := before.entry entry old
      refine ⟨i, ⟨List.mem_append_left _ inside, corresponds⟩, ?_⟩
      rintro j ⟨inside', corresponds'⟩
      rcases List.mem_append.mp inside' with earlier | last
      · exact only j ⟨earlier, corresponds'⟩
      · rw [List.mem_singleton.mp last] at corresponds'
        rw [corresponds'.entry_eq new] at old
        exact absurd old (unlisted _ rfl)
    · rw [List.mem_singleton.mp single]
      refine ⟨k.instruction id, ⟨List.mem_append_right _ (List.mem_singleton_self _), new⟩, ?_⟩
      rintro j ⟨inside, corresponds⟩
      rcases List.mem_append.mp inside with earlier | last
      · exact absurd corresponds (outside j earlier)
      · exact List.mem_singleton.mp last
  case instruction =>
    rw [existing]
    intro i member
    rcases List.mem_append.mp member with earlier | last
    · obtain ⟨entry, ⟨inside, corresponds⟩, _⟩ := before.instruction i earlier
      refine ⟨entry, ⟨List.mem_append_left _ inside, corresponds⟩, ?_⟩
      rintro other ⟨_, corresponds'⟩
      exact corresponds'.entry_eq corresponds
    · rw [List.mem_singleton.mp last]
      refine ⟨(k.words pf, id), ⟨List.mem_append_right _ (List.mem_singleton_self _), new⟩, ?_⟩
      rintro other ⟨_, corresponds⟩
      exact corresponds.entry_eq new

/-- The inserting branch of `EndOp`. -/
theorem Represents.declare_new (c : DeclarationCall) (typed : c.declaration.opId.Asserts)
    (few : bound.toNat < 2 ^ 32 - 1)
    (absent : d.existingDeclarations.lookup ((c.declaration.key pf).words pf) = none) :
    Represents pf (bound + 1) (d.declare pf c.declaration bound).2.1
      (is ++ [(c.declaration.key pf).instruction (bound + 1)]) := by
  apply represents.add (c.resultSlot_eq pf typed) absent
  · rw [BitVec.toNat_add]
    change bound.toNat < (bound.toNat + 1) % 2 ^ 32
    omega
  · exact Declarations.declare_new_written bound absent
  · exact Declarations.declare_new_existing bound absent

end Correspondence

theorem Represents.new : Represents pf 0 Declarations.new [] where
  words := rfl
  keys := List.nodup_nil
  instructions := List.nodup_nil
  entry := fun _ member => absurd member List.not_mem_nil
  instruction := fun _ member => absurd member List.not_mem_nil

theorem Declarations.Reachable.represents {d : Declarations} {bound : U32}
    (reached : Declarations.Reachable pf d bound) : ∃ is, Represents pf bound d is := by
  induction reached with
  | new => exact ⟨[], Represents.new pf⟩
  | raise _ raised ih =>
    obtain ⟨is, represents⟩ := ih
    exact ⟨is, represents.raise raised⟩
  | stale _ written existing ih =>
    obtain ⟨is, represents⟩ := ih
    exact ⟨is, represents.stale written existing⟩
  | @declare d bound _ c typed few ih =>
    obtain ⟨is, represents⟩ := ih
    cases found : d.existingDeclarations.lookup ((c.declaration.key pf).words pf) with
    | some entry =>
      rw [(Declarations.declare_known_id bound found).2]
      exact ⟨is, represents.declare_known found⟩
    | none =>
      rw [(Declarations.declare_new_id bound found).2]
      exact ⟨_, represents.declare_new c typed few found⟩

theorem run_declarations_reachable (version : U32) (calls : List Call)
    (typed : ∀ d : DeclarationCall, d.call ∈ calls → d.declaration.opId.Asserts)
    (few : (listing pf version calls).ids < 2 ^ 32 - 1) :
    Declarations.Reachable pf ((Module.new pf version).run pf calls).declarations
      ((Module.new pf version).run pf calls).bound := by
  induction calls using List.reverseRecOn with
  | nil => exact Declarations.Reachable.new
  | append_singleton calls c ih =>
    have grown := listing_ids_append pf version calls [c]
    have before := ih (fun d member => typed d (by simp [member])) (by omega)
    obtain ⟨_, refines⟩ := run_refines pf (fun _ => False) version calls
      (fun _ _ _ none => none)
    obtain ⟨_, refines'⟩ := run_refines pf (fun _ => False) version (calls ++ [c])
      (fun _ _ _ none => none)
    have counter : ((Module.new pf version).run pf calls).bound.toNat =
        (listing pf version calls).ids := by
      rw [refines.bound, Listing.bound, BitVec.toNat_ofNat]
      omega
    have counter' : ((Module.new pf version).run pf (calls ++ [c])).bound.toNat =
        (listing pf version (calls ++ [c])).ids := by
      rw [refines'.bound, Listing.bound, BitVec.toNat_ofNat]
      omega
    by_cases declares : ∃ e, c.action = .declare e
    · obtain ⟨e, action⟩ := declares
      obtain ⟨d, rfl, rfl⟩ := Call.exists_declarationCall action
      rw [Module.run_snoc, Module.exec, d.action_call]
      exact before.declare d (typed d (by simp)) (by omega)
    · have same := Module.perform_declarations pf
        (fun e action => declares ⟨e, action⟩) ((Module.new pf version).run pf calls)
      rw [Module.run_snoc] at counter' ⊢
      rw [Module.exec] at counter' ⊢
      rw [same]
      exact before.raise (by omega)

/-- In every reachable state of the declarations the map and the instructions are in
    bijection, both branches of `EndOp` keep it, and every run of a module stays within
    the reachable states. -/
theorem declarations_represented :
    (∀ (d : Declarations) (bound : U32), Declarations.Reachable pf d bound →
      ∃ is, Represents pf bound d is ∧ ((∀ i ∈ is, i.width ≤ 65535) →
        split wordCount d.stream.written = (is.map (Instruction.words pf), []))) ∧
    (∀ (d : Declarations) (bound : U32) (is : List Instruction) (c : DeclarationCall),
      Represents pf bound d is → c.declaration.opId.Asserts → bound.toNat < 2 ^ 32 - 1 →
        match d.existingDeclarations.lookup ((c.declaration.key pf).words pf) with
        | some _ => Represents pf (d.declare pf c.declaration bound).2.2
            (d.declare pf c.declaration bound).2.1 is
        | none => Represents pf (d.declare pf c.declaration bound).2.2
            (d.declare pf c.declaration bound).2.1
            (is ++ [(c.declaration.key pf).instruction (bound + 1)])) ∧
    ∀ (version : U32) (calls : List Call),
      (∀ d : DeclarationCall, d.call ∈ calls → d.declaration.opId.Asserts) →
      (listing pf version calls).ids < 2 ^ 32 - 1 →
        Declarations.Reachable pf ((Module.new pf version).run pf calls).declarations
          ((Module.new pf version).run pf calls).bound := by
  refine ⟨?_, ?_, run_declarations_reachable pf⟩
  · intro d bound reached
    obtain ⟨is, represents⟩ := reached.represents
    refine ⟨is, represents, ?_⟩
    intro short
    have walk := split_instructions pf short []
    rw [List.append_nil, ← represents.words] at walk
    simpa using walk
  · intro d bound is c represents typed few
    cases found : d.existingDeclarations.lookup ((c.declaration.key pf).words pf) with
    | some entry =>
      rw [(Declarations.declare_known_id bound found).2]
      exact represents.declare_known found
    | none =>
      rw [(Declarations.declare_new_id bound found).2]
      exact represents.declare_new c typed few found

theorem declarations_represented_constant : ∃ is, Represents linuxX86 2
    ((Module.new linuxX86 0).run linuxX86 [.type (.typeUInt 32), .type (.typeUInt 32),
      .constant (.constant ⟨1⟩ (.u32 7))]).declarations is := by
  have reached := (declarations_represented linuxX86).2.2 0 [.type (.typeUInt 32),
    .type (.typeUInt 32), .constant (.constant ⟨1⟩ (.u32 7))] (by
      intro d member
      cases d <;> simp [DeclarationCall.call] at member
      · subst member
        decide
      · subst member
        decide) (by decide)
  obtain ⟨is, represents, _⟩ := (declarations_represented linuxX86).1 _ _ reached
  exact ⟨is, represents⟩

end Sirit
