import Mathlib.Data.List.Perm.Basic
import Sirit.Assembled

/- The ids of a run. The result ids of the listed instructions together with the labels
   handed out are the numbers the counter went through, each once. -/
namespace Sirit
open Framing Interning
variable (pf : Platform)

def Listing.emitted (l : Listing) : List Instruction :=
  l.instructions .extInstImports ++ l.instructions .entryPoints ++
  l.instructions .executionModes ++ l.instructions .debug ++ l.instructions .annotations ++
  l.declarationInstructions ++ l.instructions .globalVariables ++ l.instructions .code

def Listing.results (l : Listing) : List U32 := l.emitted.filterMap Instruction.result

theorem Listing.results_all (l : Listing) :
    (l.all pf).filterMap Instruction.result = l.results := by
  have capabilities : ∀ cs : List U32,
      (cs.map capabilityInstruction).filterMap Instruction.result = [] := by
    intro cs
    rw [List.filterMap_map, List.filterMap_eq_nil_iff]
    exact fun _ _ => rfl
  have extensions : ∀ names : List (List U8),
      (names.map (extensionInstruction pf)).filterMap Instruction.result = [] := by
    intro names
    rw [List.filterMap_map, List.filterMap_eq_nil_iff]
    exact fun _ _ => rfl
  simp only [Listing.all, Listing.preamble, Listing.globals, Listing.results, Listing.emitted,
    List.filterMap_append, capabilities, extensions, List.nil_append, List.append_assoc]
  rfl

theorem Listing.emitted_subset_all (l : Listing) {i : Instruction} (member : i ∈ l.emitted) :
    i ∈ l.all pf := by
  simp only [Listing.emitted, Listing.all, Listing.preamble, Listing.globals,
    List.mem_append] at member ⊢
  tauto

def idsFrom (first count : Nat) : List U32 := (List.range' first count).map (BitVec.ofNat 32)

theorem Listing.results_emit (sec : Section) (e : Emission) (l : Listing) :
    (l.emit pf sec e).2.results.Perm (l.results ++ idsFrom (l.ids + 1) e.results) := by
  have fresh : (e.instruction pf l.bound).result.toList = idsFrom (l.ids + 1) e.results := by
    cases h : e.head with
    | op op => simp only [Emission.instruction, Emission.results, h]; rfl
    | opId op =>
      have next : idsFrom (l.ids + 1) 1 = [l.bound + 1] :=
        congrArg (fun id => [id]) (ofNat_succ l.ids)
      simp only [Emission.instruction, Emission.results, h, next, Option.toList_some]
  rw [← fresh, List.perm_iff_count]
  intro a
  have one : List.count a ([e.instruction pf l.bound].filterMap Instruction.result) =
      List.count a (e.instruction pf l.bound).result.toList := by
    cases h : (e.instruction pf l.bound).result <;> simp [h]
  cases sec <;>
    simp only [Listing.results, Listing.emitted, Listing.emit, Listing.declarationInstructions,
      List.filterMap_append, List.count_append, Function.update_apply, reduceCtorEq, if_false,
      if_true, one] <;>
    omega

/-- Result slots and labels hold the ids allocated so far, each once. -/
def Listing.Dense (l : Listing) : Prop := (l.results ++ l.labels).Perm (idsFrom 1 l.ids)

theorem idsFrom_append (count more : Nat) :
    idsFrom 1 (count + more) = idsFrom 1 count ++ idsFrom (count + 1) more := by
  rw [idsFrom, ← List.range'_append_1, List.map_append, Nat.add_comm 1 count]
  rfl

theorem idsFrom_one (l : Listing) : idsFrom (l.ids + 1) 1 = [l.bound + 1] :=
  congrArg (fun id => [id]) (ofNat_succ l.ids)

theorem Listing.dense_of_allocated {l l' : Listing} (more : Nat) (dense : l.Dense)
    (ids : l'.ids = l.ids + more)
    (allocated : ∀ a, List.count a (l'.results ++ l'.labels) =
      List.count a (l.results ++ l.labels ++ idsFrom (l.ids + 1) more)) : l'.Dense := by
  rw [Listing.Dense, ids, idsFrom_append]
  exact (List.perm_iff_count.mpr allocated).trans (dense.append_right _)

section Step
variable {l : Listing} (dense : l.Dense)
include dense

theorem Listing.dense_emit (sec : Section) (e : Emission) : (l.emit pf sec e).2.Dense := by
  apply Listing.dense_of_allocated e.results dense rfl
  intro a
  have results := (l.results_emit pf sec e).count_eq a
  simp only [List.count_append] at results ⊢
  rw [results]
  exact Nat.add_right_comm _ _ _

theorem Listing.dense_declare (e : Declaration) : (l.declare pf e).2.Dense := by
  cases found : l.declarations.find (e.key pf) with
  | some i =>
    have same : (l.declare pf e).2 = l := by
      simp only [Listing.declare, Table.intern_known found, found, Option.isSome_some, if_true]
    rwa [same]
  | none =>
    apply Listing.dense_of_allocated 1 dense
    · simp only [Listing.declare, found, Option.isSome_none, Bool.false_eq_true, if_false]
    · intro a
      rw [idsFrom_one]
      simp only [Listing.declare, Table.intern_new found, Listing.results, Listing.emitted,
        Listing.declarationInstructions, Table.add, List.map_append, List.map_cons, List.map_nil,
        List.filterMap_append, List.filterMap_cons, List.filterMap_nil, DeclKey.instruction,
        List.count_append]
      omega

theorem Listing.dense_opGlsl (inst : GlslInst) : (l.opGlsl pf inst).2.Dense := by
  have imported : (l.getGLSLstd450 pf).2.Dense := by
    unfold Listing.getGLSLstd450
    split
    · exact dense
    · exact Listing.dense_emit pf dense .extInstImports glslStd450Import
  exact Listing.dense_emit pf imported .code _

theorem Listing.dense_step (c : Call) : (l.step pf c).2.Dense := by
  unfold Listing.step
  cases c.action with
  | emit sec e returned => exact Listing.dense_emit pf dense sec e
  | declare e => exact Listing.dense_declare pf dense e
  | deferPhi resultType blocks => exact Listing.dense_emit pf dense .code _
  | glsl inst => exact Listing.dense_opGlsl pf dense inst
  | addLabel label =>
    have results : (l.addLabel label).results = l.results := by
      simp only [Listing.results, Listing.emitted, Listing.addLabel,
        Listing.declarationInstructions, Function.update_self, Function.update_apply,
        reduceCtorEq, if_false, List.filterMap_append, List.filterMap_cons, List.filterMap_nil,
        labelInstruction, List.append_nil]
    rw [Listing.perform, Listing.Dense, results]
    exact dense
  | opLabel =>
    apply Listing.dense_of_allocated 1 dense rfl
    intro a
    rw [idsFrom_one, List.append_assoc]
    rfl
  | addExtension _ => exact dense
  | addCapability _ => exact dense
  | setMemoryModel _ _ => exact dense
  | patch _ => exact dense

end Step

theorem listing_dense (version : U32) (calls : List Call) : (listing pf version calls).Dense := by
  apply Runs.invariant_run (I := Listing.Dense)
  · exact fun l c _ dense => Listing.dense_step pf dense c
  · exact List.Perm.refl _

theorem Listing.bound_toNat {l : Listing} (few : l.ids < 2 ^ 32) : l.bound.toNat = l.ids := by
  rw [Listing.bound, BitVec.toNat_ofNat, Nat.mod_eq_of_lt few]

theorem Listing.bound_succ {l : Listing} (few : l.ids + 1 < 2 ^ 32) :
    (l.bound + 1).toNat = l.ids + 1 := by
  rw [Listing.bound, ← ofNat_succ, BitVec.toNat_ofNat, Nat.mod_eq_of_lt few]

theorem Listing.nodup_ids {l : Listing} (dense : l.Dense) (few : l.ids < 2 ^ 32) :
    (l.results ++ l.labels).Nodup ∧
      ∀ id ∈ l.results ++ l.labels, 1 ≤ id.toNat ∧ id.toNat ≤ l.ids := by
  have value : ∀ n ∈ List.range' 1 l.ids, (BitVec.ofNat 32 n).toNat = n := by
    intro n member
    have := List.mem_range'_1.mp member
    rw [BitVec.toNat_ofNat, Nat.mod_eq_of_lt (by omega)]
  refine ⟨?_, ?_⟩
  · rw [dense.nodup_iff, idsFrom]
    apply List.Nodup.map_on
    · intro n hn k hk same
      rw [← value n hn, ← value k hk, same]
    · exact List.nodup_range'
  · intro id member
    obtain ⟨n, inside, rfl⟩ := List.mem_map.mp (dense.mem_iff.mp member)
    rw [value n inside]
    have := List.mem_range'_1.mp inside
    omega

theorem Listing.ids_mono (l : Listing) (c : Call) : l.ids ≤ (l.step pf c).2.ids := by
  unfold Listing.step
  cases c.action with
  | emit sec e returned => exact Nat.le_add_right _ _
  | declare e =>
    simp only [Listing.perform, Listing.declare]
    split
    · exact Nat.le_refl _
    · exact Nat.le_succ _
  | deferPhi resultType blocks => exact Nat.le_add_right _ _
  | glsl inst =>
    have imported : l.ids ≤ (l.getGLSLstd450 pf).2.ids := by
      unfold Listing.getGLSLstd450
      split
      · exact Nat.le_refl _
      · exact Nat.le_add_right _ _
    exact Nat.le_trans imported (Nat.le_add_right _ _)
  | opLabel => exact Nat.le_succ _
  | _ => exact Nat.le_refl _

end Sirit
