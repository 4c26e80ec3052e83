import Mathlib.Data.List.Induction
import Sirit.Defining
import Sirit.SizedRuns
import Sirit.WordCount

/- Sections are append-only logs. Whatever a run does, each section keeps what it had and
   grows by whole instructions, and the ids these define ascend from the id counter on. -/
namespace Sirit
open Interning
variable (pf : Platform)

def Ascending (low high : Nat) (ids : List U32) : Prop :=
  ids.Pairwise (fun i j => i.toNat < j.toNat) ∧ ∀ i ∈ ids, low < i.toNat ∧ i.toNat ≤ high

theorem ascending_nil (low high : Nat) : Ascending low high [] :=
  ⟨List.Pairwise.nil, fun _ member => absurd member List.not_mem_nil⟩

theorem Ascending.append {low middle high : Nat} {xs ys : List U32}
    (first : Ascending low middle xs) (second : Ascending middle high ys) (lower : low ≤ middle)
    (upper : middle ≤ high) : Ascending low high (xs ++ ys) := by
  refine ⟨List.pairwise_append.mpr ⟨first.1, second.1, ?_⟩, ?_⟩
  · intro i early j late
    exact Nat.lt_of_le_of_lt (first.2 i early).2 (second.2 j late).1
  · intro i member
    rcases List.mem_append.mp member with early | late
    · exact ⟨(first.2 i early).1, Nat.le_trans (first.2 i early).2 upper⟩
    · exact ⟨Nat.lt_of_le_of_lt lower (second.2 i late).1, (second.2 i late).2⟩

def Listing.placed (l : Listing) : Place → List Instruction
  | .stream sec => l.instructions sec
  | .declarations => l.declarationInstructions

def Listing.Grows (place : Place) (l l' : Listing) : Prop :=
  ∃ is, l'.placed place = l.placed place ++ is ∧
    Ascending l.ids l'.ids (is.filterMap Instruction.result)

theorem Listing.grows_of_same {place : Place} {l l' : Listing}
    (same : l'.placed place = l.placed place) : l.Grows place l' :=
  ⟨[], by rw [same, List.append_nil], ascending_nil _ _⟩

theorem Listing.Grows.trans {place : Place} {l l' l'' : Listing} (first : l.Grows place l')
    (second : l'.Grows place l'') (lower : l.ids ≤ l'.ids) (upper : l'.ids ≤ l''.ids) :
    l.Grows place l'' := by
  obtain ⟨is, grown, ascending⟩ := first
  obtain ⟨is', grown', ascending'⟩ := second
  refine ⟨is ++ is', by rw [grown', grown, List.append_assoc], ?_⟩
  rw [List.filterMap_append]
  exact ascending.append ascending' lower upper

theorem Listing.grows_emit (l : Listing) (sec : Section) (e : Emission) (place : Place)
    (few : (l.emit pf sec e).2.ids < 2 ^ 32) : l.Grows place (l.emit pf sec e).2 := by
  cases place with
  | declarations => exact Listing.grows_of_same rfl
  | stream other =>
    refine ⟨_, l.instructions_emit pf other sec e, ?_⟩
    change l.ids + e.results < 2 ^ 32 at few
    split
    · cases head : e.head with
      | op o =>
        simp only [Emission.instruction, head, List.filterMap_cons, List.filterMap_nil]
        exact ascending_nil _ _
      | opId o =>
        have one : e.results = 1 := by simp only [Emission.results, head]
        have value := Listing.bound_succ (one ▸ few)
        have ids : (l.emit pf sec e).2.ids = l.ids + 1 := congrArg (l.ids + ·) one
        simp only [Emission.instruction, head, List.filterMap_cons, List.filterMap_nil]
        refine ⟨List.pairwise_singleton _ _, ?_⟩
        intro i member
        obtain rfl := List.mem_singleton.mp member
        omega
    · exact ascending_nil _ _

theorem Listing.grows_declare (l : Listing) (e : Declaration) (place : Place)
    (few : (l.declare pf e).2.ids < 2 ^ 32) : l.Grows place (l.declare pf e).2 := by
  cases place with
  | stream sec => exact Listing.grows_of_same rfl
  | declarations =>
    cases found : l.declarations.find (e.key pf) with
    | some id =>
      apply Listing.grows_of_same
      simp only [Listing.placed, Listing.declarationInstructions, Listing.declare,
        Table.intern_known found]
    | none =>
      have ids : (l.declare pf e).2.ids = l.ids + 1 := by
        simp only [Listing.declare, found, Option.isSome_none, Bool.false_eq_true, if_false]
      have value := Listing.bound_succ (ids ▸ few)
      refine ⟨[(e.key pf).instruction (l.bound + 1)], ?_, List.pairwise_singleton _ _, ?_⟩
      · simp only [Listing.placed, Listing.declarationInstructions, Listing.declare,
          Table.intern_new found, Table.add, List.map_append, List.map_cons, List.map_nil]
      · intro i member
        obtain rfl := List.mem_singleton.mp member
        omega

theorem Listing.grows_getGLSLstd450 (l : Listing) (place : Place)
    (few : (l.getGLSLstd450 pf).2.ids < 2 ^ 32) : l.Grows place (l.getGLSLstd450 pf).2 := by
  unfold Listing.getGLSLstd450 at few ⊢
  split at few
  · exact Listing.grows_of_same rfl
  · exact l.grows_emit pf .extInstImports glslStd450Import place few

theorem Listing.ids_getGLSLstd450 (l : Listing) : l.ids ≤ (l.getGLSLstd450 pf).2.ids := by
  unfold Listing.getGLSLstd450
  split
  · exact Nat.le_refl _
  · exact Nat.le_add_right _ _

theorem Listing.grows_step (l : Listing) (c : Call) (place : Place)
    (few : (l.step pf c).2.ids < 2 ^ 32) : l.Grows place (l.step pf c).2 := by
  unfold Listing.step at few ⊢
  cases action : c.action with
  | emit sec e returned =>
    rw [action] at few
    exact l.grows_emit pf sec e place few
  | declare e =>
    rw [action] at few
    exact l.grows_declare pf e place few
  | deferPhi resultType blocks =>
    rw [action] at few
    exact l.grows_emit pf .code _ place few
  | glsl inst =>
    rw [action] at few
    have later := Nat.le_add_right (l.getGLSLstd450 pf).2.ids
      (opExtInst inst.resultType (l.getGLSLstd450 pf).1 (pf.glslStd450 inst.opcode)
        inst.operands).results
    have imported := l.grows_getGLSLstd450 pf place (Nat.lt_of_le_of_lt later few)
    exact imported.trans ((l.getGLSLstd450 pf).2.grows_emit pf .code _ place few)
      (l.ids_getGLSLstd450 pf) later
  | addLabel label =>
    cases place with
    | declarations => exact Listing.grows_of_same rfl
    | stream sec =>
      by_cases code : sec = .code
      · subst code
        refine ⟨[labelInstruction label], ?_, ascending_nil _ _⟩
        simp only [Listing.perform, Listing.addLabel, Listing.placed, Function.update_self]
      · apply Listing.grows_of_same
        simp only [Listing.perform, Listing.addLabel, Listing.placed, Function.update_of_ne code]
  | _ => exact Listing.grows_of_same (by cases place <;> rfl)

theorem listing_grows (version : U32) (before after : List Call) (place : Place)
    (few : (listing pf version (before ++ after)).ids < 2 ^ 32) :
    (listing pf version before).Grows place (listing pf version (before ++ after)) := by
  induction after using List.reverseRecOn with
  | nil => exact Listing.grows_of_same (by rw [List.append_nil])
  | append_singleton after c ih =>
    rw [← List.append_assoc, listing_snoc] at few ⊢
    have last := (listing pf version (before ++ after)).ids_mono pf c
    have lower : (listing pf version before).ids ≤ (listing pf version (before ++ after)).ids := by
      rw [listing_append]
      exact Runs.monotone_run (f := Listing.ids) (fun l c => l.ids_mono pf c) after
    exact (ih (Nat.lt_of_le_of_lt last few)).trans (Listing.grows_step pf _ c place few) lower last

theorem Refines.emitted_eq {m : Module} {l : Listing}
    (refines : Refines pf (fun _ => True) m l) (place : Place) :
    m.emitted place = (l.placed place).flatMap (Instruction.words pf) := by
  cases place with
  | stream sec => exact refines.sections sec trivial
  | declarations => exact refines.declared

def SizedModule.emitted (m : SizedModule) : Place → List U32
  | .stream sec => (m.streams sec).written
  | .declarations => m.declarations.stream.written

theorem SizedModule.Follows.emitted_eq {s : SizedModule} {m : Module} (follows : s.Follows m)
    (inside : s.missed = 0) (place : Place) : s.emitted place = m.emitted place := by
  cases place with
  | stream sec => exact (follows.same inside sec).written
  | declarations => exact (follows.declared inside).written

/-- Between two points of a run without patches, every section and the declarations grow by
    whole instructions, and the ids these define ascend, above the counter at the first
    point and up to the counter at the second. If no store missed its vector, their words
    are kept and those of the new instructions are appended. -/
theorem sections_ascend (version : U32) (before after : List Call)
    (unpatched : ∀ c ∈ before ++ after, ¬ c.action.IsPatch)
    (few : (listing pf version (before ++ after)).ids < 2 ^ 32) (place : Place) :
    ∃ is : List Instruction,
      (listing pf version (before ++ after)).placed place =
        (listing pf version before).placed place ++ is ∧
      (((SizedModule.new pf version).run pf (before ++ after)).missed = 0 →
        ((SizedModule.new pf version).run pf before).emitted place =
          ((listing pf version before).placed place).flatMap (Instruction.words pf) ∧
        ((SizedModule.new pf version).run pf (before ++ after)).emitted place =
          ((SizedModule.new pf version).run pf before).emitted place ++
            is.flatMap (Instruction.words pf)) ∧
      (is.filterMap Instruction.result).Pairwise (fun i j => i.toNat < j.toNat) ∧
      ∀ i ∈ is.filterMap Instruction.result,
        ((SizedModule.new pf version).run pf before).bound.toNat < i.toNat ∧
          i.toNat ≤ ((SizedModule.new pf version).run pf (before ++ after)).bound.toNat := by
  have earlier : ∀ c ∈ before, ¬ c.action.IsPatch :=
    fun c member => unpatched c (List.mem_append_left after member)
  obtain ⟨_, first⟩ := run_refines_unpatched pf version earlier
  obtain ⟨_, second⟩ := run_refines_unpatched pf version unpatched
  obtain ⟨_, follows⟩ := sized_follows pf version before
  obtain ⟨_, follows'⟩ := sized_follows pf version (before ++ after)
  have lower : (listing pf version before).ids ≤ (listing pf version (before ++ after)).ids := by
    rw [listing_append]
    exact Runs.monotone_run (f := Listing.ids) (fun l c => l.ids_mono pf c) after
  obtain ⟨is, grown, ascending⟩ := listing_grows pf version before after place few
  refine ⟨is, grown, ?_, ?_⟩
  · intro inside
    have words := follows.emitted_eq (missed_of_append pf version before after inside) place
    rw [first.emitted_eq] at words
    refine ⟨words, ?_⟩
    rw [follows'.emitted_eq inside, second.emitted_eq, grown, List.flatMap_append, words]
  · rw [follows.bound, follows'.bound, first.bound, second.bound, Listing.bound_toNat few,
      Listing.bound_toNat (Nat.lt_of_le_of_lt lower few)]
    exact ascending

theorem sections_ascend_declarations : ∃ is : List Instruction,
    ((SizedModule.new linuxX86 0).run linuxX86 ([.type .typeVoid] ++ [.opLabel,
        .type .typeVoid, .type .typeBool])).emitted .declarations =
      ((SizedModule.new linuxX86 0).run linuxX86 [.type .typeVoid]).emitted .declarations ++
        is.flatMap (Instruction.words linuxX86) ∧
      ∀ i ∈ is.filterMap Instruction.result, 1 < i.toNat ∧ i.toNat ≤ 3 := by
  obtain ⟨is, _, words, _, within⟩ := sections_ascend linuxX86 0 [.type .typeVoid]
    [.opLabel, .type .typeVoid, .type .typeBool] (by decide) (by decide) .declarations
  exact ⟨is, (words (by decide)).2, within⟩

end Sirit
