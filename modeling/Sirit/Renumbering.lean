import Sirit.Contents
import Sirit.Disassembly

/- Two programs that make the same calls, each section's in the same order, assemble to the
   same module up to the numbers of the ids: what is listed is settled by the names. -/
namespace Sirit
open Interning Projections
variable (pf : Platform) {ν : Type}

theorem Action.capability_rename (π : U32 → U32) (a : Action) :
    (a.rename π).capability = a.capability := by
  cases a <;> rfl

theorem Action.extension_rename (π : U32 → U32) (a : Action) :
    (a.rename π).extension = a.extension := by
  cases a <;> rfl

theorem Action.model_rename (π : U32 → U32) (a : Action) : (a.rename π).model = a.model := by
  cases a <;> rfl

theorem Action.entry_rename {π : U32 → U32} (set id : Id) (sec : Section) (a : Action) :
    (a.rename π).entry pf (set.rename π) (id.rename π) sec =
      (a.entry pf set id sec).map (Entry.rename π) := by
  cases a with
  | emit other e returned =>
    simp only [Action.rename, Action.entry]
    split <;> rfl
  | deferPhi resultType blocks =>
    have phi : Sirit.deferredOpPhi (resultType.rename π) (blocks.map (Id.rename π)) =
        (Sirit.deferredOpPhi resultType blocks).rename π := by
      simp only [Sirit.deferredOpPhi, Emission.rename, List.length_map, List.flatMap_map,
        List.map_flatMap]
      rfl
    simp only [Action.rename, Action.entry, phi]
    split <;> rfl
  | glsl inst =>
    have extInst : opExtInst (inst.resultType.rename π) (set.rename π)
        (pf.glslStd450 inst.opcode) (inst.operands.map (Id.rename π)) =
        (opExtInst inst.resultType set (pf.glslStd450 inst.opcode) inst.operands).rename π := by
      simp only [Sirit.opExtInst, Emission.rename, List.length_map, List.map_append, span,
        List.map_map]
      rfl
    simp only [Action.rename, Action.entry, GlslInst.rename, extInst]
    split <;> rfl
  | addLabel label =>
    simp only [Action.rename, Action.entry]
    split <;> rfl
  | _ => rfl

section Rename
variable {ρ ρ' : ν → Id} {π : U32 → U32} (renamed : ∀ x, ρ' x = (ρ x).rename π)
include renamed

theorem NamedCall.call_rename (n : NamedCall ν) :
    (n.call ρ').action = (n.call ρ).action.rename π := n.action_rename fun x _ => renamed x

theorem entriesOf_rename (set : Id) (steps : List (ν × NamedCall ν)) (sec : Section) :
    entriesOf pf ρ' (set.rename π) steps sec =
      (entriesOf pf ρ set steps sec).map (Entry.rename π) := by
  rw [entriesOf, entriesOf, List.map_filterMap]
  apply List.filterMap_congr
  intro step _
  rw [step.2.call_rename renamed, renamed, Action.entry_rename]

theorem declarationsOf_rename (steps : List (ν × NamedCall ν)) :
    declarationsOf ρ' steps =
      (declarationsOf ρ steps).map fun d => (d.1.rename π, d.2.rename π) := by
  rw [declarationsOf, declarationsOf, List.map_filterMap]
  apply List.filterMap_congr
  intro step _
  rw [step.2.call_rename renamed, renamed]
  cases (step.2.call ρ).action <;> rfl

theorem key_rename_iff (injective : Function.Injective π) {steps : List (ν × NamedCall ν)}
    (given : ∀ step ∈ steps, ∀ x ∈ step.2.names, (ρ x).value ≠ 0)
    (given' : ∀ step ∈ steps, ∀ x ∈ step.2.names, (ρ' x).value ≠ 0)
    {d e : Declaration × Id} (first : d ∈ declarationsOf ρ steps)
    (second : e ∈ declarationsOf ρ steps) :
    d.1.key pf = e.1.key pf ↔ (d.1.rename π).key pf = (e.1.rename π).key pf := by
  have made : ∀ d ∈ declarationsOf ρ steps, ∃ step ∈ steps,
      (step.2.call ρ).action = .declare d.1 ∧
        (step.2.call ρ').action = .declare (d.1.rename π) := by
    intro d member
    obtain ⟨step, inside, declared⟩ := List.mem_filterMap.mp member
    have action : (step.2.call ρ).action = .declare d.1 := by
      cases action : (step.2.call ρ).action with
      | declare e =>
        rw [action] at declared
        rw [← Option.some.inj declared]
      | _ =>
        rw [action] at declared
        cases declared
    refine ⟨step, inside, action, ?_⟩
    rw [step.2.call_rename renamed, action]
    rfl
  obtain ⟨step, inside, action, action'⟩ := made d first
  obtain ⟨other, inside', other_action, other_action'⟩ := made e second
  rw [step.2.key_eq_iff pf other.2 action other_action (given step inside) (given other inside'),
    step.2.key_eq_iff pf other.2 action' other_action' (given' step inside)
      (given' other inside')]
  apply and_congr_right
  intro _
  have values : ∀ names : List ν, (names.map fun x => (ρ' x).value) =
      (names.map fun x => (ρ x).value).map π := by
    intro names
    rw [List.map_map]
    apply List.map_congr_left
    intro x _
    rw [renamed]
    rfl
  rw [values, values, (List.map_injective_iff.mpr injective).eq_iff]

theorem contentsOf_rename (injective : Function.Injective π) (set : Id)
    {steps : List (ν × NamedCall ν)}
    (given : ∀ step ∈ steps, ∀ x ∈ step.2.names, (ρ x).value ≠ 0)
    (given' : ∀ step ∈ steps, ∀ x ∈ step.2.names, (ρ' x).value ≠ 0) :
    contentsOf pf ρ' (set.rename π) steps = (contentsOf pf ρ set steps).rename π := by
  have declared : firsts (fun d => some (d.1.key pf)) [] (declarationsOf ρ' steps) =
      (firsts (fun d => some (d.1.key pf)) [] (declarationsOf ρ steps)).map
        fun d => (d.1.rename π, d.2.rename π) := by
    rw [declarationsOf_rename renamed]
    apply firsts_map
    · intro d first e second
      exact key_rename_iff pf renamed injective given given' first second
    · simp
  simp only [contentsOf, Contents.rename, declared, List.map_map, NamedCall.call_rename renamed,
    Action.capability_rename, Action.extension_rename, Action.model_rename]
  congr 1
  funext sec
  split
  · split <;> rfl
  · exact entriesOf_rename pf renamed set steps sec

end Rename

def stepTouches (step : ν × NamedCall ν) (r : Resource) : Bool := step.2.touches r

theorem Action.capability_eq_none {a : Action} (apart : a.touches .capabilities = false) :
    a.capability = none := by
  cases a with
  | addCapability capability => cases apart
  | _ => rfl

theorem Action.extension_eq_none {a : Action} (apart : a.touches .extensions = false) :
    a.extension = none := by
  cases a with
  | addExtension extensionName => cases apart
  | _ => rfl

theorem Action.model_eq_none {a : Action} (apart : a.touches .memoryModel = false) :
    a.model = none := by
  cases a with
  | setMemoryModel addressingModel memoryModel => cases apart
  | _ => rfl

theorem Action.declared_eq_none {a : Action} {id : Id}
    (apart : a.touches .declarations = false) : a.declared id = none := by
  cases a with
  | declare e => cases apart
  | _ => rfl

theorem Action.entry_eq_none {a : Action} {set id : Id} {sec : Section}
    (apart : a.touches (.stream sec) = false) : a.entry pf set id sec = none := by
  cases a with
  | emit other e returned =>
    have differ : sec ≠ other := by simpa [Action.touches] using apart
    exact if_neg differ
  | deferPhi _ _ | addLabel _ =>
    have differ : sec ≠ .code := by simpa [Action.touches] using apart
    exact if_neg differ
  | glsl inst =>
    have differ : sec ≠ .extInstImports ∧ sec ≠ .code := by simpa [Action.touches] using apart
    exact if_neg differ.2
  | _ => rfl

section Reorder
variable {steps steps' : List (ν × NamedCall ν)}
  (ordered : ∀ r, r ≠ .counter →
    projection stepTouches r steps = projection stepTouches r steps')
include ordered

theorem contentsOf_eq_of_projections (perm : steps'.Perm steps) (ρ : ν → Id) (set : Id) :
    contentsOf pf ρ set steps' = contentsOf pf ρ set steps := by
  have apart : ∀ {r : Resource} {step : ν × NamedCall ν}, stepTouches step r = false →
      (step.2.call ρ).action.touches r = false := by
    intro r step unused
    rw [← step.2.touches_eq ρ]
    exact unused
  have capabilities := filterMap_eq_of_projection (ordered .capabilities (by decide))
    (g := fun step => (step.2.call ρ).action.capability)
    fun step unused => Action.capability_eq_none (apart unused)
  have extensions := filterMap_eq_of_projection (ordered .extensions (by decide))
    (g := fun step => (step.2.call ρ).action.extension)
    fun step unused => Action.extension_eq_none (apart unused)
  have model := foldl_eq_of_projection (ordered .memoryModel (by decide))
    (f := fun last step => (step.2.call ρ).action.model.getD last) (by
      intro step unused last
      rw [Action.model_eq_none (apart unused)]
      rfl) (pf.logical, pf.glsl450)
  have declarations : declarationsOf ρ steps = declarationsOf ρ steps' :=
    filterMap_eq_of_projection (ordered .declarations (by decide))
      fun step unused => Action.declared_eq_none (apart unused)
  simp only [contentsOf, capabilities, extensions, model, declarations, perm.any_eq]
  congr 1
  funext sec
  split
  · rfl
  · refine (filterMap_eq_of_projection (ordered (.stream sec) (by simp)) ?_).symm
    intro step unused
    exact Action.entry_eq_none pf (apart unused)

end Reorder

def Action.isLabel : Action → Bool
  | .opLabel => true
  | _ => false

theorem Listing.labels_length (l : Listing) (c : Call) :
    (l.step pf c).2.labels.length = l.labels.length + if c.action.isLabel = true then 1 else 0 := by
  unfold Listing.step
  cases c.action with
  | opLabel =>
    simp only [Listing.perform, Listing.opLabel, List.length_append, List.length_singleton]
    rfl
  | glsl inst => exact congrArg List.length (l.getGLSLstd450_labels pf)
  | _ => rfl

theorem run_labels_length (l : Listing) (calls : List Call) :
    (Runs.run (Listing.step pf) l calls).labels.length =
      l.labels.length + calls.countP fun c => c.action.isLabel := by
  induction calls generalizing l with
  | nil => rfl
  | cons c calls ih =>
    rw [Runs.run_cons, ih, Listing.labels_length, List.countP_cons]
    omega

theorem listing_ids_eq {version : U32} {ρ : ν → Id} {steps : List (ν × NamedCall ν)}
    {c : Contents} (holds : (listing pf version (callsOf ρ steps)).Holds pf c) :
    (listing pf version (callsOf ρ steps)).ids =
      ((c.entries pf).countP fun e => (e.instruction pf).result.isSome) +
        steps.countP fun step => step.2.outline.isLabel := by
  have dense := (listing_dense pf version (callsOf ρ steps)).length_eq
  have labels := run_labels_length pf (Listing.new pf version) (callsOf ρ steps)
  have same : (callsOf ρ steps).countP (fun c => c.action.isLabel) =
      steps.countP fun step => step.2.outline.isLabel := by
    rw [callsOf, List.countP_map]
    apply List.countP_congr
    intro step _
    rw [step.2.outline_eq ρ]
    cases h : (step.2.call ρ).action <;> simp [h, Action.rename, Action.isLabel]
  rw [← (listing pf version (callsOf ρ steps)).results_all pf, holds.all, List.filterMap_map,
    List.length_append, List.length_filterMap_eq_countP, idsFrom, List.length_map,
    List.length_range'] at dense
  rw [same] at labels
  rw [← dense]
  exact congrArg _ (labels.trans (Nat.zero_add _))

theorem Entry.result_rename (π : U32 → U32) (e : Entry) :
    ((e.rename π).instruction pf).result.isSome = (e.instruction pf).result.isSome := by
  obtain ⟨⟨reserved, head, operands⟩, id⟩ := e
  cases head <;> rfl

theorem Listing.Holds.assemble {version : U32} {ρ : ν → Id} {steps : List (ν × NamedCall ν)}
    {c : Contents} (holds : (listing pf version (callsOf ρ steps)).Holds pf c) :
    ((Module.new pf version).run pf (callsOf ρ steps)).assemble pf =
      [pf.magicNumber, version, generatorMagicNumber,
        ((Module.new pf version).run pf (callsOf ρ steps)).bound + 1, 0] ++
      (c.entries pf).flatMap fun e => (e.instruction pf).words pf := by
  obtain ⟨_, refines⟩ := run_refines_unpatched pf version (callsOf_unpatched ρ steps)
  have code : ((Module.new pf version).run pf (callsOf ρ steps)).code.written = _ :=
    refines.sections .code trivial
  have listed : (c.entries pf).flatMap (fun e => (e.instruction pf).words pf) =
      ((listing pf version (callsOf ρ steps)).all pf).flatMap (Instruction.words pf) := by
    rw [holds.all, List.flatMap_map]
  rw [refines.assemble_eq fun _ _ => trivial, code, listing_version, ← refines.bound, listed,
    List.append_assoc, ← List.flatMap_append]
  rfl

section Programs
variable {version : U32} {p p' : Program ν} {ρ ρ' : ν → Id}
  (resolved : Resolved pf version p.steps ρ) (resolved' : Resolved pf version p'.steps ρ')
  (few : (listing pf version (callsOf ρ p.steps)).ids < 2 ^ 32)
  (few' : (listing pf version (callsOf ρ' p'.steps)).ids < 2 ^ 32)
  (perm : p'.steps.Perm p.steps)
include resolved resolved' few few' perm

/-- One permutation of the ids takes what every name stands for in one run to what it stands
    for in the other. -/
theorem exists_renumbering : ∃ π : Equiv.Perm U32, ∀ t : Token ν,
    π (t.value ρ (importOf pf version ρ p.steps)) =
      t.value ρ' (importOf pf version ρ' p'.steps) := by
  apply Numbering.exists_perm_of_same_kernel
  intro t u
  rw [value_eq_iff pf resolved few, value_eq_iff pf resolved' few']
  exact ⟨Shares.subset pf fun _ => perm.mem_iff.symm, Shares.subset pf fun _ => perm.mem_iff⟩

theorem holds_renamed (ordered : ∀ r, r ≠ .counter →
      projection stepTouches r p.steps = projection stepTouches r p'.steps)
    {π : Equiv.Perm U32} (moves : ∀ t : Token ν, π (t.value ρ (importOf pf version ρ p.steps)) =
      t.value ρ' (importOf pf version ρ' p'.steps)) :
    (listing pf version (callsOf ρ' p'.steps)).Holds pf
      ((contentsOf pf ρ (importOf pf version ρ p.steps) p.steps).rename π) := by
  have renamed : ∀ x, ρ' x = (ρ x).rename π := fun x => congrArg Id.mk (moves (.name x)).symm
  have imported : importOf pf version ρ' p'.steps =
      (importOf pf version ρ p.steps).rename π := congrArg Id.mk (moves .glslImport).symm
  have given : ∀ step ∈ p.steps, ∀ x ∈ step.2.names, (ρ x).value ≠ 0 :=
    fun _ member => names_nonzero pf resolved few member
  have given' : ∀ step ∈ p.steps, ∀ x ∈ step.2.names, (ρ' x).value ≠ 0 :=
    fun _ member => names_nonzero pf resolved' few' (perm.mem_iff.mpr member)
  have listed := listing_holds pf resolved'
  rw [contentsOf_eq_of_projections pf ordered perm, imported,
    contentsOf_rename pf renamed π.injective _ given given'] at listed
  exact listed

end Programs

theorem ids_rename (π : U32 → U32) {version : U32} {ρ ρ' : ν → Id}
    {steps steps' : List (ν × NamedCall ν)} {c : Contents} (zero : π 0 = 0)
    (perm : steps'.Perm steps) (holds : (listing pf version (callsOf ρ steps)).Holds pf c)
    (holds' : (listing pf version (callsOf ρ' steps')).Holds pf (c.rename π)) :
    (listing pf version (callsOf ρ steps)).ids = (listing pf version (callsOf ρ' steps')).ids := by
  have results : ((fun e : Entry => (e.instruction pf).result.isSome) ∘ Entry.rename π) =
      fun e => (e.instruction pf).result.isSome := funext (Entry.result_rename pf π)
  rw [listing_ids_eq pf holds, listing_ids_eq pf holds', Contents.entries_rename pf zero,
    List.countP_map, results, perm.countP_eq]

section Renumber
variable [DecidableEq ν] (version : U32)

def Program.entries (p : Program ν) : List Entry :=
  (contentsOf pf (p.ids pf version) (importOf pf version (p.ids pf version) p.steps)
    p.steps).entries pf

/-- Two programs that make the same calls, the calls of each section in one order, assemble to
    one module but for a permutation of its ids. The same permutation takes what each name
    stands for in the one run to what it stands for in the other. -/
theorem programs_renumber (p p' : Program ν) (perm : p'.steps.Perm p.steps)
    (ordered : ∀ r, r ≠ .counter →
      projection stepTouches r p.steps = projection stepTouches r p'.steps)
    (few : (listing pf version (callsOf (p.ids pf version) p.steps)).ids < 2 ^ 32)
    (few' : (listing pf version (callsOf (p'.ids pf version) p'.steps)).ids < 2 ^ 32) :
    ∃ π : Equiv.Perm U32, π 0 = 0 ∧
      (∀ x, p'.ids pf version x = (p.ids pf version x).rename π) ∧
      (p'.run pf version).1.bound = (p.run pf version).1.bound ∧
      (p.run pf version).1.assemble pf =
        [pf.magicNumber, version, generatorMagicNumber, (p.run pf version).1.bound + 1, 0] ++
          (p.entries pf version).flatMap (fun e => (e.instruction pf).words pf) ∧
      (p'.run pf version).1.assemble pf =
        [pf.magicNumber, version, generatorMagicNumber, (p.run pf version).1.bound + 1, 0] ++
          (p.entries pf version).flatMap fun e => ((e.rename π).instruction pf).words pf := by
  have resolved := p.resolved pf version
  have resolved' := p'.resolved pf version
  obtain ⟨π, moves⟩ := exists_renumbering pf resolved resolved' few few' perm
  have zero : π 0 = 0 := moves .nothing
  have holds := listing_holds pf resolved
  have holds' := holds_renamed pf resolved resolved' few few' perm ordered moves
  have ids := ids_rename pf π zero perm holds holds'
  obtain ⟨_, refines⟩ :=
    run_refines_unpatched pf version (callsOf_unpatched (p.ids pf version) p.steps)
  obtain ⟨_, refines'⟩ :=
    run_refines_unpatched pf version (callsOf_unpatched (p'.ids pf version) p'.steps)
  have bound : (p'.run pf version).1.bound = (p.run pf version).1.bound := by
    rw [p.run_module, p'.run_module, refines.bound, refines'.bound]
    exact congrArg (BitVec.ofNat 32) ids.symm
  have words := holds.assemble
  have words' := holds'.assemble
  rw [← p.run_module] at words
  rw [← p'.run_module, bound, Contents.entries_rename pf zero, List.flatMap_map] at words'
  exact ⟨π, zero, fun x => congrArg Id.mk (moves (.name x)).symm, bound, words, words'⟩

def typesThenLabel : Program Nat := .check
  [(0, ⟨[], fun _ => .type (.typeFloat 32), fun _ => rfl, fun _ _ => rfl, fun _ => id⟩),
    (1, ⟨[0], fun ρ => .type (.typeVector (ρ 0) 4), fun _ => rfl, fun _ _ => rfl, fun _ => id⟩),
    (2, ⟨[], fun _ => .opLabel, fun _ => rfl, fun _ _ => rfl, fun _ => id⟩),
    (3, ⟨[2], fun ρ => .addLabel (ρ 2), fun _ => rfl, fun _ _ => rfl, fun _ => id⟩)]
  (by decide) (by decide)

def labelThenTypes : Program Nat :=
  .check (typesThenLabel.steps.drop 2 ++ typesThenLabel.steps.take 2) (by decide) (by decide)

theorem programs_renumber_label : ∃ π : Equiv.Perm U32, π 1 = 2 ∧ π 2 = 3 ∧ π 3 = 1 ∧
    (labelThenTypes.run linuxX86 0).1.assemble linuxX86 = [119734787, 0, 0, 4, 0] ++
      (typesThenLabel.entries linuxX86 0).flatMap fun e =>
        ((e.rename π).instruction linuxX86).words linuxX86 := by
  obtain ⟨π, _, moved, _, _, words'⟩ := programs_renumber linuxX86 0 typesThenLabel
    labelThenTypes List.perm_append_comm
    (by
      intro r other
      cases r with
      | stream sec => cases sec <;> rfl
      | counter => exact absurd rfl other
      | _ => rfl)
    (by decide) (by decide)
  refine ⟨π, ?_, ?_, ?_, words'⟩
  · exact (congrArg Id.value (moved 0)).symm
  · exact (congrArg Id.value (moved 1)).symm
  · exact (congrArg Id.value (moved 2)).symm

end Renumber

end Sirit
