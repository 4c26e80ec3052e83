import Sirit.NamedIds

/- What a program lists, in terms of its names: the contents of the assembled module before
   they are words, and before the names are known to stand for any ids. -/
namespace Sirit
open Interning
variable (pf : Platform) {ν : Type}

/-- An instruction before it is words: the expression it is written by, and its id. -/
structure Entry where
  emission : Emission
  id : Id

def Entry.instruction (e : Entry) : Instruction := e.emission.instruction pf (e.id.value - 1)

def Entry.rename (π : U32 → U32) (e : Entry) : Entry := ⟨e.emission.rename π, e.id.rename π⟩

def Action.entry (set id : Id) (sec : Section) : Action → Option Entry
  | .emit other e _ => if sec = other then some ⟨e, id⟩ else none
  | .deferPhi resultType blocks =>
      if sec = .code then some ⟨Sirit.deferredOpPhi resultType blocks, id⟩ else none
  | .glsl inst =>
      if sec = .code then
        some ⟨opExtInst inst.resultType set (pf.glslStd450 inst.opcode) inst.operands, id⟩
      else none
  | .addLabel label => if sec = .code then some ⟨⟨2, .op .opLabel, [.id label]⟩, id⟩ else none
  | _ => none

def Action.declared (id : Id) : Action → Option (Declaration × Id)
  | .declare e => some (e, id)
  | _ => none

def Action.capability : Action → Option U32
  | .addCapability capability => some capability
  | _ => none

def Action.extension : Action → Option (List U8)
  | .addExtension extensionName => some extensionName
  | _ => none

def Action.model : Action → Option (U32 × U32)
  | .setMemoryModel addressingModel memoryModel => some (addressingModel, memoryModel)
  | _ => none

theorem Call.capability_eq (c : Call) : c.capability = c.action.capability := by
  cases c <;> rfl

theorem Call.extension_eq (c : Call) : c.extension = c.action.extension := by
  cases c <;> rfl

theorem lastMemoryModel_eq (calls : List Call) : lastMemoryModel pf calls =
    calls.foldl (fun last c => c.action.model.getD last) (pf.logical, pf.glsl450) := by
  apply List.foldl_ext
  intro last c _
  cases c <;> rfl

structure Contents where
  capabilities : List U32
  extensions : List (List U8)
  model : U32 × U32
  sections : Section → List Entry
  declarations : List Entry

def declarationsOf (ρ : ν → Id) (steps : List (ν × NamedCall ν)) : List (Declaration × Id) :=
  steps.filterMap fun step => (step.2.call ρ).action.declared (ρ step.1)

def entriesOf (ρ : ν → Id) (set : Id) (steps : List (ν × NamedCall ν)) (sec : Section) :
    List Entry := steps.filterMap fun step => (step.2.call ρ).action.entry pf set (ρ step.1) sec

def contentsOf (ρ : ν → Id) (set : Id) (steps : List (ν × NamedCall ν)) : Contents where
  capabilities := (steps.filterMap fun step => (step.2.call ρ).action.capability).foldl
    (fun xs x => Runs.addNew x xs) []
  extensions := (steps.filterMap fun step => (step.2.call ρ).action.extension).foldl
    (fun xs x => Runs.addNew x xs) []
  model := steps.foldl (fun last step => (step.2.call ρ).action.model.getD last)
    (pf.logical, pf.glsl450)
  sections := fun sec =>
    if sec = .extInstImports then
      if steps.any (fun step => step.2.outline.isGlsl) then [⟨glslStd450Import, set⟩] else []
    else entriesOf pf ρ set steps sec
  declarations := (firsts (fun d => some (d.1.key pf)) [] (declarationsOf ρ steps)).map
    fun d => ⟨d.1.emission, d.2⟩

def capabilityEntry (capability : U32) : Entry :=
  ⟨⟨2, .op .opCapability, [.u32 capability]⟩, ⟨0⟩⟩

def extensionEntry (extensionName : List U8) : Entry :=
  ⟨⟨1 + wordsInString extensionName, .op .opExtension, [.string extensionName]⟩, ⟨0⟩⟩

def modelEntry (model : U32 × U32) : Entry :=
  ⟨⟨3, .op .opMemoryModel, [.u32 model.1, .u32 model.2]⟩, ⟨0⟩⟩

def Contents.entries (c : Contents) : List Entry :=
  (pf.capabilityOrder c.capabilities).map capabilityEntry ++
  (pf.extensionOrder c.extensions).map extensionEntry ++
  c.sections .extInstImports ++ [modelEntry c.model] ++
  c.sections .entryPoints ++ c.sections .executionModes ++ c.sections .debug ++
  c.sections .annotations ++ c.declarations ++ c.sections .globalVariables ++
  c.sections .code

def Contents.rename (π : U32 → U32) (c : Contents) : Contents :=
  { c with
    sections := fun sec => (c.sections sec).map (Entry.rename π)
    declarations := c.declarations.map (Entry.rename π) }

theorem Contents.entries_rename {π : U32 → U32} (zero : π 0 = 0) (c : Contents) :
    (c.rename π).entries pf = (c.entries pf).map (Entry.rename π) := by
  have fixed : (⟨0⟩ : Id).rename π = ⟨0⟩ := congrArg Id.mk zero
  have capabilities : Entry.rename π ∘ capabilityEntry = capabilityEntry :=
    funext fun x => congrArg (Entry.mk _) fixed
  have extensions : Entry.rename π ∘ extensionEntry = extensionEntry :=
    funext fun x => congrArg (Entry.mk _) fixed
  have model : (modelEntry c.model).rename π = modelEntry c.model :=
    congrArg (Entry.mk _) fixed
  simp only [Contents.entries, Contents.rename, List.map_append, List.map_map,
    List.map_singleton, capabilities, extensions, model]

structure Listing.Holds (l : Listing) (c : Contents) : Prop where
  capabilities : l.capabilities = c.capabilities
  extensions : l.extensions = c.extensions
  model : (l.addressingModel, l.memoryModel) = c.model
  sections : ∀ sec, l.instructions sec = (c.sections sec).map (Entry.instruction pf)
  declarations : l.declarationInstructions = c.declarations.map (Entry.instruction pf)

theorem Listing.Holds.all {l : Listing} {c : Contents} (holds : l.Holds pf c) :
    l.all pf = (c.entries pf).map (Entry.instruction pf) := by
  have capabilities : Entry.instruction pf ∘ capabilityEntry = capabilityInstruction := rfl
  have extensions : Entry.instruction pf ∘ extensionEntry = extensionInstruction pf := by
    funext x
    simp [extensionEntry, Entry.instruction, Emission.instruction, extensionInstruction,
      Operand.words]
  have model : (modelEntry c.model).instruction pf =
      memoryModelInstruction l.addressingModel l.memoryModel := by
    rw [← holds.model]
    rfl
  simp only [Listing.all, Listing.preamble, Listing.globals, holds.sections,
    holds.declarations, holds.capabilities, holds.extensions, Contents.entries,
    List.map_append, List.map_map, List.map_singleton, capabilities, extensions, model,
    List.append_assoc]

theorem Emission.instruction_of_id {e : Emission} {bound : U32} {id : Id}
    (id_eq : ∀ opId, e.head = .opId opId → id.value = bound + 1) :
    e.instruction pf (id.value - 1) = e.instruction pf bound := by
  cases head : e.head with
  | op opcode => simp only [Emission.instruction, head]
  | opId opId => rw [id_eq opId head, BitVec.add_sub_cancel]

theorem Listing.step_entry {l : Listing} {c : Call} (set id : Id) {sec : Section}
    (imports : sec ≠ .extInstImports)
    (imported : ∀ other, (l.step pf c).2.glslStd450 = some other → other = set)
    (answer : c.action.defines = true → (l.step pf c).1 = some id) :
    (l.step pf c).2.instructions sec = l.instructions sec ++
      ((c.action.entry pf set id sec).map (Entry.instruction pf)).toList := by
  have well := c.wellPlaced
  have listed : ∀ (l : Listing) (other : Section) (e : Emission),
      (∀ opId, e.head = .opId opId → id.value = l.bound + 1) →
      (l.emit pf other e).2.instructions sec = l.instructions sec ++
        ((if sec = other then some (Entry.mk e id) else none).map
          (Entry.instruction pf)).toList := by
    intro l other e id_eq
    rw [l.instructions_emit pf sec other e]
    congr 1
    split
    · rw [← Emission.instruction_of_id pf id_eq]
      rfl
    · rfl
  unfold Listing.step at imported answer ⊢
  cases action : c.action with
  | emit other e returned =>
    rw [action] at answer well
    apply listed l other e
    intro opId head
    simp only [Action.wellPlaced, Bool.and_eq_true, head] at well
    obtain ⟨reserved, _, operands⟩ := e
    obtain rfl : _ = Head.opId opId := head
    cases returned with
    | endOp => exact (congrArg Id.value (Option.some.inj (answer rfl))).symm
    | nothing => exact absurd well.2 Bool.false_ne_true
    | argument other => exact absurd well.2 Bool.false_ne_true
  | deferPhi resultType blocks =>
    rw [action] at answer
    apply listed l .code
    intro opId _
    exact (congrArg Id.value (Option.some.inj (answer rfl))).symm
  | glsl inst =>
    rw [action] at answer imported
    have same : (l.getGLSLstd450 pf).1 = set := imported _ (l.getGLSLstd450_imported pf)
    rw [← l.instructions_getGLSLstd450 pf imports, ← same]
    apply listed (l.getGLSLstd450 pf).2 .code
    intro opId _
    exact (congrArg Id.value (Option.some.inj (answer rfl))).symm
  | addLabel label =>
    simp only [Listing.perform, Listing.addLabel, Function.update_apply, Action.entry]
    split
    · rename_i same
      rw [same]
      rfl
    · exact (List.append_nil _).symm
  | _ => exact (List.append_nil _).symm

section Holds
variable {version : U32} {p : Program ν} {ρ : ν → Id}
  (resolved : Resolved pf version p.steps ρ)
include resolved

theorem sections_listed {sec : Section} (imports : sec ≠ .extInstImports)
    {before after : List (ν × NamedCall ν)} (cut : p.steps = before ++ after) :
    (listing pf version (callsOf ρ before)).instructions sec =
      (entriesOf pf ρ (importOf pf version ρ p.steps) before sec).map
        (Entry.instruction pf) := by
  induction before using List.reverseRecOn generalizing after with
  | nil => rfl
  | append_singleton before step ih =>
    have next := cut
    rw [List.append_assoc, List.singleton_append] at cut
    rw [listing_callsOf_snoc, Listing.step_entry pf (importOf pf version ρ p.steps)
      (ρ step.1) imports ?_ ?_, ih cut]
    · simp only [entriesOf, List.filterMap_append, List.map_append]
      congr 1
      cases listed : (step.2.call ρ).action.entry pf (importOf pf version ρ p.steps)
        (ρ step.1) sec <;> simp [listed]
    · intro other imported
      rw [← listing_callsOf_snoc] at imported
      exact (importOf_eq pf version ρ next imported).symm
    · intro defines
      exact resolved.answered before step after cut ((step.2.defines_eq ρ).trans defines)

theorem declarations_listed {before after : List (ν × NamedCall ν)}
    (cut : p.steps = before ++ after) :
    (listing pf version (callsOf ρ before)).declarations.entries =
      (firsts (fun d => some (d.1.key pf)) [] (declarationsOf ρ before)).map
        fun d => (d.1.key pf, d.2.value) := by
  induction before using List.reverseRecOn generalizing after with
  | nil => rfl
  | append_singleton before step ih =>
    rw [List.append_assoc, List.singleton_append] at cut
    have earlier := ih cut
    rw [listing_callsOf_snoc, declarationsOf, List.filterMap_append, ← declarationsOf]
    by_cases declares : ∃ e, (step.2.call ρ).action = .declare e
    · obtain ⟨e, action⟩ := declares
      have answer := resolved.answered before step after cut (by
        rw [step.2.defines_eq ρ, action]
        rfl)
      have last : [step].filterMap (fun step => (step.2.call ρ).action.declared (ρ step.1)) =
          [(e, ρ step.1)] := by
        simp [Action.declared, action]
      have keys : (listing pf version (callsOf ρ before)).declarations.entries.map Prod.fst =
          (firsts (fun d => some (d.1.key pf)) [] (declarationsOf ρ before)).map
            fun d => d.1.key pf := by
        rw [earlier, List.map_map]
        rfl
      have known : e.key pf ∈ (listing pf version
          (callsOf ρ before)).declarations.entries.map Prod.fst ↔
          e.key pf ∈ (declarationsOf ρ before).map fun d => d.1.key pf := by
        rw [keys, mem_keys_firsts]
        simp
      rw [Listing.step, action] at answer ⊢
      rw [last, firsts_snoc]
      simp only [List.not_mem_nil, false_or, Listing.perform, Listing.declare]
      cases found : (listing pf version (callsOf ρ before)).declarations.find (e.key pf) with
      | some i =>
        have member := List.mem_map_of_mem (f := Prod.fst) (Table.mem_of_find found)
        rw [Table.intern_known found, if_pos (known.mp member), List.append_nil]
        exact earlier
      | none =>
        have absent := lookup_eq_none_iff_keys.mp found
        have id := congrArg Id.value (Option.some.inj answer)
        simp only [Listing.declare, Table.intern_new found] at id
        rw [Table.intern_new found, if_neg fun member => absent (known.mpr member),
          List.map_append, ← earlier, id]
        rfl
    · have last : [step].filterMap
          (fun step => (step.2.call ρ).action.declared (ρ step.1)) = [] := by
        cases action : (step.2.call ρ).action with
        | declare e => exact absurd ⟨e, action⟩ declares
        | _ => simp [Action.declared, action]
      rw [last, List.append_nil, Listing.step_declarations pf _ fun e action =>
        declares ⟨e, action⟩]
      exact earlier

theorem listing_holds : (listing pf version (callsOf ρ p.steps)).Holds pf
    (contentsOf pf ρ (importOf pf version ρ p.steps) p.steps) where
  capabilities := by
    rw [listing, Runs.collected_eq (Listing.step_capabilities pf), callsOf, List.filterMap_map]
    congr 1
    exact List.filterMap_congr fun step _ => (step.2.call ρ).capability_eq
  extensions := by
    rw [listing, Runs.collected_eq (Listing.step_extensions pf), callsOf, List.filterMap_map]
    congr 1
    exact List.filterMap_congr fun step _ => (step.2.call ρ).extension_eq
  model := by
    rw [listing_memoryModel, lastMemoryModel_eq, callsOf, List.foldl_map]
    rfl
  sections := by
    intro sec
    by_cases imports : sec = .extInstImports
    · subst imports
      have state := listing_imported pf version (callsOf ρ p.steps)
      have called : (callsOf ρ p.steps).any Call.isGlsl =
          p.steps.any fun step => step.2.outline.isGlsl := by
        rw [callsOf, List.any_map]
        congr 1
        funext step
        exact (step.2.isGlsl_eq ρ).symm
      rw [called] at state
      simp only [contentsOf, if_true]
      cases helper : p.steps.any fun step => step.2.outline.isGlsl with
      | false =>
        rw [helper] at state
        exact state.2
      | true =>
        rw [helper] at state
        obtain ⟨set, cached, single⟩ := state
        rw [single, importOf, cached]
        simp only [if_true, List.map_singleton, Option.getD_some, Entry.instruction,
          Emission.instruction, glslStd450Import, Head.bare, importInstruction, operandWords,
          List.flatMap_singleton, Operand.words, OpId.opcode, OpId.resultType,
          BitVec.sub_add_cancel]
    · simp only [contentsOf, if_neg imports]
      exact sections_listed pf resolved imports (List.append_nil p.steps).symm
  declarations := by
    rw [Listing.declarationInstructions,
      declarations_listed pf resolved (List.append_nil p.steps).symm]
    simp only [contentsOf, List.map_map]
    apply List.map_congr_left
    intro d _
    simp only [Function.comp_apply, Entry.instruction, Emission.instruction,
      Declaration.emission, Declaration.key, DeclKey.instruction, BitVec.sub_add_cancel]

end Holds

end Sirit
