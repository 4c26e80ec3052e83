import Sirit.Renaming

/- Programs of a client: calls in which the results of earlier calls are given by name. A
   program does not say which ids the names stand for; a run does. -/
namespace Sirit
variable (pf : Platform) {ν : Type}

structure NamedCall (ν : Type) where
  names : List ν
  call : (ν → Id) → Call
  given : ∀ ρ, (call ρ).action.arguments = names.map fun x => (ρ x).value
  fixed : ∀ ρ ρ', (call ρ).action.blank = (call ρ').action.blank
  unpatched : ∀ ρ, ¬ (call ρ).action.IsPatch

def NamedCall.outline (n : NamedCall ν) : Action := (n.call fun _ => ⟨1⟩).action

def NamedCall.defines (n : NamedCall ν) : Bool := n.outline.defines

def NamedCall.touches (n : NamedCall ν) (r : Resource) : Bool := n.outline.touches r

def callsOf (ρ : ν → Id) (steps : List (ν × NamedCall ν)) : List Call :=
  steps.map fun step => step.2.call ρ

/-- Names are given once, and used where an earlier call has defined them. -/
structure Program (ν : Type) where
  steps : List (ν × NamedCall ν)
  distinct : (steps.map Prod.fst).Nodup
  supplied : ∀ before step after, steps = before ++ step :: after → ∀ x ∈ step.2.names,
    ∃ earlier ∈ before, earlier.1 = x ∧ earlier.2.defines = true

def suppliedFrom [DecidableEq ν] (defined : List ν) : List (ν × NamedCall ν) → Bool
  | [] => true
  | step :: steps => step.2.names.all (fun x => decide (x ∈ defined)) &&
      suppliedFrom (if step.2.defines = true then step.1 :: defined else defined) steps

theorem supplied_of_suppliedFrom [DecidableEq ν] {defined : List ν}
    {steps : List (ν × NamedCall ν)} (supplied : suppliedFrom defined steps = true)
    (before : List (ν × NamedCall ν)) (step : ν × NamedCall ν) (after : List (ν × NamedCall ν))
    (cut : steps = before ++ step :: after) : ∀ x ∈ step.2.names,
      x ∈ defined ∨ ∃ earlier ∈ before, earlier.1 = x ∧ earlier.2.defines = true := by
  induction before generalizing defined steps with
  | nil =>
    subst cut
    rw [List.nil_append, suppliedFrom, Bool.and_eq_true, List.all_eq_true] at supplied
    exact fun x used => Or.inl (of_decide_eq_true (supplied.1 x used))
  | cons first before ih =>
    subst cut
    rw [List.cons_append, suppliedFrom, Bool.and_eq_true] at supplied
    intro x used
    rcases ih supplied.2 rfl x used with known | ⟨earlier, member, found⟩
    · split at known
      · rename_i defines
        rcases List.mem_cons.mp known with rfl | known
        · exact Or.inr ⟨first, List.mem_cons_self, rfl, defines⟩
        · exact Or.inl known
      · exact Or.inl known
    · exact Or.inr ⟨earlier, List.mem_cons_of_mem _ member, found⟩

def Program.check [DecidableEq ν] (steps : List (ν × NamedCall ν))
    (distinct : (steps.map Prod.fst).Nodup) (supplied : suppliedFrom [] steps = true) :
    Program ν where
  steps := steps
  distinct := distinct
  supplied := by
    intro before step after cut x used
    rcases supplied_of_suppliedFrom supplied before step after cut x used with none | earlier
    · exact absurd none List.not_mem_nil
    · exact earlier

theorem NamedCall.action_rename (n : NamedCall ν) {ρ ρ' : ν → Id} {π : U32 → U32}
    (renamed : ∀ x ∈ n.names, ρ' x = (ρ x).rename π) :
    (n.call ρ').action = (n.call ρ).action.rename π := by
  apply Action.rename_of_blank (n.fixed ρ ρ')
  rw [n.given, n.given, List.map_map]
  apply List.map_congr_left
  intro x member
  rw [renamed x member]
  rfl

theorem NamedCall.action_congr (n : NamedCall ν) {ρ ρ' : ν → Id}
    (same : ∀ x ∈ n.names, ρ' x = ρ x) : (n.call ρ').action = (n.call ρ).action := by
  have here : (n.call ρ').action = (n.call ρ).action.rename id := n.action_rename same
  have there : (n.call ρ).action = (n.call ρ).action.rename id :=
    n.action_rename fun _ _ => rfl
  exact here.trans there.symm

theorem NamedCall.outline_eq (n : NamedCall ν) (ρ : ν → Id) :
    n.outline = (n.call ρ).action.rename fun _ => 1 := n.action_rename fun _ _ => rfl

theorem NamedCall.defines_eq (n : NamedCall ν) (ρ : ν → Id) :
    n.defines = (n.call ρ).action.defines := by
  rw [NamedCall.defines, n.outline_eq ρ, Action.defines_rename]

theorem NamedCall.touches_eq (n : NamedCall ν) (ρ : ν → Id) (r : Resource) :
    n.touches r = (n.call ρ).action.touches r := by
  rw [NamedCall.touches, n.outline_eq ρ, Action.touches_rename]

theorem Action.answers_of_defines {a : Action} (defines : a.defines = true) (m : Module) :
    ((m.perform pf a).1).isSome = true := by
  cases a with
  | emit sec e returned =>
    obtain ⟨reserved, head, operands⟩ := e
    cases returned with
    | nothing => cases head <;> cases defines
    | _ => rfl
  | declare _ | deferPhi _ _ | glsl _ | addLabel _ | opLabel => rfl
  | _ => cases defines

section Run
variable [DecidableEq ν]

def runStep (step : ν × NamedCall ν) (s : Module × (ν → Id)) : Option Id × Module × (ν → Id) :=
  let c := step.2.call s.2
  let r := s.1.exec pf c
  (r.1, r.2, if c.action.defines = true then Function.update s.2 step.1 (r.1.getD ⟨0⟩) else s.2)

def Program.run (version : U32) (p : Program ν) : Module × (ν → Id) :=
  Runs.run (runStep pf) (Module.new pf version, fun _ => ⟨0⟩) p.steps

def Program.ids (version : U32) (p : Program ν) : ν → Id := (p.run pf version).2

theorem runStep_ids {step : ν × NamedCall ν} {x : ν}
    (other : step.1 = x → step.2.defines = false) (s : Module × (ν → Id)) :
    (runStep pf step s).2.2 x = s.2 x := by
  simp only [runStep]
  split
  · rename_i defines
    have apart : x ≠ step.1 := by
      intro same
      rw [← step.2.defines_eq, other same.symm] at defines
      cases defines
    rw [Function.update_of_ne apart]
  · rfl

theorem run_ids {steps : List (ν × NamedCall ν)} {x : ν}
    (other : ∀ step ∈ steps, step.1 = x → step.2.defines = false) (s : Module × (ν → Id)) :
    (Runs.run (runStep pf) s steps).2 x = s.2 x := by
  induction steps generalizing s with
  | nil => rfl
  | cons step steps ih =>
    rw [Runs.run_cons, ih fun later member => other later (List.mem_cons_of_mem _ member)]
    exact runStep_ids pf (other step List.mem_cons_self) s

end Run

/-- The names stand for the ids that the calls return when they stand for these ids. -/
structure Resolved (version : U32) (steps : List (ν × NamedCall ν)) (ρ : ν → Id) : Prop where
  answered : ∀ before step after, steps = before ++ step :: after → step.2.defines = true →
    ((listing pf version (callsOf ρ before)).step pf (step.2.call ρ)).1 = some (ρ step.1)
  unnamed : ∀ x, (∀ step ∈ steps, step.1 = x → step.2.defines = false) → ρ x = ⟨0⟩

theorem callsOf_unpatched (ρ : ν → Id) (steps : List (ν × NamedCall ν)) :
    ∀ c ∈ callsOf ρ steps, ¬ c.action.IsPatch := by
  intro c member
  obtain ⟨step, _, rfl⟩ := List.mem_map.mp member
  exact step.2.unpatched ρ

section Resolve
variable [DecidableEq ν] (version : U32) (p : Program ν)

theorem Program.ids_eq {before after : List (ν × NamedCall ν)} (cut : p.steps = before ++ after)
    {x : ν} (earlier : x ∈ before.map Prod.fst) : p.ids pf version x =
      (Runs.run (runStep pf) (Module.new pf version, fun _ => ⟨0⟩) before).2 x := by
  have distinct := p.distinct
  rw [cut, List.map_append, List.nodup_append] at distinct
  rw [Program.ids, Program.run, cut, Runs.run_append]
  apply run_ids
  intro step member same
  exact absurd same.symm (distinct.2.2 x earlier step.1 (List.mem_map_of_mem member))

theorem Program.action_eq {before after : List (ν × NamedCall ν)} {step : ν × NamedCall ν}
    (cut : p.steps = before ++ step :: after) :
    (step.2.call (Runs.run (runStep pf) (Module.new pf version, fun _ => ⟨0⟩) before).2).action =
      (step.2.call (p.ids pf version)).action := by
  apply step.2.action_congr
  intro x used
  obtain ⟨earlier, member, rfl, _⟩ := p.supplied before step after cut x used
  exact (p.ids_eq pf version cut (List.mem_map_of_mem member)).symm

theorem Program.run_before {before after : List (ν × NamedCall ν)}
    (cut : p.steps = before ++ after) :
    (Runs.run (runStep pf) (Module.new pf version, fun _ => ⟨0⟩) before).1 =
      (Module.new pf version).run pf (callsOf (p.ids pf version) before) := by
  induction before using List.reverseRecOn generalizing after with
  | nil => rfl
  | append_singleton before step ih =>
    rw [List.append_assoc, List.singleton_append] at cut
    have earlier := ih cut
    have action := p.action_eq pf version cut
    rw [callsOf, List.map_append, List.map_singleton, Module.run_snoc, ← callsOf, ← earlier,
      Runs.run_append, Runs.run_cons, Runs.run_nil]
    simp only [runStep, Module.exec, action]

theorem Program.run_module : (p.run pf version).1 =
    (Module.new pf version).run pf (callsOf (p.ids pf version) p.steps) :=
  p.run_before pf version (List.append_nil p.steps).symm

theorem Program.resolved : Resolved pf version p.steps (p.ids pf version) where
  answered := by
    intro before step after cut defines
    have action := p.action_eq pf version cut
    have earlier := p.run_before pf version cut
    obtain ⟨_, refines⟩ := run_refines_unpatched pf version
      (callsOf_unpatched (p.ids pf version) before)
    have answer := (refines.perform (step.2.call (p.ids pf version)).action
      fun patch => absurd patch (step.2.unpatched _)).1
    rw [Listing.step, ← answer, ← earlier]
    rw [step.2.defines_eq (p.ids pf version)] at defines
    have some := Action.answers_of_defines pf defines
      (Runs.run (runStep pf) (Module.new pf version, fun _ => ⟨0⟩) before).1
    obtain ⟨id, returned⟩ := Option.isSome_iff_exists.mp some
    have next : p.steps = (before ++ [step]) ++ after := by
      rw [cut, List.append_assoc, List.singleton_append]
    rw [returned, p.ids_eq pf version next (by simp), Runs.run_append, Runs.run_cons,
      Runs.run_nil]
    simp only [runStep, Module.exec, action, defines, if_true, returned, Function.update_self,
      Option.getD_some]
  unnamed := fun x other => run_ids pf other _

end Resolve

end Sirit
