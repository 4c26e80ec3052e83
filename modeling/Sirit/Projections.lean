import Sirit.Runs

/- Inputs that use resources. When inputs without a common resource commute, a run is
   determined by its projections: for each resource, the inputs that use it, in order. -/
namespace Projections
open Runs
variable {ι ο σ ρ : Type}

def Independent (uses : ι → ρ → Bool) (i j : ι) : Prop :=
  ∀ r, uses i r = true → uses j r = false

/-- Independent inputs commute, and neither changes an observed output of the other.
    Observed inputs all depend on each other. -/
structure Separable (step : ι → σ → ο × σ) (uses : ι → ρ → Bool) (observed : ι → Bool) :
    Prop where
  used : ∀ i, ∃ r, uses i r = true
  commute : ∀ i j s, Independent uses i j →
    (step i (step j s).2).2 = (step j (step i s).2).2
  stable : ∀ i j s, observed i = true → Independent uses i j →
    (step i (step j s).2).1 = (step i s).1
  shared : ∀ i j, observed i = true → observed j = true → ¬ Independent uses i j

theorem independent_symm {uses : ι → ρ → Bool} {i j : ι} (apart : Independent uses i j) :
    Independent uses j i := by
  intro r used
  by_contra same
  rw [Bool.not_eq_false] at same
  rw [apart r same] at used
  cases used

def projection (uses : ι → ρ → Bool) (r : ρ) (inputs : List ι) : List ι :=
  inputs.filter fun i => uses i r

section
variable {uses : ι → ρ → Bool} {r : ρ} {i : ι}

theorem projection_cons_used (used : uses i r = true) (inputs : List ι) :
    projection uses r (i :: inputs) = i :: projection uses r inputs :=
  List.filter_cons_of_pos used

theorem projection_cons_unused (unused : uses i r = false) (inputs : List ι) :
    projection uses r (i :: inputs) = projection uses r inputs :=
  List.filter_cons_of_neg (by simp [unused])

theorem projection_append (before after : List ι) :
    projection uses r (before ++ after) =
      projection uses r before ++ projection uses r after := List.filter_append ..

theorem projection_eq_nil {inputs : List ι} (unused : ∀ j ∈ inputs, uses j r = false) :
    projection uses r inputs = [] := by
  rw [projection, List.filter_eq_nil_iff]
  intro j member
  simp [unused j member]

end

section
variable {uses : ι → ρ → Bool} {r : ρ} {inputs inputs' : List ι}
  (same : projection uses r inputs = projection uses r inputs')
include same

theorem filterMap_eq_of_projection {β : Type} {g : ι → Option β}
    (used : ∀ i, uses i r = false → g i = none) : inputs.filterMap g = inputs'.filterMap g := by
  have projected : ∀ inputs : List ι,
      (projection uses r inputs).filterMap g = inputs.filterMap g := by
    intro inputs
    rw [projection, List.filterMap_filter]
    apply List.filterMap_congr
    intro i _
    split
    · rfl
    · rename_i unused
      exact (used i (Bool.eq_false_iff.mpr unused)).symm
  rw [← projected inputs, same, projected]

theorem foldl_eq_of_projection {β : Type} {f : β → ι → β}
    (unused : ∀ i, uses i r = false → ∀ b, f b i = b) (b : β) :
    inputs.foldl f b = inputs'.foldl f b := by
  have projected : ∀ (inputs : List ι) (b : β),
      (projection uses r inputs).foldl f b = inputs.foldl f b := by
    intro inputs
    induction inputs with
    | nil => exact fun b => rfl
    | cons i inputs ih =>
      intro b
      cases used : uses i r with
      | true => rw [projection_cons_used used, List.foldl_cons, List.foldl_cons, ih]
      | false => rw [projection_cons_unused used, List.foldl_cons, unused i used, ih]
  rw [← projected inputs, same, projected]

end

def observations (step : ι → σ → ο × σ) (observed : ι → Bool) (s : σ) (inputs : List ι) :
    List (ι × ο) := (trace step s inputs).filter fun entry => observed entry.1

theorem observations_cons (step : ι → σ → ο × σ) (observed : ι → Bool) (s : σ) (i : ι)
    (inputs : List ι) : observations step observed s (i :: inputs) =
      (if observed i = true then [(i, (step i s).1)] else []) ++
        observations step observed (step i s).2 inputs := by
  cases h : observed i <;> simp [observations, trace, h]

section
variable {step : ι → σ → ο × σ} {uses : ι → ρ → Bool} {observed : ι → Bool}
  (separable : Separable step uses observed)
include separable

theorem run_swap {i j : ι} (apart : Independent uses i j) (s : σ) (inputs : List ι) :
    run step s (i :: j :: inputs) = run step s (j :: i :: inputs) := by
  simp only [run_cons]
  rw [separable.commute j i s (independent_symm apart)]

theorem observations_swap {i j : ι} (apart : Independent uses i j) (s : σ)
    (inputs : List ι) : observations step observed s (i :: j :: inputs) =
      observations step observed s (j :: i :: inputs) := by
  have apart' := independent_symm apart
  simp only [observations_cons]
  rw [separable.commute j i s apart']
  cases seen : observed i with
  | true =>
    cases seen' : observed j with
    | true => exact absurd apart (separable.shared i j seen seen')
    | false => simp [separable.stable i j s seen apart]
  | false =>
    cases seen' : observed j with
    | true => simp [separable.stable j i s seen' apart']
    | false => simp

theorem move_front {before : List ι} {i : ι} (apart : ∀ j ∈ before, Independent uses j i)
    (s : σ) (after : List ι) :
    run step s (before ++ i :: after) = run step s (i :: (before ++ after)) ∧
      observations step observed s (before ++ i :: after) =
        observations step observed s (i :: (before ++ after)) := by
  induction before generalizing s with
  | nil => exact ⟨rfl, rfl⟩
  | cons j before ih =>
    obtain ⟨states, seen⟩ := ih (fun k member => apart k (by simp [member])) (step j s).2
    have first := apart j (by simp)
    refine ⟨?_, ?_⟩
    · rw [List.cons_append, run_cons, states, ← run_cons, run_swap separable first]
      rfl
    · rw [List.cons_append, observations_cons, seen, ← observations_cons,
        observations_swap separable first]
      rfl

omit separable in
theorem exists_front {i : ι} {inputs inputs' : List ι} (used : ∃ r, uses i r = true)
    (same : ∀ r, projection uses r (i :: inputs) = projection uses r inputs') :
    ∃ before after, inputs' = before ++ i :: after ∧ ∀ j ∈ before, Independent uses j i := by
  obtain ⟨r, usesR⟩ := used
  have first := same r
  rw [projection_cons_used usesR] at first
  obtain ⟨before, after, rfl, none, _, _⟩ := List.filter_eq_cons_iff.mp first.symm
  refine ⟨before, after, rfl, ?_⟩
  intro j member r' usesJ
  by_contra usesI
  rw [Bool.not_eq_false] at usesI
  -- the first input before `i` that uses this resource would have to be `i` itself
  have second := same r'
  rw [projection_cons_used usesI, projection_append] at second
  cases projected : projection uses r' before with
  | nil =>
    have absent := List.filter_eq_nil_iff.mp projected j member
    exact absent usesJ
  | cons k rest =>
    rw [projected] at second
    have inside : k ∈ projection uses r' before := by simp [projected]
    rw [← (List.cons.inj second).1] at inside
    exact none i (List.mem_filter.mp inside).1 usesR

omit separable in
theorem projections_tail {i : ι} {inputs before after : List ι}
    (apart : ∀ j ∈ before, Independent uses j i)
    (same : ∀ r, projection uses r (i :: inputs) = projection uses r (before ++ i :: after))
    (r : ρ) : projection uses r inputs = projection uses r (before ++ after) := by
  have whole := same r
  rw [projection_append] at whole ⊢
  cases usesR : uses i r with
  | true =>
    have none : projection uses r before = [] := by
      apply projection_eq_nil
      intro j member
      exact independent_symm (apart j member) r usesR
    rw [projection_cons_used usesR, projection_cons_used usesR, none] at whole
    rw [none]
    exact (List.cons.inj whole).2
  | false => rwa [projection_cons_unused usesR, projection_cons_unused usesR] at whole

/-- Runs with the same projections end in the same state and are observed alike. -/
theorem run_eq_of_projections {inputs inputs' : List ι}
    (same : ∀ r, projection uses r inputs = projection uses r inputs') (s : σ) :
    run step s inputs = run step s inputs' ∧
      observations step observed s inputs = observations step observed s inputs' := by
  induction inputs generalizing inputs' s with
  | nil =>
    cases inputs' with
    | nil => exact ⟨rfl, rfl⟩
    | cons j inputs' =>
      obtain ⟨r, used⟩ := separable.used j
      have other := same r
      rw [projection_cons_used used] at other
      cases other
  | cons i inputs ih =>
    obtain ⟨before, after, rfl, apart⟩ := exists_front (separable.used i) same
    obtain ⟨states, seen⟩ := ih (projections_tail apart same) (step i s).2
    obtain ⟨states', seen'⟩ := move_front separable apart s after
    refine ⟨?_, ?_⟩
    · rw [states', run_cons, run_cons, states]
    · rw [seen', observations_cons, observations_cons, seen]

end

end Projections
