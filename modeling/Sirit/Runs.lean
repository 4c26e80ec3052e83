import Mathlib.Data.List.Basic

/- Runs of a machine that answers each input with an output: invariants of runs,
   conditions on every step, and simulation of one machine by another. -/
namespace Runs
variable {ι ο σ τ : Type}

def run (step : ι → σ → ο × σ) (s : σ) (inputs : List ι) : σ :=
  inputs.foldl (fun s i => (step i s).2) s

def trace (step : ι → σ → ο × σ) : σ → List ι → List (ι × ο)
  | _, [] => []
  | s, i :: inputs => (i, (step i s).1) :: trace step (step i s).2 inputs

/-- `P` holds of every input and the state it is given to. -/
def Throughout (step : ι → σ → ο × σ) (P : σ → ι → Prop) : σ → List ι → Prop
  | _, [] => True
  | s, i :: inputs => P s i ∧ Throughout step P (step i s).2 inputs

section
variable {step : ι → σ → ο × σ} {s : σ}

@[simp] theorem run_nil : run step s [] = s := rfl

@[simp] theorem run_cons (i : ι) (inputs : List ι) :
    run step s (i :: inputs) = run step (step i s).2 inputs := rfl

theorem run_append (first second : List ι) :
    run step s (first ++ second) = run step (run step s first) second := List.foldl_append

theorem trace_append (first second : List ι) :
    trace step s (first ++ second) =
      trace step s first ++ trace step (run step s first) second := by
  induction first generalizing s with
  | nil => rfl
  | cons i first ih =>
    simp only [List.cons_append, trace, run_cons, ih]

theorem mem_trace_iff {inputs : List ι} {i : ι} {o : ο} :
    (i, o) ∈ trace step s inputs ↔ ∃ before after, inputs = before ++ i :: after ∧
      o = (step i (run step s before)).1 := by
  induction inputs generalizing s with
  | nil => simp [trace]
  | cons j inputs ih =>
    simp only [trace, List.mem_cons, Prod.mk.injEq, ih]
    constructor
    · rintro (⟨rfl, rfl⟩ | ⟨before, after, rfl, rfl⟩)
      · exact ⟨[], inputs, rfl, rfl⟩
      · exact ⟨j :: before, after, rfl, rfl⟩
    · rintro ⟨before, after, same, rfl⟩
      cases before with
      | nil =>
        obtain ⟨rfl, rfl⟩ := List.cons.inj same
        exact Or.inl ⟨rfl, rfl⟩
      | cons k before =>
        obtain ⟨rfl, rfl⟩ := List.cons.inj same
        exact Or.inr ⟨before, after, rfl, rfl⟩

theorem invariant_run {I : σ → Prop} {inputs : List ι}
    (preserved : ∀ s, ∀ i ∈ inputs, I s → I (step i s).2) (start : I s) :
    I (run step s inputs) := by
  induction inputs generalizing s with
  | nil => exact start
  | cons i inputs ih =>
    exact ih (fun s j member => preserved s j (by simp [member])) (preserved s i (by simp) start)

theorem monotone_run {f : σ → Nat} (grows : ∀ s i, f s ≤ f (step i s).2) (inputs : List ι) :
    f s ≤ f (run step s inputs) := by
  induction inputs generalizing s with
  | nil => exact Nat.le_refl _
  | cons i inputs ih => exact Nat.le_trans (grows s i) ih

theorem throughout_congr {P Q : σ → ι → Prop} {inputs : List ι}
    (same : ∀ s, ∀ i ∈ inputs, P s i ↔ Q s i) :
    Throughout step P s inputs ↔ Throughout step Q s inputs := by
  induction inputs generalizing s with
  | nil => exact Iff.rfl
  | cons i inputs ih =>
    exact and_congr (same s i (by simp))
      (ih fun s j member => same s j (by simp [member]))

theorem throughout_iff_forall {P : σ → ι → Prop} {inputs : List ι} :
    Throughout step P s inputs ↔
      ∀ before i after, inputs = before ++ i :: after → P (run step s before) i := by
  induction inputs generalizing s with
  | nil => exact ⟨fun _ before i after cut => absurd cut (by simp), fun _ => trivial⟩
  | cons j inputs ih =>
    rw [Throughout, ih]
    constructor
    · rintro ⟨first, later⟩ before i after cut
      cases before with
      | nil =>
        obtain ⟨rfl, rfl⟩ := List.cons.inj cut
        exact first
      | cons k before =>
        obtain ⟨rfl, rest⟩ := List.cons.inj cut
        exact later before i after rest
    · intro all
      exact ⟨all [] j inputs rfl, fun before i after cut =>
        all (j :: before) i after (congrArg (j :: ·) cut)⟩

theorem kept_iff {f : σ → Nat} (grows : ∀ s i, f s ≤ f (step i s).2) (inputs : List ι) :
    f (run step s inputs) = f s ↔
      Throughout step (fun s i => f (step i s).2 = f s) s inputs := by
  induction inputs generalizing s with
  | nil => exact iff_of_true rfl trivial
  | cons i inputs ih =>
    have first := grows s i
    have rest := monotone_run (s := (step i s).2) grows inputs
    rw [Throughout, ← ih, run_cons]
    constructor
    · intro same
      exact ⟨by omega, by omega⟩
    · rintro ⟨here, later⟩
      exact later.trans here

theorem throughout_of_forall {P : σ → ι → Prop} {inputs : List ι}
    (holds : ∀ s, ∀ i ∈ inputs, P s i) : Throughout step P s inputs := by
  induction inputs generalizing s with
  | nil => trivial
  | cons i inputs ih =>
    exact ⟨holds s i (by simp), ih fun s j member => holds s j (by simp [member])⟩

theorem appended {α : Type} {f : σ → List α} {g : ι → List α}
    (law : ∀ s i, f (step i s).2 = f s ++ g i) (inputs : List ι) :
    f (run step s inputs) = f s ++ inputs.flatMap g := by
  induction inputs generalizing s with
  | nil => exact (List.append_nil _).symm
  | cons i inputs ih => rw [run_cons, ih, law, List.flatMap_cons, List.append_assoc]

def addNew {α : Type} [DecidableEq α] (x : α) (xs : List α) : List α :=
  if x ∈ xs then xs else xs ++ [x]

theorem mem_addNew {α : Type} [DecidableEq α] {x y : α} {xs : List α} :
    y ∈ addNew x xs ↔ y ∈ xs ∨ y = x := by
  unfold addNew
  split
  · rename_i member
    constructor
    · exact Or.inl
    · rintro (inside | rfl)
      · exact inside
      · exact member
  · simp

theorem nodup_addNew {α : Type} [DecidableEq α] {x : α} {xs : List α} (nodup : xs.Nodup) :
    (addNew x xs).Nodup := by
  unfold addNew
  split
  · exact nodup
  · rename_i absent
    exact List.nodup_append.mpr ⟨nodup, by simp, by
      intro a member b single same
      rw [List.mem_singleton.mp single] at same
      exact absent (same ▸ member)⟩

/-- A field that some inputs add an element to holds each element added exactly once. -/
theorem collected {α : Type} [DecidableEq α] {f : σ → List α} {g : ι → Option α}
    (law : ∀ s i, f (step i s).2 = (g i).elim (f s) fun x => addNew x (f s))
    (inputs : List ι) :
    ((f s).Nodup → (f (run step s inputs)).Nodup) ∧
      ∀ x, x ∈ f (run step s inputs) ↔ x ∈ f s ∨ ∃ i ∈ inputs, g i = some x := by
  induction inputs generalizing s with
  | nil => simp
  | cons i inputs ih =>
    obtain ⟨distinct, exact⟩ := ih (s := (step i s).2)
    refine ⟨?_, ?_⟩
    · intro nodup
      apply distinct
      rw [law]
      cases g i with
      | none => exact nodup
      | some x => exact nodup_addNew nodup
    · intro x
      rw [run_cons, exact, law, List.exists_mem_cons_iff]
      cases added : g i with
      | none => simp
      | some y =>
        simp only [Option.elim_some, mem_addNew, Option.some.injEq, or_assoc]
        rw [eq_comm]

theorem collected_eq {α : Type} [DecidableEq α] {f : σ → List α} {g : ι → Option α}
    (law : ∀ s i, f (step i s).2 = (g i).elim (f s) fun x => addNew x (f s))
    (inputs : List ι) : f (run step s inputs) =
      (inputs.filterMap g).foldl (fun xs x => addNew x xs) (f s) := by
  induction inputs generalizing s with
  | nil => rfl
  | cons i inputs ih =>
    rw [run_cons, ih, law]
    cases added : g i with
    | none => rw [List.filterMap_cons_none added, Option.elim_none]
    | some x => rw [List.filterMap_cons_some added, Option.elim_some, List.foldl_cons]

end

/-- Machines in related states that answer alike and stay related do so for whole runs. -/
theorem simulation {step : ι → σ → ο × σ} {step' : ι → τ → ο × τ} {R : σ → τ → Prop}
    {P : σ → ι → Prop}
    (related : ∀ s t i, P s i → R s t →
      (step i s).1 = (step' i t).1 ∧ R (step i s).2 (step' i t).2)
    {s : σ} {t : τ} (start : R s t) {inputs : List ι} (holds : Throughout step P s inputs) :
    trace step s inputs = trace step' t inputs ∧
      R (run step s inputs) (run step' t inputs) := by
  induction inputs generalizing s t with
  | nil => exact ⟨rfl, start⟩
  | cons i inputs ih =>
    obtain ⟨first, later⟩ := holds
    obtain ⟨answer, next⟩ := related s t i first start
    obtain ⟨answers, final⟩ := ih next later
    exact ⟨by rw [trace, trace, answer, answers], final⟩

end Runs
