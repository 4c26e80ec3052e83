import Mathlib.Data.FinEnum
import Sirit.NamedCalls
import Sirit.Numbering

/- When two names of a program stand for one id. What a program shares follows from its
   calls alone; the order in which a run makes them has no part in it. -/
namespace Sirit
open Interning Numbering
variable (pf : Platform) {ν : Type}

/-- What ids are for: the names of a program, the import of GLSL.std.450, and no thing. -/
inductive Token (ν : Type) where
  | name (x : ν)
  | glslImport
  | nothing

def Token.value (ρ : ν → Id) (set : Id) : Token ν → U32
  | .name x => (ρ x).value
  | .glslImport => set.value
  | .nothing => 0

/-- Names share an id if one is given back for the other, or if both are those of a type or
    constant, of one shape and with arguments that share ids. -/
inductive Shares (steps : List (ν × NamedCall ν)) : Token ν → Token ν → Prop where
  | refl (t : Token ν) : Shares steps t t
  | symm {t u : Token ν} : Shares steps t u → Shares steps u t
  | trans {t u v : Token ν} : Shares steps t u → Shares steps u v → Shares steps t v
  | unnamed {x : ν} : (∀ step ∈ steps, step.1 = x → step.2.defines = false) →
      Shares steps (.name x) .nothing
  | unimported : (∀ step ∈ steps, step.2.outline.isGlsl = false) →
      Shares steps .glslImport .nothing
  | argument {step : ν × NamedCall ν} {y : ν} : step ∈ steps →
      step.2.outline.returnsArgument = true → step.2.names.head? = some y →
      Shares steps (.name step.1) (.name y)
  | declared {step other : ν × NamedCall ν} {s : DeclShape} : step ∈ steps → other ∈ steps →
      step.2.outline.shape pf = some s → other.2.outline.shape pf = some s →
      step.2.names.length = other.2.names.length →
      (∀ pair ∈ step.2.names.zip other.2.names,
        Shares steps (.name pair.1) (.name pair.2)) →
      Shares steps (.name step.1) (.name other.1)

theorem shares_equivalence (steps : List (ν × NamedCall ν)) : Equivalence (Shares pf steps) :=
  ⟨.refl, .symm, .trans⟩

theorem Shares.subset {steps steps' : List (ν × NamedCall ν)}
    (same : ∀ step, step ∈ steps ↔ step ∈ steps') {t u : Token ν}
    (shares : Shares pf steps t u) : Shares pf steps' t u := by
  induction shares with
  | refl t => exact .refl t
  | symm _ ih => exact .symm ih
  | trans _ _ first second => exact .trans first second
  | unnamed other => exact .unnamed fun step member => other step ((same step).mpr member)
  | unimported none => exact .unimported fun step member => none step ((same step).mpr member)
  | argument member returns head => exact .argument ((same _).mp member) returns head
  | declared member member' shape shape' lengths _ ih =>
    exact .declared ((same _).mp member) ((same _).mp member') shape shape' lengths ih

theorem NamedCall.key_parts (n : NamedCall ν) {ρ : ν → Id} {e : Declaration}
    (action : (n.call ρ).action = .declare e) (given : ∀ x ∈ n.names, (ρ x).value ≠ 0) :
    n.outline.shape pf = some (e.key pf).shape ∧
      (e.key pf).ids = n.names.map fun x => (ρ x).value := by
  have arguments := n.given ρ
  rw [action] at arguments
  obtain ⟨d, _, rfl⟩ := Call.exists_declarationCall action
  have nonzero : ∀ x ∈ d.declaration.emission.arguments, x ≠ 0 := by
    intro x member
    rw [show d.declaration.emission.arguments = _ from arguments] at member
    obtain ⟨y, inside, rfl⟩ := List.mem_map.mp member
    exact given y inside
  refine ⟨?_, (d.ids_key pf nonzero).trans arguments⟩
  rw [n.outline_eq ρ, action]
  exact congrArg some (d.shape_blank pf nonzero)

theorem NamedCall.key_eq_iff (n n' : NamedCall ν) {ρ : ν → Id} {e e' : Declaration}
    (action : (n.call ρ).action = .declare e) (action' : (n'.call ρ).action = .declare e')
    (given : ∀ x ∈ n.names, (ρ x).value ≠ 0) (given' : ∀ x ∈ n'.names, (ρ x).value ≠ 0) :
    e.key pf = e'.key pf ↔ n.outline.shape pf = n'.outline.shape pf ∧
      (n.names.map fun x => (ρ x).value) = n'.names.map fun x => (ρ x).value := by
  obtain ⟨shape, ids⟩ := n.key_parts pf action given
  obtain ⟨shape', ids'⟩ := n'.key_parts pf action' given'
  rw [shape, shape', ← ids, ← ids', Option.some.injEq]
  constructor
  · intro same
    rw [same]
    exact ⟨rfl, rfl⟩
  · rintro ⟨shapes, names⟩
    exact DeclKey.eq_of_shape shapes names

theorem map_eq_map_iff_zip {α β : Type} {f : α → β} {xs ys : List α} :
    xs.map f = ys.map f ↔ xs.length = ys.length ∧ ∀ pair ∈ xs.zip ys, f pair.1 = f pair.2 := by
  rw [← List.forall₂_eq_eq_eq, List.forall₂_map_left_iff, List.forall₂_map_right_iff,
    List.forall₂_iff_zip]
  exact and_congr_right fun _ => ⟨fun all pair member => all member,
    fun all a b member => all (a, b) member⟩

theorem Listing.emit_new (l : Listing) (sec : Section) {e : Emission} {opId : OpId}
    (head : e.head = .opId opId) (few : l.ids + 1 < 2 ^ 32) :
    (l.emit pf sec e).1.value.toNat = l.ids + 1 ∧ (l.emit pf sec e).2.ids = l.ids + 1 := by
  refine ⟨?_, ?_⟩
  · simp only [Listing.emit, Emission.nextBound, head]
    exact Listing.bound_succ few
  · simp only [Listing.emit, Emission.results, head]

theorem Listing.step_argument {l : Listing} {c : Call} {id : Id}
    (returns : c.action.returnsArgument = true) (answer : (l.step pf c).1 = some id) :
    c.action.arguments.head? = some id.value := by
  unfold Listing.step at answer
  cases action : c.action with
  | emit sec e returned =>
    rw [action] at returns answer
    cases returned with
    | argument other =>
      obtain rfl := Option.some.inj answer
      rfl
    | _ => cases returns
  | addLabel label =>
    rw [action] at answer
    obtain rfl := Option.some.inj answer
    rfl
  | _ =>
    rw [action] at returns
    cases returns

theorem Listing.step_answer {l : Listing} {c : Call} {id : Id}
    (defines : c.action.defines = true) (plain : c.action.isGlsl = false)
    (answer : (l.step pf c).1 = some id) (few : (l.step pf c).2.ids < 2 ^ 32) :
    (id.value.toNat = l.ids + 1 ∧ (l.step pf c).2.ids = l.ids + 1) ∨
    (c.action.returnsArgument = true ∧ c.action.arguments.head? = some id.value) ∨
    ∃ e, c.action = .declare e ∧ (e.key pf, id.value) ∈ l.declarations.entries := by
  unfold Listing.step at answer few ⊢
  cases action : c.action with
  | emit sec e returned =>
    rw [action] at defines answer few
    cases returned with
    | endOp =>
      obtain ⟨reserved, head, operands⟩ := e
      cases head with
      | op opcode => cases defines
      | opId opId =>
        obtain rfl := Option.some.inj answer
        have grown : (l.emit pf sec ⟨reserved, .opId opId, operands⟩).2.ids = l.ids + 1 := rfl
        exact Or.inl (l.emit_new pf sec rfl (grown ▸ few))
    | nothing =>
      obtain ⟨reserved, head, operands⟩ := e
      cases head <;> cases defines
    | argument other =>
      obtain rfl := Option.some.inj answer
      exact Or.inr (Or.inl ⟨rfl, rfl⟩)
  | declare e =>
    rw [action] at answer few
    obtain rfl := Option.some.inj answer
    cases found : l.declarations.find (e.key pf) with
    | some i =>
      refine Or.inr (Or.inr ⟨e, rfl, ?_⟩)
      simp only [Listing.declare, Table.intern_known found]
      exact Table.mem_of_find found
    | none =>
      have grown : (l.perform pf (.declare e)).2.ids = l.ids + 1 := by
        simp only [Listing.perform, Listing.declare, found, Option.isSome_none,
          Bool.false_eq_true, if_false]
      refine Or.inl ⟨?_, grown⟩
      rw [grown] at few
      simp only [Listing.declare, Table.intern_new found]
      exact Listing.bound_succ few
  | deferPhi resultType blocks =>
    rw [action] at answer few
    obtain rfl := Option.some.inj answer
    exact Or.inl (l.emit_new pf .code rfl few)
  | glsl inst =>
    rw [action] at plain
    cases plain
  | addLabel label =>
    rw [action] at answer
    obtain rfl := Option.some.inj answer
    exact Or.inr (Or.inl ⟨rfl, rfl⟩)
  | opLabel =>
    rw [action] at answer few
    obtain rfl := Option.some.inj answer
    have within : l.ids + 1 < 2 ^ 32 := few
    refine Or.inl ⟨?_, rfl⟩
    exact Listing.bound_succ within
  | _ =>
    rw [action] at defines
    cases defines

theorem Listing.glsl_answer {l : Listing} {c : Call} {id : Id} {inst : GlslInst}
    (action : c.action = .glsl inst) (answer : (l.step pf c).1 = some id)
    (few : (l.step pf c).2.ids < 2 ^ 32) :
    id.value.toNat = (l.getGLSLstd450 pf).2.ids + 1 ∧
      (l.step pf c).2.ids = (l.getGLSLstd450 pf).2.ids + 1 ∧
      ((l.glslStd450.isSome = true ∧ (l.getGLSLstd450 pf).2.ids = l.ids) ∨
        (l.getGLSLstd450 pf).1.value.toNat = l.ids + 1 ∧
          (l.getGLSLstd450 pf).2.ids = l.ids + 1) := by
  rw [Listing.step, action] at answer few ⊢
  obtain rfl := Option.some.inj answer
  have grown : (l.perform pf (.glsl inst)).2.ids = (l.getGLSLstd450 pf).2.ids + 1 := rfl
  obtain ⟨number, ids⟩ := (l.getGLSLstd450 pf).2.emit_new pf .code
    (e := opExtInst inst.resultType (l.getGLSLstd450 pf).1 (pf.glslStd450 inst.opcode)
      inst.operands) rfl (grown ▸ few)
  refine ⟨number, ids, ?_⟩
  cases imported : l.glslStd450 with
  | some set =>
    refine Or.inl ⟨rfl, ?_⟩
    simp only [Listing.getGLSLstd450, imported]
  | none =>
    have first : (l.getGLSLstd450 pf).2.ids = l.ids + 1 := by
      simp only [Listing.getGLSLstd450, imported]
      rfl
    refine Or.inr ⟨?_, first⟩
    have within : l.ids + 1 < 2 ^ 32 := by omega
    simp only [Listing.getGLSLstd450, imported]
    exact (l.emit_new pf .extInstImports (e := glslStd450Import) rfl within).1

theorem callsOf_append (ρ : ν → Id) (before after : List (ν × NamedCall ν)) :
    callsOf ρ (before ++ after) = callsOf ρ before ++ callsOf ρ after := List.map_append

theorem listing_callsOf_snoc (version : U32) (ρ : ν → Id) (before : List (ν × NamedCall ν))
    (step : ν × NamedCall ν) : listing pf version (callsOf ρ (before ++ [step])) =
      ((listing pf version (callsOf ρ before)).step pf (step.2.call ρ)).2 := by
  rw [callsOf_append]
  exact listing_snoc pf version _ _

def importOf (version : U32) (ρ : ν → Id) (steps : List (ν × NamedCall ν)) : Id :=
  (listing pf version (callsOf ρ steps)).glslStd450.getD ⟨0⟩

theorem importOf_eq (version : U32) (ρ : ν → Id) {steps before after : List (ν × NamedCall ν)}
    (cut : steps = before ++ after) {set : Id}
    (imported : (listing pf version (callsOf ρ before)).glslStd450 = some set) :
    importOf pf version ρ steps = set := by
  have kept := run_glslStd450 pf imported (callsOf ρ after)
  rw [← listing_append, ← callsOf_append, ← cut] at kept
  rw [importOf, kept, Option.getD_some]

theorem ids_le (version : U32) (ρ : ν → Id) {steps before after : List (ν × NamedCall ν)}
    (cut : steps = before ++ after) : (listing pf version (callsOf ρ before)).ids ≤
      (listing pf version (callsOf ρ steps)).ids := by
  rw [cut, callsOf_append]
  exact listing_ids_append pf version _ _

def Token.number (ρ : ν → Id) (set : Id) (t : Token ν) : Nat := (t.value ρ set).toNat

def Known (before : List (ν × NamedCall ν)) (t : Token ν) : Prop :=
  (∃ step ∈ before, step.2.defines = true ∧ t = .name step.1) ∨
    t = .glslImport ∧ ∃ step ∈ before, step.2.outline.isGlsl = true

theorem Known.mono {before steps : List (ν × NamedCall ν)} {t : Token ν}
    (known : Known before t) (more : before ⊆ steps) : Known steps t := by
  rcases known with ⟨step, member, found⟩ | ⟨rfl, step, member, helper⟩
  · exact Or.inl ⟨step, more member, found⟩
  · exact Or.inr ⟨rfl, step, more member, helper⟩

theorem known_snoc {before : List (ν × NamedCall ν)} {step : ν × NamedCall ν} {t : Token ν} :
    Known (before ++ [step]) t ↔ Known before t ∨
      step.2.defines = true ∧ t = .name step.1 ∨
      step.2.outline.isGlsl = true ∧ t = .glslImport := by
  simp only [Known, List.mem_append, List.mem_singleton, or_and_right, exists_or,
    exists_eq_left]
  constructor
  · rintro ((old | new) | ⟨rfl, old | new⟩)
    · exact Or.inl (Or.inl old)
    · exact Or.inr (Or.inl new)
    · exact Or.inl (Or.inr ⟨rfl, old⟩)
    · exact Or.inr (Or.inr ⟨new, rfl⟩)
  · rintro ((old | ⟨rfl, old⟩) | new | ⟨new, rfl⟩)
    · exact Or.inl (Or.inl old)
    · exact Or.inr ⟨rfl, Or.inl old⟩
    · exact Or.inl (Or.inr new)
    · exact Or.inr ⟨rfl, Or.inr new⟩

section Resolved
variable {version : U32} {p : Program ν} {ρ : ν → Id}
  (resolved : Resolved pf version p.steps ρ)
include resolved

theorem entries_named {before after : List (ν × NamedCall ν)} (cut : p.steps = before ++ after) :
    ∀ e ∈ (listing pf version (callsOf ρ before)).declarations.entries,
      ∃ step ∈ before, ∃ d, (step.2.call ρ).action = .declare d ∧ d.key pf = e.1 ∧
        (ρ step.1).value = e.2 := by
  induction before using List.reverseRecOn generalizing after with
  | nil => exact fun e member => absurd member List.not_mem_nil
  | append_singleton before step ih =>
    rw [List.append_assoc, List.singleton_append] at cut
    have earlier := ih cut
    have kept : ∀ e ∈ (listing pf version (callsOf ρ before)).declarations.entries,
        ∃ other ∈ before ++ [step], ∃ d, (other.2.call ρ).action = .declare d ∧
          d.key pf = e.1 ∧ (ρ other.1).value = e.2 := by
      intro e member
      obtain ⟨other, inside, found⟩ := earlier e member
      exact ⟨other, List.mem_append_left _ inside, found⟩
    rw [listing_callsOf_snoc]
    by_cases declares : ∃ d, (step.2.call ρ).action = .declare d
    · obtain ⟨d, action⟩ := declares
      have answer := resolved.answered before step after cut (by
        rw [step.2.defines_eq ρ, action]
        rfl)
      rw [Listing.step, action] at answer ⊢
      have id : ((listing pf version (callsOf ρ before)).declarations.intern (d.key pf)
          ((listing pf version (callsOf ρ before)).bound + 1)).1 = (ρ step.1).value :=
        congrArg Id.value (Option.some.inj answer)
      intro e member
      simp only [Listing.perform, Listing.declare] at member
      cases found : (listing pf version (callsOf ρ before)).declarations.find (d.key pf) with
      | some i =>
        rw [Table.intern_known found] at member
        exact kept e member
      | none =>
        rw [Table.intern_new found] at member id
        rcases List.mem_append.mp member with old | new
        · exact kept e old
        · obtain rfl := List.mem_singleton.mp new
          exact ⟨step, by simp, d, action, rfl, id.symm⟩
    · rw [Listing.step_declarations pf _ fun d action => declares ⟨d, action⟩]
      exact kept

theorem declared_entry {step : ν × NamedCall ν} (member : step ∈ p.steps) {d : Declaration}
    (action : (step.2.call ρ).action = .declare d) : (d.key pf, (ρ step.1).value) ∈
      (listing pf version (callsOf ρ p.steps)).declarations.entries := by
  obtain ⟨before, after, cut⟩ := List.append_of_mem member
  have answer := resolved.answered before step after cut (by
    rw [step.2.defines_eq ρ, action]
    rfl)
  have whole : callsOf ρ p.steps =
      callsOf ρ before ++ step.2.call ρ :: callsOf ρ after := by
    rw [cut, callsOf_append]
    rfl
  rw [whole, listing_append, Runs.run_cons]
  apply Table.extends_mem (run_declarations_extends pf _ _)
  rw [Listing.step, action] at answer ⊢
  rw [← congrArg Id.value (Option.some.inj answer)]
  exact Table.intern_mem _ _ _

end Resolved

theorem known_of_supplied {p : Program ν} {before after : List (ν × NamedCall ν)}
    {step : ν × NamedCall ν} (cut : p.steps = before ++ step :: after) {x : ν}
    (used : x ∈ step.2.names) : Known before (.name x) := by
  obtain ⟨earlier, member, rfl, defines⟩ := p.supplied before step after cut x used
  exact Or.inl ⟨earlier, member, defines, rfl⟩

theorem NamedCall.isGlsl_eq (n : NamedCall ν) (ρ : ν → Id) :
    n.outline.isGlsl = (n.call ρ).isGlsl := by
  rw [n.outline_eq ρ, Action.isGlsl_rename]
  cases n.call ρ <;> rfl

theorem known_import {version : U32} {ρ : ν → Id} {before : List (ν × NamedCall ν)}
    (imported : (listing pf version (callsOf ρ before)).glslStd450.isSome = true) :
    Known before .glslImport := by
  have state := listing_imported pf version (callsOf ρ before)
  cases called : (callsOf ρ before).any Call.isGlsl with
  | false =>
    rw [called] at state
    rw [state.1] at imported
    cases imported
  | true =>
    obtain ⟨c, member, helper⟩ := List.any_eq_true.mp called
    obtain ⟨step, inside, rfl⟩ := List.mem_map.mp member
    exact Or.inr ⟨rfl, step, inside, (step.2.isGlsl_eq ρ).trans helper⟩

-- After a step, as before it, the known tokens have numbers up to the counter, and equal
-- ones only where the program shares ids.
section Step
variable {version : U32} {p : Program ν} {ρ : ν → Id}
  (resolved : Resolved pf version p.steps ρ)
  {before after : List (ν × NamedCall ν)} {step : ν × NamedCall ν}
  (cut : p.steps = before ++ step :: after)
  (separated : Separated (Token.number ρ (importOf pf version ρ p.steps)) (Shares pf p.steps)
    (Known before) (listing pf version (callsOf ρ before)).ids)

include separated in
theorem separated_undefining (undefining : step.2.defines = false) :
    Separated (Token.number ρ (importOf pf version ρ p.steps)) (Shares pf p.steps)
      (Known (before ++ [step]))
      ((listing pf version (callsOf ρ before)).step pf (step.2.call ρ)).2.ids := by
  refine separated.mono (Listing.ids_mono pf _ _) ?_
  intro t known
  rcases known_snoc.mp known with old | ⟨defines, _⟩ | ⟨helper, _⟩
  · exact old
  · rw [undefining] at defines
    cases defines
  · rw [NamedCall.defines] at undefining
    cases action : step.2.outline with
    | glsl inst =>
      rw [action] at undefining
      cases undefining
    | _ =>
      rw [action] at helper
      cases helper

include resolved cut separated in
theorem separated_glsl {inst : GlslInst} (action : (step.2.call ρ).action = .glsl inst)
    (few : ((listing pf version (callsOf ρ before)).step pf (step.2.call ρ)).2.ids < 2 ^ 32) :
    Separated (Token.number ρ (importOf pf version ρ p.steps)) (Shares pf p.steps)
      (Known (before ++ [step]))
      ((listing pf version (callsOf ρ before)).step pf (step.2.call ρ)).2.ids := by
  have answer := resolved.answered before step after cut (by
    rw [step.2.defines_eq ρ, action]
    rfl)
  obtain ⟨number, ids, imports⟩ := Listing.glsl_answer pf action answer few
  have set : importOf pf version ρ p.steps =
      ((listing pf version (callsOf ρ before)).getGLSLstd450 pf).1 := by
    have next : p.steps = (before ++ [step]) ++ after := by
      rw [cut, List.append_assoc, List.singleton_append]
    apply importOf_eq pf version ρ next
    rw [listing_callsOf_snoc, Listing.step, action]
    exact (listing pf version (callsOf ρ before)).getGLSLstd450_imported pf
  have imported : Separated (Token.number ρ (importOf pf version ρ p.steps))
      (Shares pf p.steps) (fun t => Known before t ∨ t = .glslImport)
      ((listing pf version (callsOf ρ before)).getGLSLstd450 pf).2.ids := by
    rcases imports with ⟨old, same⟩ | ⟨first, grown⟩
    · refine separated.mono (Nat.le_of_eq same.symm) ?_
      rintro t (known | rfl)
      · exact known
      · exact known_import pf old
    · have new : Token.number ρ (importOf pf version ρ p.steps) .glslImport =
          (listing pf version (callsOf ρ before)).ids + 1 := by
        rw [set]
        exact first
      refine separated.add_new ?_ ?_ (.refl _)
      · omega
      · omega
  have named := imported.add_new (t := .name step.1) (m := _)
    (Nat.lt_of_lt_of_eq (Nat.lt_succ_self _) number.symm) (Nat.le_of_eq (number.trans ids.symm))
    (.refl _)
  refine named.mono (Nat.le_refl _) ?_
  intro t known
  rcases known_snoc.mp known with old | ⟨_, rfl⟩ | ⟨_, rfl⟩
  · exact Or.inl (Or.inl old)
  · exact Or.inr rfl
  · exact Or.inl (Or.inr rfl)

theorem names_given {known : Token ν → Prop} {set : Id} {n : Nat}
    (separated : Separated (Token.number ρ set) (Shares pf p.steps) known n)
    {names : List ν} (all : ∀ x ∈ names, known (.name x)) : ∀ x ∈ names, (ρ x).value ≠ 0 := by
  intro x member zero
  have positive := separated.positive _ (all x member)
  simp only [Token.number, Token.value, zero] at positive
  exact absurd positive (by decide)

include resolved cut separated in
theorem separated_plain (defines : step.2.defines = true)
    (plain : (step.2.call ρ).action.isGlsl = false)
    (few : ((listing pf version (callsOf ρ before)).step pf (step.2.call ρ)).2.ids < 2 ^ 32) :
    Separated (Token.number ρ (importOf pf version ρ p.steps)) (Shares pf p.steps)
      (Known (before ++ [step]))
      ((listing pf version (callsOf ρ before)).step pf (step.2.call ρ)).2.ids := by
  have member : step ∈ p.steps := by simp [cut]
  have grows := Listing.ids_mono pf (listing pf version (callsOf ρ before)) (step.2.call ρ)
  have fewer : ∀ t, Known (before ++ [step]) t → Known before t ∨ t = .name step.1 := by
    intro t known
    rcases known_snoc.mp known with old | ⟨_, new⟩ | ⟨helper, _⟩
    · exact Or.inl old
    · exact Or.inr new
    · rw [step.2.outline_eq ρ, Action.isGlsl_rename, plain] at helper
      cases helper
  rcases Listing.step_answer pf ((step.2.defines_eq ρ).symm.trans defines) plain
    (resolved.answered before step after cut defines) few with
    ⟨number, ids⟩ | ⟨returns, head⟩ | ⟨d, action, entry⟩
  · refine (separated.add_new (t := .name step.1) ?_ ?_ (.refl _)).mono (Nat.le_refl _) fewer
    · exact Nat.lt_of_lt_of_eq (Nat.lt_succ_self _) number.symm
    · exact Nat.le_of_eq (number.trans ids.symm)
  · rw [step.2.given, List.head?_map, Option.map_eq_some_iff] at head
    obtain ⟨y, first, value⟩ := head
    have used : y ∈ step.2.names := List.mem_of_head? first
    rw [← Action.returnsArgument_rename, ← step.2.outline_eq ρ] at returns
    have same : Token.number ρ (importOf pf version ρ p.steps) (.name step.1) =
        Token.number ρ (importOf pf version ρ p.steps) (.name y) :=
      congrArg BitVec.toNat value.symm
    exact (separated.add_known (shares_equivalence pf p.steps) (known_of_supplied cut used)
      same (.argument member returns first) grows).mono (Nat.le_refl _) fewer
  · -- the earlier call of the same key had arguments that share ids with these
    obtain ⟨other, inside, d', action', key, value⟩ := entries_named pf resolved cut _ entry
    obtain ⟨first, last, split⟩ := List.append_of_mem inside
    have cut' : p.steps = first ++ other :: (last ++ step :: after) := by
      rw [cut, split, List.append_assoc, List.cons_append]
    have known : ∀ x ∈ step.2.names, Known before (.name x) :=
      fun x used => known_of_supplied cut used
    have known' : ∀ x ∈ other.2.names, Known before (.name x) := by
      intro x used
      rw [split]
      exact (known_of_supplied cut' used).mono (List.subset_append_left _ _)
    have given := names_given pf separated known
    have given' := names_given pf separated known'
    obtain ⟨shapes, values⟩ := (step.2.key_eq_iff pf other.2 action action' given given').mp
      key.symm
    obtain ⟨shape, _⟩ := step.2.key_parts pf action given
    obtain ⟨lengths, pairs⟩ := map_eq_map_iff_zip.mp values
    have shares : Shares pf p.steps (.name step.1) (.name other.1) := by
      refine .declared member (by simp [cut']) shape (shapes ▸ shape) lengths ?_
      intro pair listed
      obtain ⟨x, y⟩ := pair
      obtain ⟨here, there⟩ := List.of_mem_zip listed
      exact separated.shared _ _ (known x here) (known' y there)
        (congrArg BitVec.toNat (pairs _ listed))
    have old : Known before (.name other.1) := by
      refine Or.inl ⟨other, inside, ?_, rfl⟩
      rw [other.2.defines_eq ρ, action']
      rfl
    have same : Token.number ρ (importOf pf version ρ p.steps) (.name step.1) =
        Token.number ρ (importOf pf version ρ p.steps) (.name other.1) :=
      congrArg BitVec.toNat value.symm
    exact (separated.add_known (shares_equivalence pf p.steps) old same shares grows).mono
      (Nat.le_refl _) fewer

end Step

theorem known_or_nothing (steps : List (ν × NamedCall ν)) (t : Token ν) :
    Known steps t ∨ Shares pf steps t .nothing := by
  cases t with
  | name x =>
    by_cases defined : ∃ step ∈ steps, step.1 = x ∧ step.2.defines = true
    · obtain ⟨step, member, rfl, defines⟩ := defined
      exact Or.inl (Or.inl ⟨step, member, defines, rfl⟩)
    · refine Or.inr (.unnamed ?_)
      intro step member same
      by_contra defines
      exact defined ⟨step, member, same, Bool.not_eq_false _ ▸ defines⟩
  | glslImport =>
    by_cases called : ∃ step ∈ steps, step.2.outline.isGlsl = true
    · exact Or.inl (Or.inr ⟨rfl, called⟩)
    · refine Or.inr (.unimported ?_)
      intro step member
      by_contra helper
      exact called ⟨step, member, Bool.not_eq_false _ ▸ helper⟩
  | nothing => exact Or.inr (.refl _)

section Run
variable {version : U32} {p : Program ν} {ρ : ν → Id}
  (resolved : Resolved pf version p.steps ρ)
  (few : (listing pf version (callsOf ρ p.steps)).ids < 2 ^ 32)
include resolved few

theorem separated_before {before after : List (ν × NamedCall ν)}
    (cut : p.steps = before ++ after) :
    Separated (Token.number ρ (importOf pf version ρ p.steps)) (Shares pf p.steps)
      (Known before) (listing pf version (callsOf ρ before)).ids := by
  induction before using List.reverseRecOn generalizing after with
  | nil =>
    have none : ∀ t : Token ν, ¬ Known [] t := by
      rintro t (⟨step, member, _⟩ | ⟨_, step, member, _⟩)
      · exact absurd member List.not_mem_nil
      · exact absurd member List.not_mem_nil
    exact ⟨fun t known => absurd known (none t), fun t known => absurd known (none t),
      fun t u known => absurd known (none t)⟩
  | append_singleton before step ih =>
    have within := Nat.lt_of_le_of_lt (ids_le pf version ρ cut) few
    rw [List.append_assoc, List.singleton_append] at cut
    have separated := ih cut
    rw [listing_callsOf_snoc] at within ⊢
    cases defines : step.2.defines with
    | false => exact separated_undefining pf separated defines
    | true =>
      cases action : (step.2.call ρ).action with
      | glsl inst => exact separated_glsl pf resolved cut separated action within
      | _ =>
        refine separated_plain pf resolved cut separated defines ?_ within
        rw [action]
        rfl

theorem names_nonzero {step : ν × NamedCall ν} (member : step ∈ p.steps) :
    ∀ x ∈ step.2.names, (ρ x).value ≠ 0 := by
  obtain ⟨before, after, cut⟩ := List.append_of_mem member
  exact names_given pf (separated_before pf resolved few cut)
    fun x used => known_of_supplied cut used

theorem value_of_shares {t u : Token ν} (shares : Shares pf p.steps t u) :
    t.value ρ (importOf pf version ρ p.steps) = u.value ρ (importOf pf version ρ p.steps) := by
  induction shares with
  | refl t => rfl
  | symm _ ih => exact ih.symm
  | trans _ _ first second => exact first.trans second
  | unnamed other => exact congrArg Id.value (resolved.unnamed _ other)
  | unimported none =>
    have state := listing_imported pf version (callsOf ρ p.steps)
    have uncalled : (callsOf ρ p.steps).any Call.isGlsl = false := by
      rw [List.any_eq_false]
      intro c member
      obtain ⟨step, inside, rfl⟩ := List.mem_map.mp member
      rw [← step.2.isGlsl_eq ρ, none step inside]
      exact Bool.false_ne_true
    rw [uncalled] at state
    simp only [Token.value, importOf, state.1, Option.getD_none]
  | @argument step y member returns head =>
    obtain ⟨before, after, cut⟩ := List.append_of_mem member
    rw [step.2.outline_eq ρ, Action.returnsArgument_rename] at returns
    have defines := (step.2.defines_eq ρ).trans (Action.defines_of_returnsArgument returns)
    have first := Listing.step_argument pf returns
      (resolved.answered before step after cut defines)
    rw [step.2.given ρ, List.head?_map, head, Option.map_some] at first
    exact (Option.some.inj first).symm
  | @declared step other s member member' shape shape' lengths _ ih =>
    have declares : ∀ n : NamedCall ν, n.outline.shape pf = some s →
        ∃ d, (n.call ρ).action = .declare d := by
      intro n shaped
      rw [n.outline_eq ρ] at shaped
      cases action : (n.call ρ).action with
      | declare d => exact ⟨d, rfl⟩
      | _ =>
        rw [action] at shaped
        cases shaped
    obtain ⟨d, action⟩ := declares step.2 shape
    obtain ⟨d', action'⟩ := declares other.2 shape'
    have key := (step.2.key_eq_iff pf other.2 action action'
      (names_nonzero pf resolved few member) (names_nonzero pf resolved few member')).mpr
      ⟨shape.trans shape'.symm, map_eq_map_iff_zip.mpr ⟨lengths, ih⟩⟩
    have entry := declared_entry pf resolved member action
    rw [key] at entry
    exact Table.identifier_unique _ entry (declared_entry pf resolved member' action')

/-- In every run two names stand for one id exactly when the program has them share it. -/
theorem value_eq_iff (t u : Token ν) :
    t.value ρ (importOf pf version ρ p.steps) = u.value ρ (importOf pf version ρ p.steps) ↔
      Shares pf p.steps t u := by
  have separated := separated_before pf resolved few (List.append_nil p.steps).symm
  have nothing : ∀ {t u : Token ν}, Known p.steps t → Shares pf p.steps u .nothing →
      t.value ρ (importOf pf version ρ p.steps) ≠
        u.value ρ (importOf pf version ρ p.steps) := by
    intro t u known none same
    have positive := separated.positive t known
    have zero : t.value ρ (importOf pf version ρ p.steps) = 0 :=
      same.trans (value_of_shares pf resolved few none)
    rw [Token.number, zero] at positive
    exact absurd positive (by decide)
  constructor
  · intro same
    rcases known_or_nothing pf p.steps t with known | none <;>
      rcases known_or_nothing pf p.steps u with known' | none'
    · exact separated.shared t u known known' (congrArg BitVec.toNat same)
    · exact absurd same (nothing known none')
    · exact absurd same.symm (nothing known' none)
    · exact none.trans none'.symm
  · exact value_of_shares pf resolved few

end Run

end Sirit
