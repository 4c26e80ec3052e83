import Mathlib.Data.List.Nodup

/- Interning: a table gives every key one identifier. A key seen before gets the
   identifier it already has, a new key gets a fresh one at the end of the table. -/
namespace Interning
variable {κ ι : Type}

section Lookup
variable [BEq κ] [LawfulBEq κ] {entries : List (κ × ι)} {k : κ}

theorem lookup_eq_none_iff_keys : entries.lookup k = none ↔ k ∉ entries.map Prod.fst := by
  rw [List.lookup_eq_none_iff]
  constructor
  · intro absent member
    obtain ⟨e, inside, same⟩ := List.mem_map.mp member
    have other := absent e inside
    simp [same] at other
  · intro absent e inside
    have other : k ≠ e.1 := by
      intro same
      exact absent (List.mem_map.mpr ⟨e, inside, same.symm⟩)
    simpa using other

theorem lookup_eq_some_iff_mem (distinct : (entries.map Prod.fst).Nodup) {i : ι} :
    entries.lookup k = some i ↔ (k, i) ∈ entries := by
  constructor
  · intro found
    obtain ⟨before, after, split, _⟩ := List.lookup_eq_some_iff.mp found
    simp [split]
  · intro member
    cases found : entries.lookup k with
    | none => exact absurd (List.mem_map_of_mem member) (lookup_eq_none_iff_keys.mp found)
    | some j =>
      obtain ⟨before, after, split, _⟩ := List.lookup_eq_some_iff.mp found
      have listed : (k, j) ∈ entries := by simp [split]
      have same := List.inj_on_of_nodup_map distinct listed member rfl
      rw [(Prod.mk.inj same).2]

theorem nodup_keys_add (distinct : (entries.map Prod.fst).Nodup)
    (absent : entries.lookup k = none) (i : ι) :
    ((entries ++ [(k, i)]).map Prod.fst).Nodup := by
  have new := lookup_eq_none_iff_keys.mp absent
  rw [List.map_append, List.nodup_append]
  refine ⟨distinct, by simp, ?_⟩
  intro a ha b hb same
  simp only [List.map_cons, List.map_nil, List.mem_singleton] at hb
  exact new (hb ▸ same ▸ ha)

end Lookup

structure Table (κ ι : Type) where
  entries : List (κ × ι)
  distinct : (entries.map Prod.fst).Nodup

def Table.empty : Table κ ι := ⟨[], List.nodup_nil⟩

def Table.Extends (t u : Table κ ι) : Prop := t.entries <+: u.entries

theorem Table.extends_refl (t : Table κ ι) : t.Extends t := List.prefix_refl _

theorem Table.extends_trans {t u v : Table κ ι} (first : t.Extends u)
    (second : u.Extends v) : t.Extends v := first.trans second

theorem Table.extends_mem {t u : Table κ ι} (grown : t.Extends u) {e : κ × ι}
    (member : e ∈ t.entries) : e ∈ u.entries := grown.subset member

theorem Table.identifier_unique (t : Table κ ι) {k : κ} {i j : ι}
    (hi : (k, i) ∈ t.entries) (hj : (k, j) ∈ t.entries) : i = j := by
  have same := List.inj_on_of_nodup_map t.distinct hi hj rfl
  exact (Prod.mk.inj same).2

theorem Table.key_unique (t : Table κ ι) (unique : (t.entries.map Prod.snd).Nodup)
    {k l : κ} {i : ι} (hk : (k, i) ∈ t.entries) (hl : (l, i) ∈ t.entries) : k = l := by
  have same := List.inj_on_of_nodup_map unique hk hl rfl
  exact (Prod.mk.inj same).1

section Find
variable [DecidableEq κ]

def Table.find (k : κ) (t : Table κ ι) : Option ι := t.entries.lookup k

theorem Table.mem_of_find {t : Table κ ι} {k : κ} {i : ι} (found : t.find k = some i) :
    (k, i) ∈ t.entries := by
  obtain ⟨before, after, split, _⟩ := List.lookup_eq_some_iff.mp found
  simp [split]

def Table.add (k : κ) (i : ι) (t : Table κ ι) (absent : t.find k = none) : Table κ ι where
  entries := t.entries ++ [(k, i)]
  distinct := nodup_keys_add t.distinct absent i

def Table.intern (k : κ) (fresh : ι) (t : Table κ ι) : ι × Table κ ι :=
  match found : t.find k with
  | some i => (i, t)
  | none => (fresh, t.add k fresh found)

theorem Table.intern_known {t : Table κ ι} {k : κ} {i : ι} (found : t.find k = some i)
    (fresh : ι) : t.intern k fresh = (i, t) := by
  unfold Table.intern
  split
  · rename_i j known
    rw [Option.some.inj (known.symm.trans found)]
  · rename_i unknown
    rw [found] at unknown
    cases unknown

theorem Table.intern_new {t : Table κ ι} {k : κ} (absent : t.find k = none) (fresh : ι) :
    t.intern k fresh = (fresh, t.add k fresh absent) := by
  unfold Table.intern
  split
  · rename_i j known
    rw [absent] at known
    cases known
  · rfl

theorem Table.intern_extends (t : Table κ ι) (k : κ) (fresh : ι) :
    t.Extends (t.intern k fresh).2 := by
  cases found : t.find k with
  | some i => rw [Table.intern_known found]; exact t.extends_refl
  | none => rw [Table.intern_new found]; exact List.prefix_append _ _

theorem Table.intern_mem (t : Table κ ι) (k : κ) (fresh : ι) :
    (k, (t.intern k fresh).1) ∈ (t.intern k fresh).2.entries := by
  cases found : t.find k with
  | some i => rw [Table.intern_known found]; exact Table.mem_of_find found
  | none => rw [Table.intern_new found]; simp [Table.add]

/-- Two requests, however far apart, get one identifier exactly when they ask for one
    key, as long as the table never gave one identifier to two keys. -/
theorem Table.intern_twice_iff {t u : Table κ ι} {k l : κ} {fresh fresh' : ι}
    (grown : (t.intern k fresh).2.Extends u)
    (unique : ((u.intern l fresh').2.entries.map Prod.snd).Nodup) :
    (t.intern k fresh).1 = (u.intern l fresh').1 ↔ k = l := by
  have first := Table.extends_mem (grown.trans (u.intern_extends l fresh'))
    (t.intern_mem k fresh)
  have second := u.intern_mem l fresh'
  constructor
  · intro same
    exact Table.key_unique _ unique (same ▸ first) second
  · intro same
    subst same
    exact Table.identifier_unique _ first second

end Find

/-- Every key refers to identifiers of earlier entries only. -/
inductive Closed (refers : κ → List ι) : List (κ × ι) → Prop where
  | nil : Closed refers []
  | snoc {entries : List (κ × ι)} {k : κ} (i : ι) : Closed refers entries →
      (∀ j ∈ refers k, j ∈ entries.map Prod.snd) → Closed refers (entries ++ [(k, i)])

theorem Closed.exists_before {refers : κ → List ι} {entries : List (κ × ι)} {e : κ × ι}
    (closed : Closed refers entries) (member : e ∈ entries) :
    ∃ before after, entries = before ++ e :: after ∧
      ∀ j ∈ refers e.1, j ∈ before.map Prod.snd := by
  induction closed with
  | nil => exact absurd member List.not_mem_nil
  | @snoc entries k i _ known ih =>
    rcases List.mem_append.mp member with old | new
    · obtain ⟨before, after, cut, earlier⟩ := ih old
      refine ⟨before, after ++ [(k, i)], ?_, earlier⟩
      rw [cut, List.append_assoc, List.cons_append]
    · obtain rfl := List.mem_singleton.mp new
      exact ⟨entries, [], rfl, known⟩

theorem Closed.intern [DecidableEq κ] {refers : κ → List ι} {t : Table κ ι} {k : κ}
    (closed : Closed refers t.entries)
    (known : ∀ j ∈ refers k, j ∈ t.entries.map Prod.snd) (fresh : ι) :
    Closed refers (t.intern k fresh).2.entries := by
  cases found : t.find k with
  | some i =>
    rw [Table.intern_known found]
    exact closed
  | none =>
    rw [Table.intern_new found]
    exact closed.snoc fresh known

/-- The elements of a list without those that repeat the key of an earlier one, or a key
    of `seen`. Elements without a key all stay. -/
def firsts {α : Type} [DecidableEq κ] (key : α → Option κ) (seen : List κ) :
    List α → List α
  | [] => []
  | a :: as =>
      match key a with
      | none => a :: firsts key seen as
      | some k => if k ∈ seen then firsts key seen as else a :: firsts key (k :: seen) as

section Firsts
variable {α : Type} [DecidableEq κ] {k : α → κ}

theorem mem_keys_firsts {seen : List κ} {as : List α} {x : κ} :
    x ∈ (firsts (fun a => some (k a)) seen as).map k ↔ x ∈ as.map k ∧ x ∉ seen := by
  induction as generalizing seen with
  | nil => simp [firsts]
  | cons a as ih =>
    simp only [firsts]
    split
    · rename_i here
      rw [ih, List.map_cons, List.mem_cons]
      constructor
      · rintro ⟨later, new⟩
        exact ⟨Or.inr later, new⟩
      · rintro ⟨rfl | later, new⟩
        · exact absurd here new
        · exact ⟨later, new⟩
    · rename_i here
      rw [List.map_cons, List.mem_cons, ih, List.map_cons, List.mem_cons, List.mem_cons, not_or]
      by_cases same : x = k a
      · subst same
        simp [here]
      · simp [same]

theorem firsts_snoc {seen : List κ} {as : List α} {a : α} :
    firsts (fun a => some (k a)) seen (as ++ [a]) =
      firsts (fun a => some (k a)) seen as ++ if k a ∈ seen ∨ k a ∈ as.map k then [] else [a] := by
  induction as generalizing seen with
  | nil =>
    simp only [List.nil_append, firsts, List.map_nil, List.not_mem_nil, or_false]
  | cons b as ih =>
    simp only [List.cons_append, firsts, List.map_cons, List.mem_cons]
    split
    · rename_i here
      rw [ih]
      congr 1
      by_cases same : k a = k b
      · simp [same, here]
      · simp [same]
    · rw [ih, List.cons_append]
      simp only [List.mem_cons, or_assoc, or_left_comm]

theorem firsts_map {β κ' : Type} [DecidableEq κ'] {f : α → β} {k' : β → κ'} {as : List α}
    {seen : List κ} {seen' : List κ'}
    (same : ∀ a ∈ as, ∀ b ∈ as, k a = k b ↔ k' (f a) = k' (f b))
    (met : ∀ a ∈ as, k a ∈ seen ↔ k' (f a) ∈ seen') :
    firsts (fun b => some (k' b)) seen' (as.map f) =
      (firsts (fun a => some (k a)) seen as).map f := by
  induction as generalizing seen seen' with
  | nil => rfl
  | cons a as ih =>
    have rest : ∀ b ∈ as, ∀ c ∈ as, k b = k c ↔ k' (f b) = k' (f c) := fun b hb c hc =>
      same b (List.mem_cons_of_mem _ hb) c (List.mem_cons_of_mem _ hc)
    simp only [List.map_cons, firsts, ← met a List.mem_cons_self]
    split
    · exact ih rest fun b member => met b (List.mem_cons_of_mem _ member)
    · rw [List.map_cons]
      congr 1
      apply ih rest
      intro b member
      rw [List.mem_cons, List.mem_cons, met b (List.mem_cons_of_mem _ member),
        same b (List.mem_cons_of_mem _ member) a List.mem_cons_self]

end Firsts

theorem lookup_map_injective {κ' : Type} [BEq κ] [LawfulBEq κ] [BEq κ'] [LawfulBEq κ']
    {f : κ → κ'}
    (injective : Function.Injective f) (entries : List (κ × ι)) (k : κ) :
    (entries.map fun e => (f e.1, e.2)).lookup (f k) = entries.lookup k := by
  induction entries with
  | nil => rfl
  | cons e entries ih =>
    obtain ⟨l, i⟩ := e
    simp only [List.map_cons, List.lookup_cons, ih]
    by_cases same : k = l
    · simp [same]
    · have other : f k ≠ f l := fun h => same (injective h)
      simp only [beq_eq_false_iff_ne.mpr same, beq_eq_false_iff_ne.mpr other]

end Interning
