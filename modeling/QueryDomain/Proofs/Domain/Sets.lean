import QueryDomain.Proofs.Domain.Canonical

/-! Sets of values: no value occurs twice in what their operations return, and the operations mean
what they are named for. -/
namespace QueryDomain.ValueSet

open List

def IsDistinct (s : ValueSet) : Prop := fresh [] s.values = s.values

theorem fresh_sublist (seen values : List Value) : (fresh seen values).Sublist values := by
  induction values generalizing seen with
  | nil => exact .slnil
  | cons v vs ih =>
    rw [fresh]
    split
    · exact (ih seen).cons v
    · exact (ih (v :: seen)).cons_cons v

theorem isDistinct_iff_length {s : ValueSet} :
    s.IsDistinct ↔ (fresh [] s.values).length = s.values.length :=
  ⟨congrArg List.length, (fresh_sublist [] s.values).eq_of_length⟩

@[simp] theorem isDistinct_canonical {s : ValueSet} : s.canonical.IsDistinct ↔ s.IsDistinct := by
  rw [isDistinct_iff_length, isDistinct_iff_length]
  have h := canonical_fresh [] s.values
  rw [List.map_nil] at h
  simp only [canonical, ← h, List.length_map]

theorem fresh_fresh {seen seen' : List Value} (values : List Value)
    (h : ∀ v, seen'.any (·.same v) = true → seen.any (·.same v) = true) :
    fresh seen' (fresh seen values) = fresh seen values := by
  induction values generalizing seen seen' with
  | nil => rfl
  | cons v vs ih =>
    rw [fresh]
    split
    · exact ih h
    · rename_i hseen
      rw [fresh, if_neg fun h' => hseen (h v h'), ih]
      intro w hw
      simp only [any_cons, Bool.or_eq_true] at hw ⊢
      exact hw.imp_right (h w)

theorem isDistinct_ofList (values : List Value) : (ofList values).IsDistinct :=
  fresh_fresh values fun _ h => h

theorem eq_singleton {s : ValueSet} {w : Value} (hsome : s.isEmpty = false)
    (hdistinct : s.IsDistinct) (hall : ∀ v ∈ s.values, v = w) : s = singleton w := by
  obtain ⟨values⟩ := s
  match values, hsome, hdistinct, hall with
  | v :: rest, _, hdistinct, hall =>
    rw [forall_mem_cons] at hall
    obtain ⟨rfl, hrest⟩ := hall
    have hnil : ∀ us : List Value, (∀ u ∈ us, u = v) → fresh [v] us = [] := by
      intro us hus
      induction us with
      | nil => rfl
      | cons u us ih =>
        rw [forall_mem_cons] at hus
        rw [fresh, if_pos (by simp [hus.1, Value.same_refl]), ih hus.2]
    have hdistinct' : v :: fresh [v] rest = v :: rest := hdistinct
    rw [hnil rest hrest, cons.injEq] at hdistinct'
    rw [← hdistinct'.2]
    rfl

theorem same_congr {s t : ValueSet} (h : s.same t = true) (u : ValueSet) :
    s.same u = t.same u := by
  rw [Bool.eq_iff_iff, same_iff, same_iff, same_iff.1 h]

theorem length_eq_of_same {s t : ValueSet} (h : s.same t = true) :
    s.values.length = t.values.length := by
  have := congrArg (fun u : ValueSet => u.values.length) (same_iff.1 h)
  simpa [canonical] using this

theorem eq_null_of_same {s : ValueSet} (h : s.same (singleton .null) = true) :
    ∀ v ∈ s.values, v = .null := by
  intro v hv
  have hmem : v.canonical ∈ s.canonical.values := mem_map_of_mem hv
  rw [same_iff.1 h] at hmem
  have hnull : v.canonical = .null := mem_singleton.1 hmem
  cases v with
  | null => rfl
  | _ => cases hnull

theorem contains_eq_true {s : ValueSet} {v : Value} :
    s.contains v = true ↔ ∃ w ∈ s.values, w.canonical = v.canonical := by
  simp [contains, Value.same_iff]

theorem any_fresh {p : Value → Bool} (hp : ∀ v w : Value, v.same w = true → p v = p w)
    {seen : List Value} (values : List Value) (h : seen.any p = false) :
    (fresh seen values).any p = values.any p := by
  induction values generalizing seen with
  | nil => rfl
  | cons w ws ih =>
    rw [fresh, any_cons]
    split
    · rename_i hseen
      obtain ⟨u, hu, huw⟩ := any_eq_true.1 hseen
      have hw : p w = false := by
        rw [← hp u w huw, Bool.eq_false_iff]
        exact any_eq_false.1 h u hu
      rw [ih h, hw, Bool.false_or]
    · cases hw : p w with
      | true => simp [hw]
      | false => rw [any_cons, ih (by simp [hw, h]), hw]

theorem any_ofList {p : Value → Bool} (hp : ∀ v w : Value, v.same w = true → p v = p w)
    (values : List Value) : (ofList values).values.any p = values.any p :=
  any_fresh hp values rfl

/-- It does not matter whether values are picked by their canonical form before or after repeated
ones are dropped. -/
theorem filter_fresh {p : Value → Bool} (hp : ∀ v w : Value, v.same w = true → p v = p w)
    (seen values : List Value) :
    (fresh seen values).filter p = fresh (seen.filter p) (values.filter p) := by
  induction values generalizing seen with
  | nil => rfl
  | cons v vs ih =>
    cases hv : p v with
    | false =>
      rw [filter_cons_of_neg (by simp [hv]), fresh]
      split
      · exact ih seen
      · rw [filter_cons_of_neg (by simp [hv]), ih, filter_cons_of_neg (by simp [hv])]
    | true =>
      have hseen : (seen.filter p).any (·.same v) = seen.any (·.same v) := by
        rw [any_filter]
        congr 1
        funext u
        cases hu : u.same v with
        | false => simp
        | true => simp [hp u v hu, hv]
      rw [filter_cons_of_pos hv, fresh, fresh, hseen]
      split
      · exact ih seen
      · rw [filter_cons_of_pos hv, ih, filter_cons_of_pos hv]

theorem ofList_filter_ofList {p : Value → Bool}
    (hp : ∀ v w : Value, v.same w = true → p v = p w) (values : List Value) :
    ofList ((ofList values).values.filter p) = ofList (values.filter p) := by
  rw [ofList, ofList, filter_fresh hp, filter_nil, fresh_fresh _ fun _ h => h]
  rfl

end QueryDomain.ValueSet
