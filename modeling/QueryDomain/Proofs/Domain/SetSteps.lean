import Mathlib.Data.List.Induction
import Std.Data.HashSet.Lemmas
import QueryDomain.Proofs.Domain.Sets

/-! Sets of values made step by step. Whatever the steps, no value is in the set twice, the values
stand in the order of their first occurrence, and the set holds what the steps say. Telling new
values by a hash table comes to the same as looking through the set. -/
namespace QueryDomain

open List

namespace Binary64

/-- What a double is hashed by: its bits, but one key for both zeros and one for everything that is
not a number. -/
def hashKey (x : Binary64) : Nat :=
  if x.isZero then 0
  else if x.isNaN then nan.magnitude
  else x.magnitude + if x.negative then 2048 * fractionLimit else 0

theorem hashKey_eq_iff {x y : Binary64} : x.hashKey = y.hashKey ↔ x.same y = true := by
  obtain ⟨xneg, xmag⟩ := x
  obtain ⟨yneg, ymag⟩ := y
  simp only [hashKey, same, key, isZero, isNaN, nan, infinityWord, fractionLimit]
  cases xneg <;> cases yneg <;> grind

theorem same_iff_eq_or {x y : Binary64} : x.same y = true ↔
    x = y ∨ (x.isZero = true ∧ y.isZero = true) ∨ (x.isNaN = true ∧ y.isNaN = true) := by
  obtain ⟨xneg, xmag⟩ := x
  obtain ⟨yneg, ymag⟩ := y
  simp only [same, key, isZero, isNaN, mk.injEq]
  cases xneg <;> cases yneg <;> grind

end Binary64

inductive HashInput where
  | null
  | bool (value : Bool)
  | int (value : Int)
  | float (key : Nat)
  | text (value : String)
  | date (value : Date)
  | timestamp (value : Timestamp)

namespace Value

theorem same_trans {u v w : Value} (huv : u.same v = true) (hvw : v.same w = true) :
    u.same w = true := by
  rw [same_iff] at huv hvw ⊢
  exact huv.trans hvw

theorem same_congr {v w : Value} (h : v.same w = true) (u : Value) : v.same u = w.same u := by
  rw [Bool.eq_iff_iff, same_iff, same_iff, same_iff.1 h]

def hashInput : Value → HashInput
  | null => .null
  | bool value => .bool value
  | int value => .int value
  | float value => .float value.hashKey
  | text value => .text value
  | date value => .date value
  | timestamp value => .timestamp value

theorem hashInput_eq_iff {v w : Value} : v.hashInput = w.hashInput ↔ v.same w = true := by
  cases v <;> cases w <;> simp [hashInput, same, Binary64.hashKey_eq_iff]

theorem same_iff_eq_or {v w : Value} : v.same w = true ↔ v = w ∨ ∃ x y, v = .float x ∧
    w = .float y ∧ ((x.isZero = true ∧ y.isZero = true) ∨ (x.isNaN = true ∧ y.isNaN = true)) := by
  cases v <;> cases w <;> simp [same, Binary64.same_iff_eq_or]

end Value

structure Hashed (hash : HashInput → UInt64) where
  value : Value

namespace Hashed

variable {hash : HashInput → UInt64}

instance : BEq (Hashed hash) := ⟨fun v w => v.value.same w.value⟩

instance : Hashable (Hashed hash) := ⟨fun v => hash v.value.hashInput⟩

instance : EquivBEq (Hashed hash) where
  rfl := Value.same_refl _
  symm h := (Value.same_comm _ _).trans h
  trans := Value.same_trans

instance : LawfulHashable (Hashed hash) where
  hash_eq _ _ h := congrArg hash (Value.hashInput_eq_iff.2 h)

end Hashed

namespace ValueSet

def keepNew (hash : HashInput → UInt64) (seen : Std.HashSet (Hashed hash)) :
    List Value → List Value
  | [] => []
  | value :: rest =>
    if seen.contains ⟨value⟩ then keepNew hash seen rest
    else value :: keepNew hash (seen.insert ⟨value⟩) rest

theorem keepNew_eq_fresh {hash : HashInput → UInt64} {table : Std.HashSet (Hashed hash)}
    {seen : List Value} (h : ∀ v, table.contains ⟨v⟩ = seen.any (·.same v)) (values : List Value) :
    keepNew hash table values = fresh seen values := by
  induction values generalizing table seen with
  | nil => rfl
  | cons v vs ih =>
    rw [keepNew, fresh, h]
    split
    · exact ih h
    · congr 1
      refine ih fun w => ?_
      rw [Std.HashSet.contains_insert, h, any_cons]
      rfl

theorem fresh_congr {seen seen' : List Value}
    (h : ∀ v, seen.any (·.same v) = seen'.any (·.same v)) (values : List Value) :
    fresh seen values = fresh seen' values := by
  induction values generalizing seen seen' with
  | nil => rfl
  | cons v vs ih =>
    have hcons (w : Value) : (v :: seen).any (·.same w) = (v :: seen').any (·.same w) := by
      rw [any_cons, any_cons, h]
    rw [fresh, fresh, h, ih h, ih hcons]

theorem fresh_append (seen values others : List Value) :
    fresh seen (values ++ others) = fresh seen values ++ fresh (values ++ seen) others := by
  induction values generalizing seen with
  | nil => rfl
  | cons v vs ih =>
    rw [cons_append, fresh, fresh]
    split
    · rename_i hv
      rw [ih]
      congr 1
      refine fresh_congr (fun w => ?_) others
      obtain ⟨u, hu, huv⟩ := any_eq_true.1 hv
      rw [cons_append, any_cons, Bool.eq_iff_iff, Bool.or_eq_true, iff_or_self]
      intro hvw
      rw [any_append, Bool.or_eq_true]
      exact .inr (any_eq_true.2 ⟨u, hu, Value.same_trans huv hvw⟩)
    · rw [ih, cons_append]
      congr 2
      refine fresh_congr (fun w => ?_) others
      simp only [cons_append, any_cons, any_append, Bool.or_left_comm]

/-- The values, each where no equal one is before it. -/
def firsts (values : List Value) : List Value :=
  (values.zipIdx.filter fun p => !(values.take p.2).any (·.same p.1)).map Prod.fst

theorem firsts_concat (values : List Value) (v : Value) :
    firsts (values ++ [v]) =
      firsts values ++ if values.any (·.same v) then [] else [v] := by
  have hkept : values.zipIdx.filter (fun p => !((values ++ [v]).take p.2).any (·.same p.1)) =
      values.zipIdx.filter fun p => !(values.take p.2).any (·.same p.1) := by
    refine filter_congr fun p hp => ?_
    rw [take_append_of_le_length (Nat.le_of_lt (snd_lt_of_mem_zipIdx hp))]
  rw [firsts, zipIdx_append, filter_append, hkept, map_append, firsts]
  congr 1
  cases hv : values.any (·.same v) <;> simp [hv]

/-- What one pass with a memory keeps is what has no equal before it. -/
theorem fresh_eq_firsts (values : List Value) : fresh [] values = firsts values := by
  induction values using List.reverseRecOn with
  | nil => rfl
  | append_singleton vs v ih =>
    rw [fresh_append, ih, firsts_concat, append_nil, fresh, fresh, fresh]

def Apart (values : List Value) : Prop := values.Pairwise fun v w => v.same w = false

theorem fresh_not_seen {seen values : List Value} {v : Value} (hv : v ∈ fresh seen values) :
    seen.any (·.same v) = false := by
  induction values generalizing seen with
  | nil => cases hv
  | cons w ws ih =>
    rw [fresh] at hv
    split at hv
    · exact ih hv
    · rename_i hw
      obtain rfl | hv := mem_cons.1 hv
      · exact Bool.eq_false_iff.2 hw
      · have := ih hv
        rw [any_cons, Bool.or_eq_false_iff] at this
        exact this.2

theorem apart_fresh (seen values : List Value) : Apart (fresh seen values) := by
  induction values generalizing seen with
  | nil => exact .nil
  | cons v vs ih =>
    rw [fresh]
    split
    · exact ih seen
    · refine pairwise_cons.2 ⟨fun w hw => ?_, ih _⟩
      have := fresh_not_seen hw
      rw [any_cons, Bool.or_eq_false_iff] at this
      exact this.1

theorem fresh_of_apart {values : List Value} (h : Apart values) (seen : List Value) :
    fresh seen values = values.filter fun v => !seen.any (·.same v) := by
  induction values generalizing seen with
  | nil => rfl
  | cons v vs ih =>
    obtain ⟨hv, hvs⟩ := pairwise_cons.1 h
    rw [fresh, filter_cons]
    cases hseen : seen.any (·.same v) with
    | true => exact ih hvs seen
    | false =>
      rw [if_neg Bool.false_ne_true, ih hvs]
      refine congrArg (v :: ·) (filter_congr fun w hw => ?_)
      rw [any_cons, hv w hw, Bool.false_or]

theorem ofList_of_apart {values : List Value} (h : Apart values) : ofList values = ⟨values⟩ := by
  rw [ofList, fresh_of_apart h]
  simp

theorem apart_values_ofList (values : List Value) : Apart (ofList values).values :=
  apart_fresh [] values

theorem contains_congr {v w : Value} (h : v.same w = true) (s : ValueSet) :
    s.contains v = s.contains w := by
  unfold contains
  congr 1
  funext u
  rw [Value.same_comm, Value.same_congr h, Value.same_comm]

theorem contains_ofList (values : List Value) (v : Value) :
    (ofList values).contains v = values.any (·.same v) :=
  any_ofList (fun _ _ h => Value.same_congr h v) values

theorem values_insert (s : ValueSet) (v : Value) :
    (s.insert v).1.values = if s.contains v then s.values else s.values ++ [v] := by
  rw [insert]
  split <;> rfl

theorem insert_snd (s : ValueSet) (v : Value) : (s.insert v).2 = !s.contains v := by
  rw [insert]
  split
  · rename_i h
    rw [h]
    rfl
  · rename_i h
    rw [Bool.eq_false_iff.2 h]
    rfl

theorem contains_insert (s : ValueSet) (v w : Value) :
    (s.insert v).1.contains w = (s.contains w || v.same w) := by
  rw [contains, values_insert]
  split
  · rename_i hv
    cases hvw : v.same w with
    | false => exact (Bool.or_false _).symm
    | true => rw [← contains_congr hvw, hv, Bool.true_or, ← hv, contains_congr hvw, contains]
  · rw [any_append, any_cons, any_nil, Bool.or_false, contains]

theorem contains_union (s t : ValueSet) (v : Value) :
    (s.union t).contains v = (s.contains v || t.contains v) := by
  rw [union, contains_ofList, any_append, contains, contains]

theorem contains_ofList_filter {p : Value → Bool} (hp : ∀ v w : Value, v.same w = true → p v = p w)
    (s : ValueSet) (v : Value) :
    (ofList (s.values.filter p)).contains v = (s.contains v && p v) := by
  have htest : (fun u => p u && u.same v) = fun u => u.same v && p v := by
    funext u
    cases huv : u.same v with
    | false => rw [Bool.and_false, Bool.false_and]
    | true => rw [hp u v huv, Bool.and_comm]
  rw [contains_ofList, any_filter, htest, contains]
  cases p v <;> simp

theorem contains_intersection (s t : ValueSet) (v : Value) :
    (s.intersection t).contains v = (s.contains v && t.contains v) :=
  contains_ofList_filter (fun _ _ h => contains_congr h t) s v

theorem contains_difference (s t : ValueSet) (v : Value) :
    (s.difference t).contains v = (s.contains v && !t.contains v) :=
  contains_ofList_filter (fun _ _ h => congrArg not (contains_congr h t)) s v

theorem apart_insert {s : ValueSet} (h : Apart s.values) (v : Value) :
    Apart (s.insert v).1.values := by
  rw [values_insert]
  split
  · exact h
  · rename_i hv
    refine pairwise_append.2 ⟨h, pairwise_singleton _ v, fun u hu w hw => ?_⟩
    rw [mem_singleton.1 hw, Bool.eq_false_iff]
    exact fun huv => hv (any_eq_true.2 ⟨u, hu, huv⟩)

theorem values_union {s t : ValueSet} (hs : Apart s.values) (ht : Apart t.values) :
    (s.union t).values = s.values ++ t.values.filter fun v => !s.contains v := by
  have hfirst : fresh [] s.values = s.values := congrArg values (ofList_of_apart hs)
  rw [union, ofList, fresh_append, append_nil, fresh_of_apart ht, hfirst]
  rfl

theorem values_intersection {s : ValueSet} (hs : Apart s.values) (t : ValueSet) :
    (s.intersection t).values = s.values.filter t.contains := by
  rw [intersection, ofList_of_apart (hs.filter _)]

theorem values_difference {s : ValueSet} (hs : Apart s.values) (t : ValueSet) :
    (s.difference t).values = s.values.filter fun v => !t.contains v := by
  rw [difference, ofList_of_apart (hs.filter _)]

def insertAll (values : List Value) : ValueSet :=
  values.foldl (fun s value => (s.insert value).1) empty

theorem insert_ofList (values : List Value) (v : Value) :
    ((ofList values).insert v).1 = ofList (values ++ [v]) := by
  rw [insert, contains_ofList, ofList, ofList, fresh_append, append_nil, fresh, fresh]
  split
  · rw [append_nil]
  · rfl

theorem insertAll_eq_ofList (values : List Value) : insertAll values = ofList values := by
  induction values using List.reverseRecOn with
  | nil => rfl
  | append_singleton vs v ih =>
    have hstep : insertAll (vs ++ [v]) = ((insertAll vs).insert v).1 := by
      rw [insertAll, foldl_append]
      rfl
    rw [hstep, ih, insert_ofList]

/-- The steps in which a set is made. -/
inductive Steps where
  | ofList (values : List Value)
  | insert (steps : Steps) (value : Value)
  | union (first second : Steps)
  | intersection (first second : Steps)
  | difference (first second : Steps)

namespace Steps

def set : Steps → ValueSet
  | ofList values => ValueSet.ofList values
  | insert steps value => (steps.set.insert value).1
  | union first second => first.set.union second.set
  | intersection first second => first.set.intersection second.set
  | difference first second => first.set.difference second.set

def has : Steps → Value → Bool
  | ofList values, v => values.any (·.same v)
  | insert steps value, v => steps.has v || value.same v
  | union first second, v => first.has v || second.has v
  | intersection first second, v => first.has v && second.has v
  | difference first second, v => first.has v && !second.has v

/-- The values by first occurrence: a new one goes to the end, and what is taken away leaves the
others where they are. -/
def listing : Steps → List Value
  | ofList values => firsts values
  | insert steps value => if steps.has value then steps.listing else steps.listing ++ [value]
  | union first second => first.listing ++ second.listing.filter fun v => !first.has v
  | intersection first second => first.listing.filter second.has
  | difference first second => first.listing.filter fun v => !second.has v

theorem contains_set (steps : Steps) : steps.set.contains = steps.has := by
  funext v
  induction steps generalizing v with
  | ofList values => exact contains_ofList values v
  | insert steps value ih => rw [set, contains_insert, ih, has]
  | union first second ih ih' => rw [set, contains_union, ih, ih', has]
  | intersection first second ih ih' => rw [set, contains_intersection, ih, ih', has]
  | difference first second ih ih' => rw [set, contains_difference, ih, ih', has]

theorem apart_set (steps : Steps) : Apart steps.set.values := by
  induction steps with
  | ofList values => exact apart_values_ofList values
  | insert steps value ih => exact apart_insert ih value
  | union | intersection | difference => exact apart_values_ofList _

theorem values_set (steps : Steps) : steps.set.values = steps.listing := by
  induction steps with
  | ofList values => exact fresh_eq_firsts values
  | insert steps value ih =>
    rw [set, values_insert, ih, contains_set, listing]
  | union first second ih ih' =>
    rw [set, values_union first.apart_set second.apart_set, ih, ih', contains_set, listing]
  | intersection first second ih =>
    rw [set, values_intersection first.apart_set, ih, contains_set, listing]
  | difference first second ih =>
    rw [set, values_difference first.apart_set, ih, contains_set, listing]

end Steps

/-- However a set is made, it lists no value twice, it lists them by first occurrence, it contains
what the steps say, and inserting tells what is new. A hash table, whatever its hash function, and a
look through the set find the same values new; they are those that are equal to none before them,
where only zeros and floats that are not numbers are equal without being the same. -/
theorem set_made_in_steps :
    (∀ steps : Steps, steps.set.values.Pairwise (fun v w => v.same w = false) ∧
      steps.set.values = steps.listing ∧ (∀ v, steps.set.contains v = steps.has v) ∧
      ∀ v, (steps.set.insert v).2 = !steps.has v) ∧
    (∀ hash values, (⟨keepNew hash ∅ values⟩ : ValueSet) = insertAll values ∧
      insertAll values = ofList values) ∧
    ∀ v w : Value, v.same w = true ↔ v = w ∨ ∃ x y, v = .float x ∧ w = .float y ∧
      ((x.isZero = true ∧ y.isZero = true) ∨ (x.isNaN = true ∧ y.isNaN = true)) := by
  refine ⟨fun steps => ⟨steps.apart_set, steps.values_set, ?_, ?_⟩, fun hash values => ⟨?_, ?_⟩,
    fun v w => Value.same_iff_eq_or⟩
  · exact congrFun steps.contains_set
  · intro v
    rw [insert_snd, steps.contains_set]
  · have hempty (v : Value) : (∅ : Std.HashSet (Hashed hash)).contains ⟨v⟩ =
        ([] : List Value).any (·.same v) := Std.HashSet.contains_empty
    rw [insertAll_eq_ofList, keepNew_eq_fresh hempty]
    rfl
  · exact insertAll_eq_ofList values

end ValueSet

end QueryDomain
