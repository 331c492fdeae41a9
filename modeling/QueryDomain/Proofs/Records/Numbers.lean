import QueryDomain.Proofs.Binary64.Integers
import QueryDomain.Proofs.Domain.Wire
import QueryDomain.Proofs.Records.ParentLinks

/-! Numbers of two kinds. An integer and a float are compared as the numbers that they are, and a float
that is read as an integer is that integer, as long as no rounding takes one number for another: an
integer past 53 bits for a double beside it, or a double past 64 bits for the last integer. -/
namespace QueryDomain

open List

namespace Binary64

/-- The double is within the integers of 64 bits. -/
def Fits (x : Binary64) : Prop := -(Json.int64Limit : ℚ) ≤ x.value ∧ x.value < Json.int64Limit

theorem compare?_of_not_isFinite {x y : Binary64} (hx : x.isFinite = true)
    (hy : y.isFinite = false) : x.compare? y ≠ some .eq := by
  rw [compare?]
  split
  · exact fun h => by cases h
  · intro h
    have hkey : x.key = y.key := compare_eq_iff_eq.1 (Option.some.inj h)
    rw [isFinite_iff, hkey, ← isFinite_iff, hy] at hx
    cases hx

theorem ofInt_compare?_eq_eq {n : Int} {x : Binary64} (hx : x.isFinite = true) :
    (ofInt n).compare? x = some .eq ↔ x.value = n ∨ Blurs n x := by
  by_cases hblurs : Blurs n x
  · exact iff_of_true hblurs.compare? (.inr hblurs)
  · rw [ofInt_compare? hx hblurs, Option.some.injEq, compare_eq_iff_eq, or_iff_left hblurs, eq_comm]

end Binary64

namespace Value

variable {v w : Value} {p : ℚ} {x : Binary64} {n : Int}

def number? : Value → Option ℚ
  | int n => some n
  | float x => if x.isFinite then some x.value else none
  | _ => none

/-- An integer and a float that is another number but that the integer is rounded to. -/
def Blurs : Value → Value → Prop
  | int n, float x => Binary64.Blurs n x
  | float x, int n => Binary64.Blurs n x
  | _, _ => False

theorem compare?_int_float : (int n).compare? (float x) = (Binary64.ofInt n).compare? x := rfl

theorem compare?_float_int_eq_some {o : Ordering} :
    (float x).compare? (int n) = some o ↔ (int n).compare? (float x) = some o.swap := by
  have hswap : (float x).compare? (int n) = ((int n).compare? (float x)).map Ordering.swap :=
    Binary64.compare?_swap _ _
  rw [hswap, Option.map_eq_some_iff]
  constructor
  · rintro ⟨o, h, rfl⟩
    rwa [Ordering.swap_swap]
  · exact fun h => ⟨o.swap, h, o.swap_swap⟩

/-- An integer and a double are in the order of the numbers that they are, unless the double is what
the integer is rounded to. -/
theorem compare?_int_float_iff (hx : x.isFinite = true) :
    (int n).compare? (float x) = some (compare (n : ℚ) x.value) ↔ ¬Binary64.Blurs n x := by
  refine ⟨fun h hblurs => hblurs.ne ?_, Binary64.ofInt_compare? hx⟩
  rw [compare?_int_float, hblurs.compare?, Option.some.injEq, eq_comm, compare_eq_iff_eq] at h
  exact h.symm

theorem compare?_float_int_iff (hx : x.isFinite = true) :
    (float x).compare? (int n) = some (compare x.value (n : ℚ)) ↔ ¬Binary64.Blurs n x := by
  have hswap : (compare x.value (n : ℚ)).swap = compare (n : ℚ) x.value := by
    rw [← cmp_eq_compare, ← cmp_eq_compare, cmp_swap]
  rw [compare?_float_int_eq_some, hswap, compare?_int_float_iff hx]

theorem equals_eq_true (hv : v.isNull = false) : v.equals w = true ↔ v.compare? w = some .eq := by
  rw [equals, hv, Bool.false_and, Bool.false_or, beq_iff_eq]

theorem isFinite_ofInt (h : (int n).isWritable = true) : (Binary64.ofInt n).isFinite = true := by
  simp only [isWritable, Json.isInt64, Bool.and_eq_true, decide_eq_true_eq] at h
  rw [Json.int64Limit] at h
  exact Binary64.isFinite_ofInt (by omega)

theorem number?_float : (float x).number? = some p ↔ x.isFinite = true ∧ x.value = p := by
  rw [number?]
  split <;> simp_all

theorem equals_number (hv : v.isWritable = true) (hp : v.number? = some p) :
    v.equals w = true ↔ w.number? = some p ∨ v.Blurs w := by
  cases v with
  | int n =>
    obtain rfl : (n : ℚ) = p := Option.some.inj hp
    rw [equals_eq_true rfl]
    cases w with
    | int m => simp [compare?, number?, Blurs, eq_comm (a := m)]
    | float x =>
      rw [compare?_int_float, number?_float, Blurs]
      by_cases hx : x.isFinite = true
      · rw [Binary64.ofInt_compare?_eq_eq hx, and_iff_right hx]
      · refine iff_of_false ?_ fun h => hx (h.elim And.left Binary64.Blurs.finite)
        exact Binary64.compare?_of_not_isFinite (isFinite_ofInt hv) (Bool.eq_false_iff.2 hx)
    | _ => simp [compare?, number?, Blurs]
  | float x =>
    obtain ⟨hx, rfl⟩ := number?_float.1 hp
    rw [equals_eq_true rfl]
    cases w with
    | int n =>
      rw [compare?_float_int_eq_some, Ordering.swap_eq, compare?_int_float,
        Binary64.ofInt_compare?_eq_eq hx, number?, Option.some.injEq, eq_comm, Blurs]
    | float y =>
      have hblurs : ¬(float x).Blurs (float y) := id
      rw [number?_float, or_iff_left hblurs, compare?]
      by_cases hy : y.isFinite = true
      · rw [Binary64.compare?_eq hx hy, Option.some.injEq, compare_eq_iff_eq, and_iff_right hy, eq_comm]
      · refine iff_of_false ?_ fun h => hy h.1
        exact Binary64.compare?_of_not_isFinite hx (Bool.eq_false_iff.2 hy)
    | _ => simp [compare?, number?, Blurs]
  | _ => cases hp

theorem asInt?_float : (float x).asInt? = some n ↔
    x.isFinite = true ∧ ∃ m : Int, x.value = m ∧ clampInt64 m = n := by
  rw [asInt?]
  constructor
  · intro h
    split at h
    · rename_i hintegral
      exact ⟨(Binary64.isIntegral_eq_true.1 hintegral).1, x.truncate,
        (Binary64.truncate_of_isIntegral hintegral).symm, Option.some.inj h⟩
    · cases h
  · rintro ⟨hx, m, hm, rfl⟩
    have hintegral : x.isIntegral = true := (Binary64.isIntegral_iff hx).2 ⟨m, hm⟩
    have htruncate : x.truncate = m := by
      exact_mod_cast (Binary64.truncate_of_isIntegral hintegral).trans hm
    rw [if_pos hintegral, htruncate]

theorem clampInt64_eq_iff {m : Int} : clampInt64 m = n ↔
    (-Json.int64Limit ≤ m ∧ m < Json.int64Limit ∧ m = n) ∨
      (Json.int64Limit ≤ m ∧ n = Json.int64Limit - 1) ∨ (m < -Json.int64Limit ∧ n = -Json.int64Limit) := by
  rw [clampInt64, Json.int64Limit]
  omega

theorem value_eq_iff_fits (h : (float x).asInt? = some n) : x.value = n ↔ x.Fits := by
  obtain ⟨-, m, hm, hclamp⟩ := asInt?_float.1 h
  rw [Binary64.Fits, hm]
  norm_cast
  obtain h | h | h := clampInt64_eq_iff.1 hclamp <;> rw [Json.int64Limit] at * <;> omega

theorem asInt?_of_fits (hx : x.isFinite = true) (hfits : x.Fits) :
    (float x).asInt? = some n ↔ x.value = n := by
  refine ⟨fun h => (value_eq_iff_fits h).2 hfits, fun h => asInt?_float.2 ⟨hx, n, h, ?_⟩⟩
  rw [Binary64.Fits, h] at hfits
  norm_cast at hfits
  exact clampInt64_eq_iff.2 (.inl ⟨hfits.1, hfits.2, rfl⟩)

def Names (v : Value) (p : Int) : Prop :=
  v.number? = some (p : ℚ) ∨ ∃ s, v = text s ∧ readInt? (Text.trim s) = some p

theorem asInt?_eq_some_iff (hfits : ∀ x, v = float x → x.isFinite = true → x.Fits) :
    v.asInt? = some n ↔ v.Names n := by
  cases v with
  | float x =>
    simp only [Names, reduceCtorEq, false_and, exists_false, or_false, number?_float]
    constructor
    · intro h
      have hx := (asInt?_float.1 h).1
      exact ⟨hx, (asInt?_of_fits hx (hfits x rfl hx)).1 h⟩
    · exact fun h => (asInt?_of_fits h.1 (hfits x rfl h.1)).2 h.2
  | _ => simp [asInt?, Names, number?]

end Value

namespace ValueSet

theorem holds_number {s : ValueSet} {v : Value} {p : ℚ} (hv : v.isWritable = true)
    (hp : v.number? = some p) :
    s.holds v = true ↔ ∃ m ∈ s.values, m.number? = some p ∨ v.Blurs m := by
  simp only [holds, any_eq_true, Value.equals_number hv hp]

end ValueSet

def Catalog.NamesParent (catalog : Catalog) (entity : Entity) (field : Field) (x p : Int) : Prop :=
  ∃ r, catalog.record? entity.name x = some r ∧
    (field.valueOf (Record.get? r field.name)).Names p

namespace Hierarchy

variable {ctx : Context} {c : Condition} {target : Entity} {parent : String} {field : Field}
  {ids : List Int}

section Fitting

variable (hfield : target.field? parent = some field)
  (hfits : ∀ r ∈ ctx.catalog.records target.name, ∀ x,
    field.valueOf (Record.get? r field.name) = .float x → x.isFinite = true → x.Fits)

include hfield hfits

theorem read_named (frontier : List Int) :
    ∃ values, ctx.catalog.readField target frontier parent = .ok values ∧
      ∀ p, p ∈ (values.filterMap fun (_, value) => value.asInt?) ↔
        ∃ x ∈ frontier, ctx.catalog.NamesParent target field x p := by
  unfold Catalog.readField
  rw [hfield]
  refine ⟨_, rfl, fun p => ?_⟩
  simp only [mem_filterMap, Option.map_eq_some_iff, Catalog.NamesParent]
  constructor
  · rintro ⟨_, ⟨x, hx, r, hr, rfl⟩, hp⟩
    exact ⟨x, hx, r, hr, (Value.asInt?_eq_some_iff (hfits r (mem_of_find?_eq_some hr))).1 hp⟩
  · rintro ⟨x, hx, r, hr, hp⟩
    exact ⟨_, ⟨x, hx, r, hr, rfl⟩,
      (Value.asInt?_eq_some_iff (hfits r (mem_of_find?_eq_some hr))).2 hp⟩

theorem exists_ancestors_named (hpath : usesPath target parent = false) (hids : ids.Nodup) :
    ∃ found, (ancestors c ctx target parent ids).result = .ok (idIn found) ∧ found.Nodup ∧
      ∀ y, y ∈ found ↔
        ∃ s ∈ ids, Relation.ReflTransGen (ctx.catalog.NamesParent target field) s y := by
  have hrequired : requireParent c target parent = .ok () := by rw [requireParent, hfield]
  refine exists_ancestors_of_read hpath hrequired ?_ (read_named hfield hfits) hids
  rintro x p ⟨r, hr, -⟩
  exact mem_filterMap.2 ⟨r, mem_of_find?_eq_some hr, by simpa using find?_some hr⟩

end Fitting

end Hierarchy

namespace Value

open Hierarchy in
/-- Numbers are kept apart. An integer and a finite double are compared as the numbers that they are
unless the integer is rounded to that double, which only happens to integers past 53 bits that are no
double. A float that is read as an integer is that integer exactly within 64 bits. So values are
equal and members are found by their numbers but for those roundings, and a walk up whose links fit
64 bits comes to the records that they name. -/
theorem numbers_exact (n : Int) (x : Binary64) :
    (x.isFinite = true →
      ((int n).compare? (float x) = some (compare (n : ℚ) x.value) ↔ ¬Binary64.Blurs n x) ∧
      ((float x).compare? (int n) = some (compare x.value (n : ℚ)) ↔ ¬Binary64.Blurs n x)) ∧
    (Binary64.Blurs n x → 2 ^ 53 < n.natAbs ∧ ∀ y : Binary64, y.value ≠ n) ∧
    ((float x).asInt? = some n → x.isFinite = true ∧ (x.value = n ↔ x.Fits)) ∧
    (x.isFinite = true → x.Fits → ((float x).asInt? = some n ↔ x.value = n)) ∧
    (∀ (v w : Value) p, v.isWritable = true → v.number? = some p →
      (v.equals w = true ↔ w.number? = some p ∨ v.Blurs w)) ∧
    (∀ (s : ValueSet) v p, v.isWritable = true → v.number? = some p →
      (s.holds v = true ↔ ∃ m ∈ s.values, m.number? = some p ∨ v.Blurs m)) ∧
    ∀ (ctx : Context) c target parent field ids, target.field? parent = some field →
      (∀ r ∈ ctx.catalog.records target.name, ∀ x,
        field.valueOf (Record.get? r field.name) = float x → x.isFinite = true → x.Fits) →
      usesPath target parent = false → ids.Nodup →
      ∃ found, (ancestors c ctx target parent ids).result = .ok (idIn found) ∧ found.Nodup ∧
        ∀ y, y ∈ found ↔
          ∃ s ∈ ids, Relation.ReflTransGen (ctx.catalog.NamesParent target field) s y := by
  refine ⟨fun hx => ⟨compare?_int_float_iff hx, compare?_float_int_iff hx⟩,
    fun hblurs => ⟨hblurs.lt_natAbs, fun y => ?_⟩,
    fun h => ⟨(asInt?_float.1 h).1, value_eq_iff_fits h⟩, asInt?_of_fits,
    fun v w p => equals_number, fun s v p => ValueSet.holds_number,
    fun ctx c target parent field ids => exists_ancestors_named⟩
  rw [← Binary64.keyValue_key]
  exact hblurs.keyValue_ne y.key

open Hierarchy Optimizer in
/-- 2 ^ 53 + 1 is ordered beside the double after it, blurred with the one before it, and found where
that is. That one is read as 2 ^ 53 and leads on as a parent. -/
theorem numbers_exact_past_53_bits :
    let below : Binary64 := ⟨false, 0x4340000000000000⟩
    let above : Binary64 := ⟨false, 0x4340000000000001⟩
    let n : Int := 9007199254740993
    let link : Field := .many2one "parent_id" "node"
    let entity : Entity := { name := "node", fields := [link] }
    let catalog : Catalog :=
      { entities := [entity]
        tables := [("node", [[("id", .integer 1), ("parent_id", .float below)],
          [("id", .integer 9007199254740992)]])] }
    let ctx := standard.contextAt catalog 1 .search entity
    (above.isFinite = true ∧
      ((int n).compare? (float above) = some (compare (n : ℚ) above.value) ↔
        ¬Binary64.Blurs n above) ∧
      ((float above).compare? (int n) = some (compare above.value (n : ℚ)) ↔
        ¬Binary64.Blurs n above)) ∧
    (Binary64.Blurs n below ∧ 2 ^ 53 < n.natAbs ∧ ∀ y : Binary64, y.value ≠ n) ∧
    ((float below).asInt? = some 9007199254740992 ∧
      (below.value = (9007199254740992 : Int) ↔ below.Fits)) ∧
    (below.isFinite = true ∧ below.Fits ∧ ((float below).asInt? = some n ↔ below.value = n)) ∧
    ((int n).isWritable = true ∧ (int n).number? = some (n : ℚ) ∧
      ((int n).equals (float below) = true ↔
        (float below).number? = some (n : ℚ) ∨ (int n).Blurs (float below)) ∧
      ((ValueSet.singleton (float below)).holds (int n) = true ↔
        ∃ m ∈ [float below], m.number? = some (n : ℚ) ∨ (int n).Blurs m)) ∧
    entity.field? "parent_id" = some link ∧
    (∀ r ∈ catalog.records "node", ∀ x, link.valueOf (Record.get? r "parent_id") = float x →
      x.isFinite = true → x.Fits) ∧
    usesPath entity "parent_id" = false ∧
    ∃ found, (ancestors (among "id" .parentOf [1]) ctx entity "parent_id" [1]).result =
        .ok (idIn found) ∧ found.Nodup ∧
      ∀ y, y ∈ found ↔ ∃ s ∈ [1], Relation.ReflTransGen (catalog.NamesParent entity link) s y := by
  intro below above n link entity catalog ctx
  obtain ⟨hcompare, -⟩ := numbers_exact n above
  obtain ⟨-, hblurs, -, hfits, hequals, hholds, hwalk⟩ := numbers_exact n below
  obtain ⟨-, -, hread, -⟩ := numbers_exact 9007199254740992 below
  have hvalue : below.value = 9007199254740992 := by
    norm_num [below, Binary64.value, Binary64.significand, Binary64.exponent,
      Binary64.fractionLimit]
  have hbelow : below.isFinite = true := by decide
  have hblurred : Binary64.Blurs n below := by
    refine ⟨hbelow, by decide, ?_⟩
    norm_num [hvalue, n]
  have hbelowFits : below.Fits := by
    norm_num [Binary64.Fits, hvalue, Json.int64Limit]
  have hasInt : (float below).asInt? = some 9007199254740992 := by decide
  have hfield : entity.field? "parent_id" = some link := by cbv
  have hlinks : ∀ r ∈ catalog.records "node", ∀ x,
      link.valueOf (Record.get? r "parent_id") = float x → x.isFinite = true → x.Fits := by
    refine forall_mem_cons.2 ⟨fun x hx _ => ?_, forall_mem_singleton.2 fun x hx => ?_⟩
    · have hfirst : link.valueOf (Record.get? [("id", .integer 1), ("parent_id", .float below)]
          "parent_id") = float below := by cbv
      rw [hfirst] at hx
      exact Value.float.inj hx ▸ hbelowFits
    · have hsecond : link.valueOf (Record.get? [("id", .integer 9007199254740992)]
          "parent_id") = null := by cbv
      rw [hsecond] at hx
      cases hx
  exact ⟨⟨by decide, hcompare (by decide)⟩, ⟨hblurred, hblurs hblurred⟩,
    ⟨hasInt, (hread hasInt).2⟩, ⟨hbelow, hbelowFits, hfits hbelow hbelowFits⟩,
    ⟨by decide, rfl, hequals _ _ _ (by decide) rfl, hholds _ _ _ (by decide) rfl⟩,
    hfield, hlinks, rfl, hwalk ctx _ entity "parent_id" link [1] hfield hlinks rfl (by decide)⟩

open Hierarchy Optimizer in
/-- 2 ^ 53 + 1 equals the double 2 ^ 53, and the double 2 ^ 63 is read as the integer before it, to
which a search for the records above then leads. -/
theorem numbers_not_exact :
    let rounded : Binary64 := ⟨false, 0x4340000000000000⟩
    let beyond : Binary64 := ⟨false, 0x43e0000000000000⟩
    let n : Int := 9007199254740993
    let last : Int := 9223372036854775807
    let entity : Entity := { name := "node", fields := [.many2one "parent_id" "node"] }
    let catalog : Catalog :=
      { entities := [entity]
        tables := [("node", [[("id", .integer 1), ("parent_id", .integer 9223372036854775808)],
          [("id", .integer last)]])] }
    (rounded.isFinite = true ∧ rounded.value < n ∧ (int n).compare? (float rounded) = some .eq ∧
      (float rounded).compare? (int n) = some .eq ∧ (int n).equals (float rounded) = true ∧
      (ValueSet.singleton (float rounded)).holds (int n) = true) ∧
    (beyond.isFinite = true ∧ (float beyond).asInt? = some last ∧ beyond.value ≠ last) ∧
    (catalog.search entity (.condition (among "id" .parentOf [1]))).result = .ok [1, last] := by
  intro rounded beyond n last entity catalog
  have hle : 3 ≤ defaultDepth := by decide
  refine ⟨⟨by decide, ?_, by decide, by decide, by decide, by decide⟩,
    ⟨by decide, by decide, ?_⟩,
    Catalog.searchWithin_of_le hle (Except.toOption_eq_some.1 (by decide +kernel))⟩
  · norm_num [rounded, n, Binary64.value, Binary64.significand, Binary64.exponent,
      Binary64.fractionLimit]
  · norm_num [beyond, last, Binary64.value, Binary64.significand, Binary64.exponent,
      Binary64.fractionLimit]

end Value

end QueryDomain
