import QueryDomain.Proofs.Sql.Lowering

/-! Parameters and placeholders. What is bound are the literals of the domain from left to right,
and the text is cut by exactly as many placeholders, in the same order. Inside a query written by
hand they stand where its markers were. -/
namespace QueryDomain

open List

/-- Chunks of text with the placeholders from an index on between them. -/
def Dialect.weave (dialect : Dialect) : Nat → List String → String
  | _, [] => ""
  | _, [chunk] => chunk
  | index, chunk :: chunks =>
    chunk ++ dialect.placeholder index ++ weave dialect (index + 1) chunks

theorem Dialect.weave_cons {dialect : Dialect} {index : Nat} {chunk : String}
    {chunks : List String} (h : chunks ≠ []) : dialect.weave index (chunk :: chunks) =
      chunk ++ dialect.placeholder index ++ dialect.weave (index + 1) chunks := by
  cases chunks with
  | nil => exact absurd rfl h
  | cons next chunks => rfl

namespace Text

/-- Two texts in chunks, one after the other: the last chunk of the first goes on with the first
chunk of the second. -/
def glue : List String → List String → List String
  | [], chunks => chunks
  | [chunk], [] => [chunk]
  | [chunk], next :: chunks => (chunk ++ next) :: chunks
  | chunk :: next :: chunks, others => chunk :: glue (next :: chunks) others

theorem glue_cons {chunk : String} {chunks : List String} (h : chunks ≠ []) (others : List String) :
    glue (chunk :: chunks) others = chunk :: glue chunks others := by
  cases chunks with
  | nil => exact absurd rfl h
  | cons next chunks => rw [glue]

end Text

namespace Piece

def chunks : List Piece → List String
  | [] => [""]
  | text sql :: pieces => Text.glue [sql] (chunks pieces)
  | param _ :: pieces => "" :: chunks pieces

variable {ps qs : List Piece}

theorem chunks_ne_nil (ps : List Piece) : chunks ps ≠ [] := by
  cases ps with
  | nil => simp [chunks]
  | cons p ps =>
    cases p with
    | text sql => cases hchunks : chunks ps <;> simp [chunks, hchunks, Text.glue]
    | param v => simp [chunks]

theorem chunks_text (sql : String) (ps : List Piece) :
    ∃ chunk rest, chunks ps = chunk :: rest ∧ chunks (text sql :: ps) = (sql ++ chunk) :: rest := by
  obtain ⟨chunk, rest, hchunks⟩ := exists_cons_of_ne_nil (chunks_ne_nil ps)
  refine ⟨chunk, rest, hchunks, ?_⟩
  rw [chunks, hchunks, Text.glue]

theorem length_chunks (ps : List Piece) : (chunks ps).length = (params ps).length + 1 := by
  induction ps with
  | nil => rfl
  | cons p ps ih =>
    cases p with
    | text sql =>
      obtain ⟨chunk, rest, hchunks, htext⟩ := chunks_text sql ps
      rw [htext]
      rw [hchunks] at ih
      exact ih
    | param v =>
      rw [chunks, length_cons, ih]
      rfl

theorem join_texts (dialect : Dialect) (index : Nat) (ps : List Piece) :
    String.join (texts dialect index ps) = dialect.weave index (chunks ps) := by
  induction ps generalizing index with
  | nil => rfl
  | cons p ps ih =>
    cases p with
    | text sql =>
      obtain ⟨chunk, rest, hchunks, htext⟩ := chunks_text sql ps
      rw [texts, String.join_cons, ih, hchunks, htext]
      cases rest with
      | nil => rfl
      | cons next rest => simp only [Dialect.weave, String.append_assoc]
    | param v =>
      rw [texts, String.join_cons, ih, chunks, Dialect.weave_cons (chunks_ne_nil ps),
        String.empty_append]

theorem chunks_append (ps qs : List Piece) :
    chunks (ps ++ qs) = Text.glue (chunks ps) (chunks qs) := by
  induction ps with
  | nil =>
    obtain ⟨chunk, rest, hchunks⟩ := exists_cons_of_ne_nil (chunks_ne_nil qs)
    rw [nil_append, chunks, hchunks, Text.glue, String.empty_append]
  | cons p ps ih =>
    cases p with
    | text sql =>
      obtain ⟨chunk, rest, hchunks, htext⟩ := chunks_text sql ps
      rw [cons_append, chunks, ih, htext, hchunks]
      obtain ⟨next, others, hothers⟩ := exists_cons_of_ne_nil (chunks_ne_nil qs)
      cases rest with
      | nil => rw [hothers, Text.glue, Text.glue, Text.glue, String.append_assoc]
      | cons second rest => rfl
    | param v => rw [cons_append, chunks, ih, chunks, Text.glue_cons (chunks_ne_nil ps)]

end Piece

namespace SubQuery

def marker : List Char := ['%', 's']

theorem splitMarkers_ne_nil (cs : List Char) : splitMarkers cs ≠ [] := by
  fun_cases splitMarkers cs <;> simp_all

theorem intercalate_splitMarkers (cs : List Char) : marker.intercalate (splitMarkers cs) = cs := by
  fun_induction splitMarkers cs with
  | case1 => rfl
  | case2 rest ih =>
    obtain ⟨part, parts, hparts⟩ := exists_cons_of_ne_nil (splitMarkers_ne_nil rest)
    rw [hparts] at ih ⊢
    rw [intercalate_cons_cons, ih]
    rfl
  | case3 c rest hmarker hparts ih => exact absurd hparts (splitMarkers_ne_nil rest)
  | case4 c rest hmarker part parts hparts ih =>
    rw [hparts] at ih
    rw [← ih]
    cases parts with
    | nil => simp
    | cons next parts => simp

theorem prefix_of_splitMarkers {cs part : List Char} {parts : List (List Char)}
    (h : splitMarkers cs = part :: parts) : part <+: cs := by
  have hwhole := intercalate_splitMarkers cs
  rw [h] at hwhole
  cases parts with
  | nil => simp_all
  | cons next parts =>
    rw [intercalate_cons_cons, append_assoc] at hwhole
    exact ⟨_, hwhole⟩

theorem not_infix_of_mem_splitMarkers {cs part : List Char} (h : part ∈ splitMarkers cs) :
    ¬ marker <:+: part := by
  fun_induction splitMarkers cs generalizing part with
  | case1 =>
    rw [mem_singleton.1 h]
    simp [marker]
  | case2 rest ih =>
    obtain rfl | h := mem_cons.1 h
    · simp [marker]
    · exact ih h
  | case3 c rest hmarker hparts ih => exact absurd hparts (splitMarkers_ne_nil rest)
  | case4 c rest hmarker first parts hparts ih =>
    obtain rfl | h := mem_cons.1 h
    · rw [infix_cons_iff]
      rintro (hstart | hlater)
      · obtain ⟨tail, htail⟩ := prefix_of_splitMarkers hparts
        obtain ⟨after, hafter⟩ := hstart
        cases hafter
        exact hmarker (after ++ tail) rfl htail.symm
      · exact ih (by rw [hparts]; exact mem_cons_self) hlater
    · exact ih (by rw [hparts]; exact mem_cons_of_mem _ h)

theorem parts_ne_nil (q : SubQuery) : q.parts ≠ [] := by
  simpa [parts] using splitMarkers_ne_nil q.sql.toList

theorem intercalate_parts (q : SubQuery) : "%s".intercalate q.parts = q.sql := by
  rw [← String.toList_inj, String.toList_intercalate, parts, map_map]
  have hlists : map (String.toList ∘ String.ofList) (splitMarkers q.sql.toList) =
      splitMarkers q.sql.toList := by simp [Function.comp_def]
  rw [hlists]
  exact intercalate_splitMarkers q.sql.toList

theorem not_infix_of_mem_parts {q : SubQuery} {part : String} (h : part ∈ q.parts) :
    ¬ marker <:+: part.toList := by
  obtain ⟨cs, hcs, rfl⟩ := mem_map.1 h
  rw [String.toList_ofList]
  exact not_infix_of_mem_splitMarkers hcs

theorem length_parts {q : SubQuery} (h : q.check = .ok ()) :
    q.parts.length = q.params.length + 1 := by
  have hsome := length_pos_of_ne_nil q.parts_ne_nil
  unfold check at h
  split at h
  · rename_i hcount
    rw [markers] at hcount
    omega
  · cases h

theorem chunks_interleave {parts : List String} {values : List Value}
    (h : parts.length = values.length + 1) : Piece.chunks (interleave parts values) = parts := by
  induction values generalizing parts with
  | nil =>
    obtain ⟨part, rfl⟩ := length_eq_one_iff.1 h
    simp [interleave, Piece.chunks, Text.glue]
  | cons v vs ih =>
    cases parts with
    | nil => cases h
    | cons part parts =>
      rw [length_cons, length_cons, Nat.add_right_cancel_iff] at h
      rw [interleave, Piece.chunks, Piece.chunks, ih h, Text.glue, String.append_empty]

theorem params_interleave {parts : List String} {values : List Value}
    (h : parts.length = values.length + 1) : Piece.params (interleave parts values) = values := by
  induction values generalizing parts with
  | nil =>
    obtain ⟨part, rfl⟩ := length_eq_one_iff.1 h
    rfl
  | cons v vs ih =>
    cases parts with
    | nil => cases h
    | cons part parts =>
      rw [length_cons, length_cons, Nat.add_right_cancel_iff] at h
      exact congrArg (v :: ·) (ih h)

end SubQuery

/-- What a statement has to bind: one literal, or those of a query written by hand. -/
inductive Slot where
  | value (v : Value)
  | query (q : SubQuery)

def Slot.values : Slot → List Value
  | value v => [v]
  | query q => q.params

/-- A pattern as it is bound: the operators that look for a part of the text put wildcards around
it. -/
def Operator.pattern (op : Operator) (given : String) : String :=
  match op with
  | .like | .notLike | .ilike | .notIlike => "%" ++ given ++ "%"
  | _ => given

theorem Operator.pattern_eq (op : Operator) (given : String) : op.pattern given =
    if op.positive = .like ∨ op.positive = .ilike then "%" ++ given ++ "%" else given := by
  cases op <;> rfl

/-- The literals of a condition, without those of a domain in its operand. An unset literal is
tested for and not bound. -/
def Condition.slots (c : Condition) : List Slot :=
  match c.operand with
  | .set values => (values.values.filter fun v => !v.isNull).map .value
  | .scalar v =>
    if c.operator.isPattern then
      (v.asText?.map fun given => .value (.text (c.operator.pattern given))).toList
    else if v.isNull && !c.operator.isOrdering then [] else [.value v]
  | .query q => [.query q]
  | .domain _ => []

namespace Domain

mutual

def slots : Domain → List Slot
  | constant _ => []
  | negation inner => slots inner
  | nary _ children _ => allSlots children
  | condition ⟨_, _, .domain inner, _⟩ => slots inner
  | condition c => c.slots

def allSlots : List Domain → List Slot
  | [] => []
  | d :: ds => slots d ++ allSlots ds

end

variable {c : Condition}

theorem slots_of_domain {inner : Domain} (h : c.operand = .domain inner) :
    (condition c).slots = inner.slots := by
  obtain ⟨path, operator, operand, mark⟩ := c
  cases h
  rw [slots]

theorem slots_of_flat (h : ∀ inner, c.operand ≠ .domain inner) :
    (condition c).slots = c.slots := by
  obtain ⟨path, operator, operand, mark⟩ := c
  cases operand with
  | domain inner => exact absurd rfl (h inner)
  | _ =>
    rw [slots]
    nofun

def literals (d : Domain) : List Value := d.slots.flatMap Slot.values

end Domain

namespace Piece

/-- The pieces are text around what the slots bind. -/
inductive Fill : List Slot → List Piece → Prop
  | nil : Fill [] []
  | text {slots pieces} (sql) : Fill slots pieces → Fill slots (.text sql :: pieces)
  | value {slots pieces} (v) : Fill slots pieces → Fill (.value v :: slots) (.param v :: pieces)
  | query {slots pieces q} : q.check = .ok () → Fill slots pieces →
      Fill (.query q :: slots) (q.pieces ++ pieces)

variable {slots others : List Slot} {ps qs : List Piece}

theorem Fill.append (h : Fill slots ps) (h' : Fill others qs) :
    Fill (slots ++ others) (ps ++ qs) := by
  induction h with
  | nil => exact h'
  | text sql _ ih => exact ih.text sql
  | value v _ ih => exact ih.value v
  | query hcheck _ ih =>
    rw [append_assoc]
    exact ih.query hcheck

theorem Fill.between (h : Fill slots ps) (before after : String) :
    Fill slots (.text before :: ps ++ [.text after]) := by
  have hafter := (h.text before).append (.text after .nil)
  rwa [append_nil] at hafter

theorem Fill.params_eq (h : Fill slots ps) : params ps = slots.flatMap Slot.values := by
  induction h with
  | nil => rfl
  | text sql _ ih => exact ih
  | value v _ ih => exact congrArg (v :: ·) ih
  | @query slots pieces q hcheck _ ih =>
    have hquery : params q.pieces = q.params :=
      SubQuery.params_interleave (SubQuery.length_parts hcheck)
    rw [params, filterMap_append, flatMap_cons, ← ih]
    exact congrArg (· ++ _) hquery

/-- Each query stands as a whole between what is bound before and after it. -/
theorem Fill.split {q : SubQuery} (h : Fill (slots ++ .query q :: others) ps) :
    q.check = .ok () ∧ ∃ before after, ps = before ++ (q.pieces ++ after) ∧ Fill slots before := by
  generalize hall : slots ++ .query q :: others = all at h
  induction h generalizing slots with
  | nil => simp at hall
  | text sql _ ih =>
    obtain ⟨hcheck, before, after, rfl, hbefore⟩ := ih hall
    exact ⟨hcheck, .text sql :: before, after, rfl, hbefore.text sql⟩
  | value v hrest ih =>
    cases slots with
    | nil => cases hall
    | cons slot slots =>
      rw [cons_append, cons.injEq] at hall
      obtain ⟨rfl, hall⟩ := hall
      obtain ⟨hcheck, before, after, rfl, hbefore⟩ := ih hall
      exact ⟨hcheck, .param v :: before, after, rfl, hbefore.value v⟩
  | @query rest pieces r hcheck hrest ih =>
    cases slots with
    | nil =>
      cases hall
      exact ⟨hcheck, [], pieces, rfl, .nil⟩
    | cons slot slots =>
      rw [cons_append, cons.injEq] at hall
      obtain ⟨rfl, hall⟩ := hall
      obtain ⟨hcheck', before, after, rfl, hbefore⟩ := ih hall
      exact ⟨hcheck', r.pieces ++ before, after, by rw [append_assoc], hbefore.query hcheck⟩

end Piece

namespace Predicate

open Piece

variable {dialect : Dialect} {slots others : List Slot} {column : ColumnRef} {p q : Predicate}

theorem fill_null (column : ColumnRef) (negated : Bool) :
    Fill [] (pieces dialect (.null column negated)) :=
  .text _ .nil

theorem fill_compare (column : ColumnRef) (relation : Comparison) (v : Value) :
    Fill [.value v] (pieces dialect (.compare column relation v)) :=
  .text _ (.value v .nil)

theorem fill_valueList (values : List Value) : Fill (values.map .value) (valueList values) := by
  fun_induction valueList values with
  | case1 => exact .nil
  | case2 v => exact .value v .nil
  | case3 v vs _ ih => exact .value v (.text _ ih)

theorem fill_group_pair {k : Connective} (hp : Fill slots (pieces dialect p))
    (hq : Fill others (pieces dialect q)) :
    Fill (slots ++ others) (pieces dialect (.group k [p, q])) :=
  (hp.append (hq.text (separator k))).between "(" ")"

theorem fill_group_null {k : Connective} {negated : Bool} (hp : Fill slots (pieces dialect p)) :
    Fill slots (pieces dialect (.group k [p, .null column negated])) := by
  have hpair := fill_group_pair (k := k) hp (fill_null column negated)
  rwa [append_nil] at hpair

theorem fill_partPieces {k : Connective} {ps : List Predicate} (hp : Fill slots (pieces dialect p))
    (hps : Fill others (partPieces dialect k ps)) :
    Fill (slots ++ others) (partPieces dialect k (p :: ps)) := by
  cases ps with
  | nil =>
    have hall := hp.append hps
    rwa [partPieces, append_nil] at hall
  | cons q ps => exact hp.append (hps.text _)

theorem fill_like (cast caseless negated : Bool) (given : String) :
    Fill [.value (.text given)] (pieces dialect (.like column cast caseless negated given)) :=
  .text _ (.value _ (.text _ .nil))

theorem fill_query {written : SubQuery} (h : written.check = .ok ()) :
    Fill [.query written] (queryPieces dialect (.verbatim written)) := by
  have hfill := Fill.query h .nil
  rwa [append_nil] at hfill

theorem fill_inQuery {negated : Bool} {query : Query} (h : Fill slots (queryPieces dialect query)) :
    Fill slots (pieces dialect (.inQuery column negated query)) :=
  h.between _ _

theorem fill_linked {negated : Bool} {table row : String} {link owner : ColumnRef}
    (h : Fill slots (pieces dialect p)) :
    Fill slots (pieces dialect (.linked negated table row link owner p)) :=
  h.between _ _

end Predicate

namespace Lowering

open Piece Predicate

variable {dialect : Dialect} {catalog : Catalog} {entity : Entity} {c : Condition} {row : String}
  {n m : Nat} {p : Predicate} {column : ColumnRef}

def listed (column : ColumnRef) (negated : Bool) : List Value → Predicate
  | [v] => .compare column (if negated then .different else .equal) v
  | values => .inList column negated values

theorem membership_of_nil {values : ValueSet} (negated : Bool)
    (h : values.values.filter (fun v => !v.isNull) = []) :
    membership column values negated =
      if values.containsNull then .null column negated else .constant negated := by
  rw [membership, h]

theorem membership_of_cons {values : ValueSet} {v : Value} {vs : List Value} (negated : Bool)
    (h : values.values.filter (fun v => !v.isNull) = v :: vs) :
    membership column values negated =
      if values.containsNull && negated then
        .group .and [listed column negated (v :: vs), .null column true]
      else if values.containsNull || negated then
        .group .or [listed column negated (v :: vs), .null column false]
      else listed column negated (v :: vs) := by
  rw [membership, h]
  cases vs <;> rfl

theorem fill_membership (values : ValueSet) (negated : Bool) :
    Fill ((values.values.filter fun v => !v.isNull).map .value)
      (pieces dialect (membership column values negated)) := by
  cases hvalues : values.values.filter fun v => !v.isNull with
  | nil =>
    rw [membership_of_nil negated hvalues]
    split
    · exact fill_null column negated
    · exact .text _ .nil
  | cons v vs =>
    have hlisted : Fill ((v :: vs).map .value) (pieces dialect (listed column negated (v :: vs))) := by
      cases vs with
      | nil => exact fill_compare _ _ v
      | cons w vs => exact (fill_valueList (v :: w :: vs)).between _ _
    rw [membership_of_cons negated hvalues]
    split
    · exact fill_group_null hlisted
    · split
      · exact fill_group_null hlisted
      · exact hlisted

theorem fill_comparison {textual : Bool} (h : comparison c column textual = .ok p) :
    Fill c.slots (pieces dialect p) := by
  unfold comparison at h
  unfold Condition.slots
  cases hoperand : c.operand with
  | set values =>
    rw [hoperand] at h
    dsimp only at h
    split at h
    · cases h
      exact fill_membership values _
    · cases h
  | scalar v =>
    rw [hoperand] at h
    dsimp only at h ⊢
    split at h
    · rename_i hpattern
      rw [if_pos hpattern]
      unfold patternMatch at h
      cases htext : v.asText? with
      | none =>
        rw [htext] at h
        cases h
      | some given =>
        simp only [htext, ← Operator.pattern_eq] at h
        cases h
        split
        · exact fill_group_null (fill_like ..)
        · exact fill_like ..
    · rename_i hpattern
      rw [if_neg hpattern]
      cases hop : c.operator with
      | equal =>
        rw [hop] at h
        cases h
        cases v.isNull with
        | true => exact fill_null ..
        | false => exact fill_compare ..
      | notEqual =>
        rw [hop] at h
        cases h
        cases v.isNull with
        | true => exact fill_null ..
        | false => exact fill_group_null (fill_compare ..)
      | less | greater | lessOrEqual | greaterOrEqual =>
        rw [hop] at h
        cases h
        rw [Operator.isOrdering, Bool.not_true, Bool.and_false]
        exact fill_compare ..
      | _ =>
        rw [hop] at h
        cases h
  | domain inner =>
    rw [hoperand] at h
    cases h
  | query q =>
    rw [hoperand] at h
    cases h

structure FillsInner (dialect : Dialect) (c : Condition) (inner : Inner) (slots : List Slot)
    (target : Entity) : Prop where
  selection : ∀ {n m query}, (selection c inner target).run n = .ok (query, m) →
    Fill slots (queryPieces dialect query)
  filter : ∀ {n m row p}, (filter c inner target row).run n = .ok (p, m) →
    Fill slots (pieces dialect p)

theorem FillsInner.of_domain {lower : Entity → String → Lowering Predicate} {slots : List Slot}
    (h : ∀ {row n m p}, (lower entity row).run n = .ok (p, m) → Fill slots (pieces dialect p)) :
    FillsInner dialect c (some lower) slots entity where
  selection hquery := by
    obtain ⟨test, htest, rfl⟩ := run_selection_eq_ok.1 hquery
    exact (h htest).text _
  filter hp := h hp

theorem FillsInner.of_none : FillsInner dialect c none c.slots entity where
  selection hquery := by
    obtain ⟨q, hoperand, -, -⟩ := run_selection_none hquery
    simp only [Lowering.selection, hoperand, run_bind_eq_ok, run_liftM_eq_ok,
      run_pure_eq_ok] at hquery
    obtain ⟨_, _, ⟨hcheck, rfl⟩, rfl, rfl⟩ := hquery
    rw [Condition.slots, hoperand]
    exact fill_query hcheck
  filter hp := by
    obtain ⟨q, hoperand, -, -⟩ := run_filter_none hp
    simp only [Lowering.filter, hoperand, run_bind_eq_ok, run_liftM_eq_ok, run_pure_eq_ok] at hp
    obtain ⟨_, _, ⟨hcheck, rfl⟩, rfl, rfl⟩ := hp
    rw [Condition.slots, hoperand]
    exact fill_inQuery (fill_query hcheck)

theorem Traverses.fill {inner : Inner} {field : Field} {slots : List Slot}
    (h : Traverses catalog c inner field entity row n m p)
    (hinner : ∀ target, target = entity ∨ catalog.comodel c field = .ok target →
      FillsInner dialect c inner slots target) : Fill slots (pieces dialect p) := by
  cases h with
  | itself _ hquery => exact fill_inQuery ((hinner entity (.inl rfl)).selection hquery)
  | many2one _ htarget _ hquery =>
    have hfill := (hinner _ (.inr htarget)).selection hquery
    dsimp only
    split
    · exact fill_group_pair (fill_null ..) (fill_inQuery hfill)
    · exact fill_inQuery hfill
  | one2many _ htarget _ _ htest => exact fill_linked ((hinner _ (.inr htarget)).filter htest)
  | many2many _ htarget _ _ hquery =>
    exact fill_linked (fill_inQuery ((hinner _ (.inr htarget)).selection hquery))

theorem fill_domain (hcatalog : catalog.SqlHookless) {d : Domain}
    (hentity : ∀ field ∈ entity.fields, field.sqlHook = none)
    (h : (domain dialect catalog d entity row).run n = .ok (p, m)) :
    Fill d.slots (pieces dialect p) := by
  induction d using Domain.induct generalizing entity row n m p with
  | constant v =>
    obtain ⟨rfl, rfl⟩ := run_pure_eq_ok.1 h
    exact .text _ .nil
  | negation inner ih =>
    simp only [domain, run_bind_eq_ok, run_pure_eq_ok] at h
    obtain ⟨p, _, hp, rfl, rfl⟩ := h
    exact (ih hentity hp).between _ _
  | nary k children mark ih =>
    simp only [domain, run_bind_eq_ok, run_pure_eq_ok] at h
    obtain ⟨ps, _, hps, rfl, rfl⟩ := h
    have hparts : Fill (Domain.allSlots children) (partPieces dialect k ps) := by
      induction children generalizing n ps with
      | nil =>
        obtain ⟨rfl, rfl⟩ := run_pure_eq_ok.1 hps
        exact .nil
      | cons d ds ihds =>
        simp only [domains, run_bind_eq_ok, run_pure_eq_ok] at hps
        obtain ⟨p, i, hp, ps, _, hps, rfl, rfl⟩ := hps
        have hfirst := ih d mem_cons_self hentity hp
        have hrest := ihds (fun e he => ih e (mem_cons_of_mem _ he)) ps hps
        exact fill_partPieces hfirst hrest
    exact hparts.between _ _
  | condition c ih =>
    rw [domain_condition] at h
    obtain ⟨field, hfield, h⟩ := run_condition_eq_ok
      (fun field hfield => Entity.sqlHook_of_field? hentity hfield) h
    split at h
    · refine (traverses h).fill fun target htarget => ?_
      have htarget : ∀ field ∈ target.fields, field.sqlHook = none := by
        obtain rfl | htarget := htarget
        · exact hentity
        · exact hcatalog target (mem_of_find?_eq_some (Catalog.entity?_of_comodel htarget))
      cases hoperand : c.operand with
      | domain inner =>
        rw [Domain.slots_of_domain hoperand]
        exact .of_domain (ih inner hoperand htarget)
      | _ =>
        rw [Domain.slots_of_flat (by simp [hoperand])]
        exact .of_none
    · have hflat : ∀ inner, c.operand ≠ .domain inner := by
        intro inner hoperand
        rw [comparison, hoperand] at h
        cases h.1
      rw [Domain.slots_of_flat hflat]
      exact fill_comparison h.1

end Lowering

namespace Domain

variable {dialect : Dialect} {catalog : Catalog} {entity : Entity} {row : String} {d : Domain}
  {statement : Statement}

/-- What is bound are the literals of the domain from left to right, for every dialect the same. The
text is cut into chunks by one placeholder for each of them, in order; and the parts of a query
between its markers are chunks, so that its placeholders stand where the markers were. -/
theorem toStatement_eq_weave (hcatalog : catalog.SqlHookless)
    (hentity : ∀ field ∈ entity.fields, field.sqlHook = none)
    (h : d.toStatement dialect catalog entity row = .ok statement) :
    statement.params = d.literals ∧ ∃ chunks : List String,
      chunks.length = statement.params.length + 1 ∧ statement.sql = dialect.weave 0 chunks ∧
      ∀ before q after, d.slots = before ++ .query q :: after →
        ∃ parts left right : List String, "%s".intercalate parts = q.sql ∧
          (∀ part ∈ parts, ¬ "%s".toList <:+: part.toList) ∧
          parts.length = q.params.length + 1 ∧
          chunks = Text.glue left (Text.glue parts right) ∧
          left.length = (before.flatMap Slot.values).length + 1 := by
  simp only [toStatement, Except.bind_eq_ok] at h
  obtain ⟨⟨p, m⟩, hp, h⟩ := h
  cases h
  have hfill := Lowering.fill_domain hcatalog hentity hp
  have hsql : (Statement.ofPieces dialect (p.pieces dialect)).sql =
      dialect.weave 0 (Piece.chunks (p.pieces dialect)) := by
    rw [← Piece.join_texts]
    exact String.empty_append
  refine ⟨hfill.params_eq, Piece.chunks (p.pieces dialect), Piece.length_chunks _, hsql, ?_⟩
  intro before q after hslots
  rw [hslots] at hfill
  obtain ⟨hcheck, left, right, hpieces, hleft⟩ := hfill.split
  refine ⟨q.parts, Piece.chunks left, Piece.chunks right, q.intercalate_parts,
    fun part => SubQuery.not_infix_of_mem_parts, SubQuery.length_parts hcheck, ?_, ?_⟩
  · rw [hpieces, Piece.chunks_append, Piece.chunks_append, SubQuery.pieces,
      SubQuery.chunks_interleave (SubQuery.length_parts hcheck)]
  · rw [Piece.length_chunks, hleft.params_eq]

/-- A pattern, a query with two markers and a set with an unset member: four literals are bound, and
the third chunk of the text is what stands between the markers. -/
theorem toStatement_eq_weave_query :
    let entity : Entity := { name := "i", fields := [{ name := "n", type := .char }] }
    let catalog : Catalog := { entities := [entity] }
    let q : SubQuery := ⟨"f(%s, %s)", [.int 1, .int 2]⟩
    let d : Domain := .nary .and [.leaf "n" .like (.scalar (.text "a")), .leaf "id" .any (.query q),
      .leaf "n" .mem (.set ⟨[.null, .text "b"]⟩)] none
    (catalog.SqlHookless ∧ ∀ field ∈ entity.fields, field.sqlHook = none) ∧
    ∃ statement, d.toStatement .mysql catalog entity "i" = .ok statement ∧
      statement.params = d.literals ∧ ∃ chunks : List String, chunks.length = 5 ∧
      statement.sql = Dialect.mysql.weave 0 chunks ∧
      ∃ parts left right : List String, "%s".intercalate parts = q.sql ∧ parts.length = 3 ∧
        chunks = Text.glue left (Text.glue parts right) ∧ left.length = 2 := by
  intro entity catalog q d
  have hentity : ∀ field ∈ entity.fields, field.sqlHook = none := by simp [entity]
  have hcatalog : catalog.SqlHookless := by
    intro other hother
    obtain rfl := mem_singleton.1 hother
    exact hentity
  obtain ⟨statement, hstatement⟩ : ∃ statement,
      d.toStatement .mysql catalog entity "i" = .ok statement := by
    simp only [entity, catalog, d, q]
    exact ⟨_, rfl⟩
  obtain ⟨hparams, chunks, hlength, hsql, hqueries⟩ :=
    toStatement_eq_weave hcatalog hentity hstatement
  rw [hparams] at hlength
  obtain ⟨parts, left, right, hparts, -, hcount, hchunks, hleft⟩ :=
    hqueries [.value (.text "%a%")] q [.value (.text "b")] rfl
  exact ⟨⟨hcatalog, hentity⟩, statement, hstatement, hparams, chunks, hlength, hsql, parts, left,
    right, hparts, hcount, hchunks, hleft⟩

end Domain

end QueryDomain
