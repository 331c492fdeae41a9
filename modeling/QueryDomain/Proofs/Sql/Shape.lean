import Mathlib.Data.List.Forall2
import QueryDomain.Proofs.Sql.Placeholders

/-! No literal reaches the text of a statement. Two domains that differ in literals alone, unset ones
in the same places, are lowered to the same text, or neither of them is lowered. -/
namespace QueryDomain

open List

namespace Piece

inductive SameShape : Piece → Piece → Prop
  | text (sql) : SameShape (.text sql) (.text sql)
  | param (v w) : SameShape (.param v) (.param w)

abbrev Alike (ps qs : List Piece) : Prop := Forall₂ SameShape ps qs

theorem Alike.refl (ps : List Piece) : Alike ps ps := by
  refine forall₂_same.2 fun p _ => ?_
  cases p with
  | text sql => exact .text sql
  | param v => exact .param v v

theorem Alike.append {ps qs ps' qs' : List Piece} (h : Alike ps qs) (h' : Alike ps' qs') :
    Alike (ps ++ ps') (qs ++ qs') :=
  rel_append h h'

theorem Alike.between {ps qs : List Piece} (h : Alike ps qs) (before after : String) :
    Alike (.text before :: ps ++ [.text after]) (.text before :: qs ++ [.text after]) :=
  Alike.append (.cons (.text before) h) (.refl _)

theorem Alike.texts_eq {ps qs : List Piece} (h : Alike ps qs) (dialect : Dialect) (index : Nat) :
    texts dialect index ps = texts dialect index qs := by
  induction h generalizing index with
  | nil => rfl
  | cons hp _ ih =>
    cases hp with
    | text sql => rw [texts, texts, ih]
    | param v w => rw [texts, texts, ih]

theorem alike_interleave {parts : List String} {vs ws : List Value} (h : vs.length = ws.length) :
    Alike (SubQuery.interleave parts vs) (SubQuery.interleave parts ws) := by
  induction vs generalizing parts ws with
  | nil =>
    rw [length_nil, eq_comm, length_eq_zero_iff] at h
    subst h
    exact .refl _
  | cons v vs ih =>
    cases ws with
    | nil => cases h
    | cons w ws =>
      cases parts with
      | nil => exact .nil
      | cons part parts => exact .cons (.text part) (.cons (.param v w) (ih (Nat.succ.inj h)))

end Piece

inductive Except.Both {α β : Type} (R : α → β → Prop) : Except Error α → Except Error β → Prop
  | ok {a b} : R a b → Both R (.ok a) (.ok b)
  | error {e e'} : Both R (.error e) (.error e')

namespace Except.Both

variable {α β γ δ : Type} {R : α → β → Prop} {S : γ → δ → Prop}

theorem bind {x : Except Error α} {y : Except Error β} {f : α → Except Error γ}
    {g : β → Except Error δ} (h : Both R x y) (hfg : ∀ a b, R a b → Both S (f a) (g b)) :
    Both S (x >>= f) (y >>= g) := by
  cases h with
  | ok hab => exact hfg _ _ hab
  | error => exact .error

theorem exists_ok_iff {x : Except Error α} {y : Except Error β} (h : Both R x y) :
    (∃ a, x = .ok a) ↔ ∃ b, y = .ok b := by
  cases h <;> simp

theorem of_ok {x : Except Error α} {y : Except Error β} {a : α} {b : β} (h : Both R x y)
    (hx : x = .ok a) (hy : y = .ok b) : R a b := by
  subst hx hy
  cases h with
  | ok hab => exact hab

theorem of_iff {x y : Except Error α} (h : ∀ a, x = .ok a ↔ y = .ok a) :
    Both (fun a b => a = b ∧ x = .ok a) x y := by
  cases x with
  | ok a =>
    rw [(h a).1 rfl]
    exact .ok ⟨rfl, rfl⟩
  | error e =>
    cases y with
    | ok b => cases (h b).2 rfl
    | error e' => exact .error

end Except.Both

namespace Lowering

variable {α β γ δ : Type} {R : α → β → Prop} {S : γ → δ → Prop}

/-- Two lowerings that succeed together, with results in the relation and the same aliases. -/
def Twin (R : α → β → Prop) (x : Lowering α) (y : Lowering β) : Prop :=
  ∀ n, Except.Both (fun (a, m) (b, k) => R a b ∧ m = k) (x.run n) (y.run n)

namespace Twin

theorem pure {a : α} {b : β} (h : R a b) : Twin R (pure a) (pure b) :=
  fun _ => .ok ⟨h, rfl⟩

theorem throw {e e' : Error} : Twin R (throw e) (throw e') :=
  fun _ => .error

theorem bind {x : Lowering α} {y : Lowering β} {f : α → Lowering γ} {g : β → Lowering δ}
    (h : Twin R x y) (hfg : ∀ a b, R a b → Twin S (f a) (g b)) : Twin S (x >>= f) (y >>= g) := by
  intro n
  rw [StateT.run_bind, StateT.run_bind]
  refine (h n).bind ?_
  rintro ⟨a, m⟩ ⟨b, _⟩ ⟨hab, rfl⟩
  exact hfg a b hab m

theorem liftM {x : Except Error α} {y : Except Error β} (h : Except.Both R x y) :
    Twin R (liftM x) (liftM y) := by
  intro n
  cases h with
  | ok hab => exact .ok ⟨hab, rfl⟩
  | error => exact .error

theorem nextAlias (table : String) : Twin Eq (nextAlias table) (nextAlias table) :=
  fun _ => .ok ⟨rfl, rfl⟩

end Twin

end Lowering

namespace Predicate

variable {dialect : Dialect} {column : ColumnRef} {p q p' q' : Predicate}

def Alike (dialect : Dialect) (p q : Predicate) : Prop :=
  Piece.Alike (pieces dialect p) (pieces dialect q)

theorem Alike.refl (p : Predicate) : Alike dialect p p := Piece.Alike.refl _

theorem Alike.group_pair (k : Connective) (hp : Alike dialect p p') (hq : Alike dialect q q') :
    Alike dialect (.group k [p, q]) (.group k [p', q']) :=
  (Piece.Alike.append hp (.cons (.text _) hq)).between _ _

theorem alike_compare (relation : Comparison) (v w : Value) :
    Alike dialect (.compare column relation v) (.compare column relation w) :=
  .cons (.text _) (.cons (.param v w) .nil)

theorem alike_like (cast caseless negated : Bool) (given given' : String) :
    Alike dialect (.like column cast caseless negated given)
      (.like column cast caseless negated given') :=
  .cons (.text _) (.cons (.param _ _) (.cons (.text _) .nil))

theorem alike_valueList {vs ws : List Value} (h : vs.length = ws.length) :
    Piece.Alike (valueList vs) (valueList ws) := by
  induction vs generalizing ws with
  | nil =>
    rw [length_nil, eq_comm, length_eq_zero_iff] at h
    subst h
    exact .nil
  | cons v vs ih =>
    cases ws with
    | nil => cases h
    | cons w ws =>
      have hrest := ih (Nat.succ.inj h)
      cases vs with
      | nil =>
        cases ws with
        | nil => exact .cons (.param v w) .nil
        | cons w' ws => cases h
      | cons v' vs =>
        cases ws with
        | nil => cases h
        | cons w' ws => exact .cons (.param v w) (.cons (.text _) hrest)

theorem Alike.inQuery {query query' : Query} (negated : Bool)
    (h : Piece.Alike (queryPieces dialect query) (queryPieces dialect query')) :
    Alike dialect (.inQuery column negated query) (.inQuery column negated query') :=
  h.between _ _

theorem Alike.linked (negated : Bool) (table row : String) (link owner : ColumnRef)
    (h : Alike dialect p q) : Alike dialect (.linked negated table row link owner p)
      (.linked negated table row link owner q) :=
  Piece.Alike.between h _ _

theorem alike_partPieces {k : Connective} {ps qs : List Predicate}
    (h : Forall₂ (Alike dialect) ps qs) :
    Piece.Alike (partPieces dialect k ps) (partPieces dialect k qs) := by
  induction h with
  | nil => exact .nil
  | cons hp hrest ih =>
    cases hrest with
    | nil => exact hp
    | cons _ _ => exact Piece.Alike.append hp (.cons (.text _) ih)

end Predicate

/-- Literals of a condition that differ in nothing but their value: unset together, and patterns
together. -/
structure Value.SameShape (op : Operator) (v w : Value) : Prop where
  null : v.isNull = w.isNull
  pattern : op.isPattern = true → v.asText?.isSome = w.asText?.isSome

inductive Domain.SameShape : Domain → Domain → Prop
  | constant (v) : SameShape (.constant v) (.constant v)
  | negation {d e} : SameShape d e → SameShape (.negation d) (.negation e)
  | empty (k mark mark') : SameShape (.nary k [] mark) (.nary k [] mark')
  | child {k d e ds es mark mark'} : SameShape d e → SameShape (.nary k ds mark) (.nary k es mark') →
      SameShape (.nary k (d :: ds) mark) (.nary k (e :: es) mark')
  | scalar {path op v w mark mark'} : Value.SameShape op v w →
      SameShape (.condition ⟨path, op, .scalar v, mark⟩) (.condition ⟨path, op, .scalar w, mark'⟩)
  | set {path op s t mark mark'} : Forall₂ (·.isNull = ·.isNull) s.values t.values →
      SameShape (.condition ⟨path, op, .set s, mark⟩) (.condition ⟨path, op, .set t, mark'⟩)
  | domain {path op d e mark mark'} : SameShape d e →
      SameShape (.condition ⟨path, op, .domain d, mark⟩) (.condition ⟨path, op, .domain e, mark'⟩)
  | query {path op sql vs ws mark mark'} : vs.length = ws.length →
      SameShape (.condition ⟨path, op, .query ⟨sql, vs⟩, mark⟩)
        (.condition ⟨path, op, .query ⟨sql, ws⟩, mark'⟩)

namespace Lowering

variable {dialect : Dialect} {catalog : Catalog} {entity : Entity} {row : String}
  {column : ColumnRef} {c c' : Condition}

theorem alike_listed {vs ws : List Value} (negated : Bool) (h : vs.length = ws.length) :
    Predicate.Alike dialect (listed column negated vs) (listed column negated ws) := by
  have hlist := (Predicate.alike_valueList h).between
    (column.sql dialect ++ " " ++ Predicate.negation negated ++ "IN (") ")"
  cases vs with
  | nil =>
    rw [length_nil, eq_comm, length_eq_zero_iff] at h
    subst h
    exact .refl _
  | cons v vs =>
    cases ws with
    | nil => cases h
    | cons w ws =>
      cases vs with
      | nil =>
        cases ws with
        | nil => exact Predicate.alike_compare _ v w
        | cons w' ws => cases h
      | cons v' vs =>
        cases ws with
        | nil => cases h
        | cons w' ws => exact hlist

theorem alike_membership {s t : ValueSet} (negated : Bool)
    (h : Forall₂ (fun v w : Value => v.isNull = w.isNull) s.values t.values) :
    Predicate.Alike dialect (membership column s negated) (membership column t negated) := by
  have hnulls : s.values.map Value.isNull = t.values.map Value.isNull :=
    forall₂_eq_eq_eq ▸ forall₂_map_left_iff.2 (forall₂_map_right_iff.2 h)
  have hnull : s.containsNull = t.containsNull := by
    have hany := congrArg (·.any id) hnulls
    simpa [ValueSet.containsNull, any_map] using hany
  have hlength : (s.values.filter fun v => !v.isNull).length =
      (t.values.filter fun v => !v.isNull).length := by
    have hcount := congrArg (·.countP (!·)) hnulls
    simpa only [← countP_eq_length_filter, countP_map, Function.comp_def] using hcount
  cases hs : s.values.filter fun v => !v.isNull with
  | nil =>
    rw [hs, length_nil, eq_comm, length_eq_zero_iff] at hlength
    rw [membership_of_nil negated hs, membership_of_nil negated hlength, hnull]
    exact .refl _
  | cons v vs =>
    cases ht : t.values.filter fun v => !v.isNull with
    | nil =>
      rw [hs, ht] at hlength
      cases hlength
    | cons w ws =>
      rw [hs, ht] at hlength
      have hlisted : Predicate.Alike dialect (listed column negated (v :: vs))
          (listed column negated (w :: ws)) := alike_listed negated hlength
      rw [membership_of_cons negated hs, membership_of_cons negated ht, hnull]
      split
      · exact hlisted.group_pair _ (.refl _)
      · split
        · exact hlisted.group_pair _ (.refl _)
        · exact hlisted

theorem both_scalar {path : String} {op : Operator} {v w : Value} {mark mark' : Option Mark}
    (textual : Bool) (h : Value.SameShape op v w) :
    Except.Both (Predicate.Alike dialect)
      (comparison ⟨path, op, .scalar v, mark⟩ column textual)
      (comparison ⟨path, op, .scalar w, mark'⟩ column textual) := by
  unfold comparison
  dsimp only
  split
  · rename_i hpattern
    have htext := h.pattern hpattern
    unfold patternMatch
    cases hv : v.asText? with
    | none =>
      cases hw : w.asText? with
      | none => exact .error
      | some given => simp [hv, hw] at htext
    | some given =>
      cases hw : w.asText? with
      | none => simp [hv, hw] at htext
      | some given' =>
        dsimp only
        refine .ok ?_
        split
        · exact (Predicate.alike_like ..).group_pair _ (.refl _)
        · exact Predicate.alike_like ..
  · cases op with
    | equal =>
      refine .ok ?_
      rw [h.null]
      split
      · exact .refl _
      · exact Predicate.alike_compare ..
    | notEqual =>
      refine .ok ?_
      rw [h.null]
      split
      · exact .refl _
      · exact (Predicate.alike_compare ..).group_pair _ (.refl _)
    | less | greater | lessOrEqual | greaterOrEqual => exact .ok (Predicate.alike_compare ..)
    | _ => exact .error

structure TwinInner (dialect : Dialect) (c c' : Condition) (inner inner' : Inner)
    (target : Entity) : Prop where
  selection : Twin (fun p q => Piece.Alike (Predicate.queryPieces dialect p)
    (Predicate.queryPieces dialect q)) (selection c inner target) (selection c' inner' target)
  filter : ∀ row, Twin (Predicate.Alike dialect) (filter c inner target row)
    (filter c' inner' target row)

theorem TwinInner.of_domain {lower lower' : Entity → String → Lowering Predicate} {target : Entity}
    (h : ∀ row, Twin (Predicate.Alike dialect) (lower target row) (lower' target row)) :
    TwinInner dialect c c' (some lower) (some lower') target where
  selection := by
    refine (Twin.nextAlias _).bind ?_
    rintro row _ rfl
    exact (h row).bind fun p q hpq => .pure (.cons (.text _) hpq)
  filter := h

theorem selection_of_flat (h : ∀ q, c.operand ≠ .query q) (target : Entity) :
    selection c none target = throw (.mismatch c (.selectsNothing c.operator c.operand)) := by
  unfold selection
  cases hoperand : c.operand with
  | query q => exact absurd hoperand (h q)
  | _ => rfl

theorem filter_of_flat (h : ∀ q, c.operand ≠ .query q) (target : Entity) (row : String) :
    filter c none target row = throw (.mismatch c (.selectsNothing c.operator c.operand)) := by
  unfold filter
  cases hoperand : c.operand with
  | query q => exact absurd hoperand (h q)
  | _ => rfl

theorem TwinInner.of_flat {target : Entity} (h : ∀ q, c.operand ≠ .query q)
    (h' : ∀ q, c'.operand ≠ .query q) : TwinInner dialect c c' none none target where
  selection := by
    rw [selection_of_flat h, selection_of_flat h']
    exact .throw
  filter row := by
    rw [filter_of_flat h, filter_of_flat h']
    exact .throw

theorem TwinInner.of_query {target : Entity} {path : String} {op : Operator} {sql : String}
    {vs ws : List Value} {mark mark' : Option Mark} (h : vs.length = ws.length) :
    TwinInner dialect ⟨path, op, .query ⟨sql, vs⟩, mark⟩ ⟨path, op, .query ⟨sql, ws⟩, mark'⟩ none none
      target := by
  have hsame : ∀ a, SubQuery.check ⟨sql, vs⟩ = .ok a ↔ SubQuery.check ⟨sql, ws⟩ = .ok a := by
    intro a
    unfold SubQuery.check SubQuery.markers SubQuery.parts
    dsimp only
    rw [h]
    split <;> simp
  have hcheck := Twin.liftM (Except.Both.of_iff hsame)
  have hpieces : Piece.Alike (Predicate.queryPieces dialect (.verbatim ⟨sql, vs⟩))
      (Predicate.queryPieces dialect (.verbatim ⟨sql, ws⟩)) := Piece.alike_interleave h
  constructor
  · exact hcheck.bind fun _ _ _ => .pure hpieces
  · intro row
    exact hcheck.bind fun _ _ _ => .pure (.inQuery _ hpieces)

theorem both_comodel {field : Field} :
    Except.Both (fun target target' => target = target' ∧ catalog.comodel c field = .ok target)
      (catalog.comodel c field) (catalog.comodel c' field) :=
  .of_iff fun target => by rw [Catalog.comodel_eq_ok, Catalog.comodel_eq_ok]

theorem both_default (target : Entity) :
    Except.Both Eq (Relation.default c entity target) (Relation.default c' entity target) := by
  unfold Relation.default
  dsimp only
  split
  · exact .error
  · exact .ok rfl

theorem twin_traversal {inner inner' : Inner} {field : Field} (hop : c.operator = c'.operator)
    (hinner : ∀ target, target = entity ∨ catalog.comodel c field = .ok target →
      TwinInner dialect c c' inner inner' target) :
    Twin (Predicate.Alike dialect) (traversal catalog c inner field entity row)
      (traversal catalog c' inner' field entity row) := by
  unfold traversal
  rw [← hop]
  dsimp only
  split
  · refine (hinner entity (.inl rfl)).selection.bind fun p q hpq => ?_
    exact .pure (.inQuery _ hpq)
  · refine (Twin.liftM both_comodel).bind ?_
    rintro target _ ⟨rfl, htarget⟩
    have htwin := hinner target (.inr htarget)
    cases field.type with
    | many2one =>
      refine htwin.selection.bind fun p q hpq => .pure ?_
      split
      · exact Predicate.Alike.group_pair _ (.refl _) (.inQuery _ hpq)
      · exact .inQuery _ hpq
    | one2many =>
      cases field.inverseName with
      | none => exact .throw
      | some inverse =>
        refine (Twin.nextAlias _).bind ?_
        rintro sub _ rfl
        exact (htwin.filter sub).bind fun p q hpq => .pure (.linked _ _ _ _ _ hpq)
    | many2many =>
      have hlinked : ∀ relation : Relation, Twin (Predicate.Alike dialect)
          (do
            let sub ← nextAlias relation.table
            return .linked (c.operator == .notAny) relation.table sub
              (.qualified sub relation.column1) (.qualified row Entity.idName)
              (.inQuery (.qualified sub relation.column2) false (← selection c inner target)))
          (do
            let sub ← nextAlias relation.table
            return .linked (c.operator == .notAny) relation.table sub
              (.qualified sub relation.column1) (.qualified row Entity.idName)
              (.inQuery (.qualified sub relation.column2) false (← selection c' inner' target))) := by
        intro relation
        refine (Twin.nextAlias _).bind ?_
        rintro sub _ rfl
        exact htwin.selection.bind fun p q hpq => .pure (.linked _ _ _ _ _ (.inQuery _ hpq))
      cases field.relation with
      | some relation => exact hlinked relation
      | none =>
        refine (Twin.liftM (both_default target)).bind ?_
        rintro relation _ rfl
        exact hlinked relation
    | _ => exact .throw

theorem twin_condition {inner inner' : Inner} (hcatalog : catalog.SqlHookless)
    (hentity : ∀ field ∈ entity.fields, field.sqlHook = none) (hpath : c.path = c'.path)
    (hop : c.operator = c'.operator)
    (hcomparison : ∀ column textual, Except.Both (Predicate.Alike dialect)
      (comparison c column textual) (comparison c' column textual))
    (hinner : ∀ target : Entity, (∀ field ∈ target.fields, field.sqlHook = none) →
      TwinInner dialect c c' inner inner' target) :
    Twin (Predicate.Alike dialect) (condition dialect catalog c inner entity row)
      (condition dialect catalog c' inner' entity row) := by
  have hfield : ∀ field, entity.conditionField c = .ok field ↔
      entity.conditionField c' = .ok field := by
    intro field
    rw [Entity.conditionField_eq_ok, Entity.conditionField_eq_ok, Condition.head, Condition.head,
      hpath]
  refine (Twin.liftM (Except.Both.of_iff hfield)).bind ?_
  rintro field _ ⟨rfl, hfield⟩
  rw [Entity.sqlHook_of_field? hentity (Entity.conditionField_eq_ok.1 hfield), ← hop]
  dsimp only
  split
  · refine twin_traversal hop fun target htarget => hinner target ?_
    obtain rfl | htarget := htarget
    · exact hentity
    · exact hcatalog target (mem_of_find?_eq_some (Catalog.entity?_of_comodel htarget))
  · have hcolumn : columnOf c field row = columnOf c' field row := by
      rw [columnOf, columnOf, Condition.rest?, Condition.rest?, hpath]
    rw [hcolumn]
    exact .liftM (hcomparison _ _)

theorem twin_nary {k : Connective} {ds es : List Domain} {mark mark' : Option Mark}
    (h : Twin (Forall₂ (Predicate.Alike dialect)) (domains dialect catalog ds entity row)
      (domains dialect catalog es entity row)) :
    Twin (Predicate.Alike dialect) (domain dialect catalog (.nary k ds mark) entity row)
      (domain dialect catalog (.nary k es mark') entity row) := by
  rw [domain, domain]
  exact h.bind fun ps qs hpqs => .pure ((Predicate.alike_partPieces hpqs).between _ _)

theorem twin_domain (hcatalog : catalog.SqlHookless) {d e : Domain}
    (hentity : ∀ field ∈ entity.fields, field.sqlHook = none) (h : d.SameShape e) :
    Twin (Predicate.Alike dialect) (domain dialect catalog d entity row)
        (domain dialect catalog e entity row) ∧
      Twin (Forall₂ (Predicate.Alike dialect)) (domains dialect catalog d.children entity row)
        (domains dialect catalog e.children entity row) := by
  induction h generalizing entity row with
  | constant v => exact ⟨.pure (.refl _), .pure .nil⟩
  | negation _ ih =>
    refine ⟨?_, .pure .nil⟩
    rw [domain, domain]
    exact (ih hentity).1.bind fun p q hpq => .pure (Piece.Alike.between hpq _ _)
  | empty k mark mark' => exact ⟨.pure (.refl _), .pure .nil⟩
  | @child k d e ds es mark mark' _ _ ih ihs =>
    have hchildren : Twin (Forall₂ (Predicate.Alike dialect))
        (domains dialect catalog (d :: ds) entity row)
        (domains dialect catalog (e :: es) entity row) := by
      rw [domains, domains]
      refine (ih hentity).1.bind fun p q hpq => ?_
      exact (ihs hentity).2.bind fun ps qs hpqs => .pure (.cons hpq hpqs)
    exact ⟨twin_nary hchildren, hchildren⟩
  | scalar h =>
    refine ⟨?_, .pure .nil⟩
    rw [domain_condition, domain_condition]
    exact twin_condition hcatalog hentity rfl rfl (fun _ textual => both_scalar textual h)
      fun target _ => .of_flat (by simp) (by simp)
  | @set path op s t mark mark' h =>
    refine ⟨?_, .pure .nil⟩
    rw [domain_condition, domain_condition]
    refine twin_condition hcatalog hentity rfl rfl (fun column textual => ?_)
      fun target _ => .of_flat (by simp) (by simp)
    unfold comparison
    dsimp only
    split
    · exact .ok (alike_membership _ h)
    · exact .error
  | domain _ ih =>
    refine ⟨?_, .pure .nil⟩
    rw [domain_condition, domain_condition]
    exact twin_condition hcatalog hentity rfl rfl (fun _ _ => .error)
      fun target htarget => .of_domain fun row => (ih htarget).1
  | query h =>
    refine ⟨?_, .pure .nil⟩
    rw [domain_condition, domain_condition]
    exact twin_condition hcatalog hentity rfl rfl (fun _ _ => .error) fun target _ => .of_query h

end Lowering

namespace Domain

variable {dialect : Dialect} {catalog : Catalog} {entity : Entity} {row : String} {d e : Domain}

/-- Where domains differ in literals alone, both are lowered or none, and to the same text. -/
theorem toStatement_of_sameShape (hcatalog : catalog.SqlHookless)
    (hentity : ∀ field ∈ entity.fields, field.sqlHook = none) (h : d.SameShape e) :
    ((∃ s, d.toStatement dialect catalog entity row = .ok s) ↔
        ∃ t, e.toStatement dialect catalog entity row = .ok t) ∧
      ∀ s t, d.toStatement dialect catalog entity row = .ok s →
        e.toStatement dialect catalog entity row = .ok t → s.sql = t.sql := by
  have hboth : Except.Both (fun s t : Statement => s.sql = t.sql)
      (d.toStatement dialect catalog entity row) (e.toStatement dialect catalog entity row) := by
    refine ((Lowering.twin_domain hcatalog hentity h).1 0).bind ?_
    rintro ⟨p, _⟩ ⟨q, _⟩ ⟨hpq, -⟩
    refine .ok ?_
    simp only [Statement.ofPieces, Statement.append]
    rw [Piece.Alike.texts_eq hpq]
  exact ⟨hboth.exists_ok_iff, fun s t => hboth.of_ok⟩

/-- A quote in a pattern and in a member of a set leaves no trace in the text. -/
theorem toStatement_of_sameShape_quotes :
    let entity : Entity := { name := "i", fields := [{ name := "n", type := .char }] }
    let catalog : Catalog := { entities := [entity] }
    let domain (v w : String) : Domain := .nary .or [.leaf "n" .like (.scalar (.text v)),
      .leaf "id" .any (.domain (.leaf "n" .mem (.set ⟨[.null, .text w]⟩)))] none
    let d := domain "a" "b"
    let e := domain "' OR '1' = '1" "'"
    (catalog.SqlHookless ∧ (∀ field ∈ entity.fields, field.sqlHook = none) ∧ d.SameShape e) ∧
      ∃ s t, d.toStatement .postgres catalog entity "i" = .ok s ∧
        e.toStatement .postgres catalog entity "i" = .ok t ∧ s.sql = t.sql := by
  intro entity catalog domain d e
  have hentity : ∀ field ∈ entity.fields, field.sqlHook = none := by simp [entity]
  have hcatalog : catalog.SqlHookless := by
    intro other hother
    obtain rfl := mem_singleton.1 hother
    exact hentity
  have hshape : d.SameShape e := by
    refine .child (.scalar ⟨rfl, fun _ => rfl⟩) (.child (.domain (.set ?_)) (.empty ..))
    exact .cons rfl (.cons rfl .nil)
  have hsame := @toStatement_of_sameShape .postgres catalog entity "i" d e hcatalog hentity hshape
  obtain ⟨s, hs⟩ : ∃ s, d.toStatement .postgres catalog entity "i" = .ok s := ⟨_, rfl⟩
  obtain ⟨t, ht⟩ := hsame.1.1 ⟨s, hs⟩
  exact ⟨⟨hcatalog, hentity, hshape⟩, s, t, hs, ht, hsame.2 s t hs ht⟩

end Domain

end QueryDomain
