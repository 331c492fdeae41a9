import QueryDomain.Proofs.Optimization.Depth
import QueryDomain.Proofs.Optimization.Rounds

/-! What the optimizer makes of conditions on a field that an entity has of its own: of memberships,
of traversals, and of traversals that are joined under one connective. -/
namespace QueryDomain

open List Domain

/-- A field that conditions on the entity can name, and that is searched where it is declared. -/
structure Entity.HasOwn (entity : Entity) (path : String) (field : Field) : Prop where
  plain : '.' ∉ path.toList
  found : entity.field? path = some field
  stored : field.stored = true
  own : field.delegatedVia = none

namespace Entity.HasOwn

variable {entity : Entity} {field : Field} {c : Condition}

theorem rest? (h : entity.HasOwn c.path field) : c.rest? = none := Text.cut_snd_eq_none.2 h.plain

theorem isDotted (h : entity.HasOwn c.path field) : c.isDotted = false := by
  simpa [Condition.isDotted] using h.plain

theorem head (h : entity.HasOwn c.path field) : entity.field? c.head = some field := by
  rw [Condition.head, Text.cut_fst_of_none h.rest?]
  exact h.found

theorem headType? (h : entity.HasOwn c.path field) : entity.headType? c.path = some field.type := by
  have hhead : entity.field? (Text.cut '.' c.path).1 = some field := h.head
  rw [Entity.headType?, hhead]
  rfl

end Entity.HasOwn

/-- The types of fields that no pass looks at for the sake of their literals, and that of `id`. -/
def Optimizer.plainTypes : List FieldType := [.integer, .char, .many2one, .one2many, .many2many]

structure Catalog.LeadsTo (catalog : Catalog) (entity : Entity) (path : String) (field : Field)
    (target : Entity) : Prop extends entity.HasOwn path field where
  relational : field.isRelational = true
  notId : path ≠ Entity.idName
  comodel : field.comodel.bind catalog.entity? = some target

namespace Catalog.LeadsTo

variable {catalog : Catalog} {entity target : Entity} {path : String} {field : Field}
  (h : catalog.LeadsTo entity path field target)

include h

theorem mem_plainTypes : field.type ∈ Optimizer.plainTypes := by
  have hrelational := h.relational
  unfold Field.isRelational at hrelational
  cases htype : field.type <;> rw [htype] at hrelational <;> cases hrelational <;> decide

theorem not_integer : field.type ≠ .integer := by
  intro hinteger
  have hrelational := h.relational
  rw [Field.isRelational, hinteger] at hrelational
  cases hrelational

end Catalog.LeadsTo

namespace Optimizer

variable {catalog : Catalog} {entity target : Entity} {path : String} {field : Field} {ctx : Context}
  {c : Condition} {d e : Domain} {k : Connective}

theorem keeps_or_treats (h : ctx.entity.HasOwn c.path field) (htype : field.type ∈ plainTypes)
    (hop : c.operator.isMembership = true ∨ c.operator.isTraversal = true)
    (hlevel : ctx.level = .search) : ∀ pass ∈ standard.candidates ctx c,
      (pass.run c ctx).result = .ok none ∨
      (c.operator.isMembership = true ∧ (pass.run = Pass.membershipOperand ∨ pass.run = Pass.labels)) ∨
      (c.operator.isTraversal = true ∧ pass.run = Pass.relatedDomain) ∨
      (field.type.isX2Many = true ∧ pass.run = Pass.manyMembers) ∨
      (field.type = .integer ∧ pass.run = Pass.numericLiterals) := by
  intro pass hpass
  obtain ⟨entry, hentry, hentrylevel, hcovers, rfl⟩ := mem_candidates.1 hpass
  have hfield : ctx.field c = .ok field := Context.field_eq_ok.2 h.head
  have hop : c.operator = .mem ∨ c.operator = .notMem ∨ c.operator = .any ∨ c.operator = .notAny := by
    cases hoperator : c.operator <;> simp [hoperator, Operator.isMembership, Operator.isTraversal] at hop ⊢
  rw [h.headType?] at hcovers
  rw [hlevel] at hentrylevel
  have hresolve : (Pass.resolvePath c ctx).result = .ok none :=
    Pass.resolvePath_eq_none.2 ⟨field, hfield, .inl h.rest?⟩
  have hinherited : (Pass.inheritedField c ctx).result = .ok none :=
    Pass.inheritedField_eq_none.2 ⟨field, hfield, h.own⟩
  have hcomputed : (Pass.computedField c ctx).result = .ok none :=
    Pass.computedField_eq_none.2 ⟨field, hfield, by simp [h.stored]⟩
  simp only [plainTypes, mem_cons, not_mem_nil, or_false] at htype
  cases Registry.isStandard_of_mem hentry
  all_goals first
    | exact .inl ‹_›
    | exact absurd hentrylevel (by decide)
    | skip
  all_goals
    obtain hop | hop | hop | hop := hop <;> rw [hop] at hcovers ⊢ <;>
      obtain htype | htype | htype | htype | htype := htype <;> rw [htype] at hcovers ⊢ <;> first
        | exact absurd hcovers (by decide)
        | simp [Operator.isMembership, Operator.isTraversal, FieldType.isX2Many]

theorem kept_of_candidates (h : ∀ pass ∈ standard.candidates (.still catalog .search entity) c,
    (pass.run c (.still catalog .search entity)).result = .ok none) :
    c.Kept catalog .search entity :=
  fun entry hentry hlevel hcovers => h _ (mem_candidates.2 ⟨entry, hentry, hlevel, hcovers, rfl⟩)

theorem isTraversal_of_membership {op : Operator} (h : op.isMembership = true) :
    op.isTraversal = false := by
  cases op <;> cases h <;> rfl

theorem isMembership_of_traversal {op : Operator} (h : op.isTraversal = true) :
    op.isMembership = false := by
  cases op <;> cases h <;> rfl

/-- A membership of an own field is nothing that the optimizer changes, if it names no labels and the
field leads to one record at most. -/
theorem settled_membership (h : entity.HasOwn c.path field) (htype : field.type ∈ plainTypes)
    (hmany : field.type.isX2Many = false) (hop : c.operator.isMembership = true) {values : ValueSet}
    (hoperand : c.operand = .set values) (hsome : values.isEmpty = false)
    (hlabels : field.isRelational = true → ∀ v ∈ values.values, Pass.isLabel v = false)
    (hnumbers : field.type = .integer → (Operand.set values).LiteralsAre Pass.isNumber) :
    Settled catalog .search (.condition c) entity := by
  have hfield : (Context.still catalog .search entity).field c = .ok field :=
    Context.field_eq_ok.2 h.head
  refine .condition (kept_of_candidates fun pass hpass => ?_) fun inner _ hinner => ?_
  · have htreated := @keeps_or_treats field (.still catalog .search entity) c h htype (.inl hop) rfl
    obtain hkeep | ⟨-, hrun⟩ | ⟨htraversal, -⟩ | ⟨hmany', -⟩ | ⟨hinteger, hrun⟩ := htreated pass hpass
    · exact hkeep
    · obtain hrun | hrun := hrun <;> rw [hrun]
      · exact Pass.membershipOperand_eq_none.2 ⟨values, hoperand, hsome⟩
      · refine Pass.labels_eq_none.2 ⟨field, hfield, ?_⟩
        cases hrelational : field.isRelational with
        | false => exact .inl rfl
        | true =>
          refine .inr (.inr ?_)
          unfold Pass.namesLabels
          rw [hoperand]
          simpa [hop, any_eq_false] using hlabels hrelational
    · rw [isTraversal_of_membership hop] at htraversal
      cases htraversal
    · rw [hmany] at hmany'
      cases hmany'
    · rw [hrun]
      refine Pass.numericLiterals_eq_none.2 fun _ => ⟨⟨field, hfield⟩, ?_, ?_⟩
      · have hordering : c.operator.isOrdering = false := by
          cases hoperator : c.operator <;> rw [hoperator] at hop <;> cases hop <;> rfl
        simp [Pass.ordersUnset, hordering]
      · rw [hoperand]
        exact hnumbers hinteger
  · rw [hoperand] at hinner
    cases hinner

section Traversals

variable (h : catalog.LeadsTo entity c.path field target)

include h

theorem target_of_own (hcatalog : ctx.catalog = catalog) : ctx.target c field = .ok target := by
  have hname : field.name ≠ Entity.idName := by
    rw [Entity.name_of_field? h.found]
    exact h.notId
  unfold Context.target
  rw [if_neg hname, if_pos h.relational, hcatalog]
  exact Catalog.comodel_eq_ok.2 h.comodel

variable (hop : c.operator.isTraversal = true) {inner : Domain} (hoperand : c.operand = .domain inner)

include hop hoperand

theorem keeps_or_relates (hentity : ctx.entity = entity) (hlevel : ctx.level = .search) :
    ∀ pass ∈ standard.candidates ctx c,
      (pass.run c ctx).result = .ok none ∨ pass.run = Pass.relatedDomain := by
  intro pass hpass
  obtain hkeep | ⟨hmember, -⟩ | ⟨-, hrun⟩ | ⟨-, hrun⟩ | ⟨hinteger, -⟩ :=
    keeps_or_treats (hentity ▸ h.toHasOwn) h.mem_plainTypes (.inr hop) hlevel pass hpass
  · exact .inl hkeep
  · rw [isMembership_of_traversal hop] at hmember
    cases hmember
  · exact .inr hrun
  · refine .inl ?_
    rw [hrun]
    refine Pass.manyMembers_eq_none.2 fun values hvalues => ?_
    rw [hoperand] at hvalues
    cases hvalues
  · exact absurd hinteger h.not_integer

theorem settled_traversal (hinner : Settled catalog .search inner target)
    (hfalse : inner.isFalse = false) (htrue : (inner.isTrue && field.type == .many2one) = false) :
    Settled catalog .search (.condition c) entity := by
  have hfield : (Context.still catalog .search entity).field c = .ok field :=
    Context.field_eq_ok.2 h.head
  have htarget : (Context.still catalog .search entity).target c field = .ok target :=
    target_of_own h rfl
  refine .condition (kept_of_candidates fun pass hpass => ?_) fun inner' target' hinner' _ htarget' => ?_
  · obtain hkeep | hrun := keeps_or_relates h hop hoperand rfl rfl pass hpass
    · exact hkeep
    · rw [hrun]
      exact Pass.relatedDomain_eq_none.2 ⟨field, target, hfield, htarget, .inr ⟨inner, inner,
        hoperand, rfl, hfalse, htrue, Domain.same_iff.2 rfl⟩⟩
  · rw [hoperand] at hinner'
    cases hinner'
    have htarget : catalog.target? entity c.path = some target :=
      (Context.target_eq_ok hfield).1 htarget
    rw [htarget] at htarget'
    cases htarget'
    exact hinner

end Traversals

/-- With so many calls inside each other and so many changes, the optimizer makes the one domain of the
other, but for marks. -/
def Makes (catalog : Catalog) (n : Nat) (entity : Entity) (d e : Domain) : Prop :=
  ∃ r, (standard.settle (standard.contextAt catalog n .search entity) n d).result = .ok r ∧
    r.canonical = e.canonical

def Joined (catalog : Catalog) (n : Nat) (entity : Entity) (k : Connective) (ds : List Domain)
    (e : Domain) : Prop :=
  ∀ rounds ≥ n, ∃ r, (standard.stepNary k (standard.contextAt catalog n .search entity) rounds
    ds).result = .ok (.done r) ∧ r.canonical = e.canonical

variable {n m : Nat}

namespace Makes

theorem of_settled (h : Settled catalog .search d entity) (hn : d.height ≤ n) :
    Makes catalog n entity d d := by
  obtain ⟨r, hr, hsame⟩ := settle_of_settled h hn n
  exact ⟨r, hr, canonical_of_alike hsame⟩

theorem mono (h : Makes catalog n entity d e) (hle : n ≤ m) : Makes catalog m entity d e := by
  obtain ⟨r, hr, hsame⟩ := h
  have hchanges := settle_of_le hle hr
  exact ⟨r, by rw [settle_le (contextAt_le hle) m d (by rw [hchanges]; nofun), hchanges], hsame⟩

theorem congr {e' : Domain} (h : Makes catalog n entity d e) (hsame : e.canonical = e'.canonical) :
    Makes catalog n entity d e' := by
  obtain ⟨r, hr, hresult⟩ := h
  exact ⟨r, hr, hresult.trans hsame⟩

theorem of_changed (hmark : d.mark? = none) {next : Domain}
    (hstep : (standard.step (standard.contextAt catalog (n + 1) .search entity) d).result =
      .ok (.changed next))
    (h : Makes catalog n entity next e) : Makes catalog (n + 1) entity d e := by
  obtain ⟨r, hr, hsame⟩ := h
  refine ⟨r, settle_turn.2 (.inr (.inr ⟨next, n, by rw [covered, hmark], hstep, rfl, ?_⟩)), hsame⟩
  rw [settle_le (contextAt_le (Nat.le_succ n)) n next (by rw [hr]; nofun), hr]

theorem of_done (hmark : d.mark? = none) {r : Domain} (hsame : r.canonical = e.canonical)
    (hstep : (standard.step (standard.contextAt catalog n .search entity) d).result = .ok (.done r)) :
    Makes catalog n entity d e :=
  ⟨r, settle_of_done (by rw [covered, hmark]) hstep, hsame⟩

theorem of_joined {ds : List Domain} (h : Joined catalog n entity k ds e)
    (hn : n ≤ standard.maxIterations) : Makes catalog n entity (.nary k ds none) e := by
  obtain ⟨r, hr, hsame⟩ := h _ hn
  exact of_done rfl hsame hr

theorem exists_node (h : Makes catalog n entity d e) (hn : n ≤ standard.maxIterations) :
    ∃ r, (node catalog (n + 1) standard .search entity d).result = .ok r ∧
      r.canonical = e.canonical := by
  obtain ⟨r, hr, hsame⟩ := h
  exact ⟨r, settle_of_le hn hr, hsame⟩

end Makes

theorem height_of_canonical (h : d.canonical = e.canonical) : d.height = e.height := by
  rw [← height_mapValues Value.canonical d, ← height_mapValues Value.canonical e]
  exact congrArg height h

theorem canonical_sortedJoin (ds : List Domain) :
    (sortedJoin k ds).canonical = sortedJoin k (ds.map canonical) := by
  have happly : ∀ ds : List Domain, (k.apply ds).canonical = k.apply (ds.map canonical) :=
    fun ds => k.mapValues_apply Value.canonical ds
  have hsort : ∀ ds : List Domain,
      (sortChildren ds).map canonical = sortChildren (ds.map canonical) :=
    fun ds => map_mergeSort fun a _ b _ => (childLe_canonical a b).symm
  have hchildren : ∀ d : Domain, d.canonical.children = d.children.map canonical := by
    intro d
    cases d <;> simp [canonical_nary, children]
  unfold sortedJoin
  dsimp only
  rw [← happly, connective?_canonical]
  split
  · rw [happly, hsort, hchildren]
  · rfl

namespace Joined

variable {ds es fs : List Domain} (h : Forall₂ (Makes catalog n entity) ds es)
  (hn : n ≤ standard.maxIterations)

include h hn

theorem exists_rebuild : ∃ r,
    (rebuild k (standard.contextAt catalog (n + 1) .search entity) ds).result = .ok r ∧
      r.canonical = (sortedJoin k es).canonical := by
  have hnodes : ∃ os, Forall₂ (fun d o =>
      (node catalog (n + 1) standard .search entity d).result = .ok o) ds os ∧
        os.map canonical = es.map canonical := by
    induction h with
    | nil => exact ⟨[], .nil, rfl⟩
    | cons hd _ ih =>
      obtain ⟨o, ho, hsame⟩ := hd.exists_node hn
      obtain ⟨os, hos, hall⟩ := ih
      exact ⟨o :: os, .cons ho hos, by rw [map_cons, map_cons, hsame, hall]⟩
  obtain ⟨os, hos, hsame⟩ := hnodes
  exact ⟨sortedJoin k os, rebuild_eq_ok.2 ⟨os, hos, rfl⟩,
    by rw [canonical_sortedJoin, canonical_sortedJoin, hsame]⟩

theorem of_folded (hfold : (sortedJoin k es).connective? ≠ some k) :
    Joined catalog (n + 1) entity k ds (sortedJoin k es) := by
  intro rounds _
  obtain ⟨r, hr, hsame⟩ := exists_rebuild (k := k) h hn
  rw [← connective?_canonical, ← hsame, connective?_canonical] at hfold
  refine ⟨r, ?_, hsame⟩
  rw [stepNary.eq_def, Run.result_bind, hr]
  dsimp only [Except.bind]
  rw [if_pos hfold]
  rfl

variable (hsorted : sortedJoin k es = .nary k fs none)

include hsorted

theorem exists_nary : ∃ fs' mark,
    (rebuild k (standard.contextAt catalog (n + 1) .search entity) ds).result =
      .ok (.nary k fs' mark) ∧ fs'.map canonical = fs.map canonical := by
  obtain ⟨r, hr, hsame⟩ := exists_rebuild (k := k) h hn
  rw [hsorted, canonical_nary] at hsame
  cases r with
  | nary l fs' mark =>
    rw [canonical_nary, nary.injEq] at hsame
    obtain ⟨rfl, hsame, -⟩ := hsame
    exact ⟨fs', mark, hr, hsame⟩
  | _ => cases hsame

theorem of_apart (hapart : mergeAll k entity fs = fs) :
    Joined catalog (n + 1) entity k ds (.nary k fs none) := by
  intro rounds _
  obtain ⟨fs', mark, hr, hsame⟩ := exists_nary h hn hsorted
  have hmerged : (mergeAll k entity fs').map canonical = fs'.map canonical := by
    rw [← mergeAll_canonical, hsame, mergeAll_canonical, hapart]
  refine ⟨.nary k fs' (some ⟨entity.name, .search⟩), stepNary_of_merged hr hmerged, ?_⟩
  simp only [canonical_nary, hsame]

/-- Where children are merged to fewer, these are put together in turn. -/
theorem of_merged (hless : (mergeAll k entity fs).length < fs.length)
    (hagain : ∀ fs', fs'.map canonical = fs.map canonical →
      Joined catalog n entity k (mergeAll k entity fs') e) :
    Joined catalog (n + 1) entity k ds e := by
  intro rounds hrounds
  obtain ⟨fewer, rfl⟩ := Nat.exists_eq_succ_of_ne_zero (by omega : rounds ≠ 0)
  obtain ⟨fs', mark, hr, hsame⟩ := exists_nary h hn hsorted
  obtain ⟨r, hagain, hresult⟩ := (hagain fs' hsame) fewer (by omega)
  have hfewer : (mergeAll k entity fs').length < fs'.length := by
    have hlength := congrArg length hsame
    have hmerged := congrArg (fun ds => (mergeAll k entity ds).length) hsame
    simp only [mergeAll_canonical, length_map] at hlength hmerged
    omega
  refine ⟨r, ?_, hresult⟩
  rw [stepNary.eq_def, Run.result_bind, hr]
  dsimp only [Except.bind]
  rw [if_neg (by simp [connective?]), Run.result_bind, result_applyMerges]
  dsimp only [Except.bind]
  have hchanged : ¬sameAll (mergeAll k entity fs') fs' = true := by
    intro hall
    have := congrArg length (sameAll_eq_true_iff.1 hall)
    simp only [length_map] at this
    omega
  change (if sameAll (mergeAll k entity fs') fs' = true then _ else _ : Run _ _).result = _
  rw [if_neg hchanged]
  refine (congrArg Run.result (if_neg (Nat.not_le.2 hfewer))).trans ?_
  change (standard.stepNary k _ fewer (mergeAll k entity fs')).result = _
  rw [stepNary_le (contextAt_le (Nat.le_succ n)) k fewer _ (by simp [hagain]), hagain]

end Joined

theorem firstChange_of_only {passes : List NamedPass}
    (hothers : ∀ pass ∈ passes, (pass.run c ctx).result = .ok none ∨
      (pass.run c ctx).result = .ok (some d))
    (hone : ∃ pass ∈ passes, (pass.run c ctx).result = .ok (some d)) :
    ∃ name, (firstChange c ctx passes).result = .ok (some (name, d)) := by
  induction passes with
  | nil =>
    obtain ⟨pass, hpass, -⟩ := hone
    cases hpass
  | cons pass passes ih =>
    rw [forall_mem_cons] at hothers
    simp only [firstChange, Run.result_bind]
    obtain hpass | hpass := hothers.1
    · rw [hpass]
      refine ih hothers.2 ?_
      obtain ⟨other, hother, hchange⟩ := hone
      obtain rfl | hother := mem_cons.1 hother
      · rw [hpass] at hchange
        cases hchange
      · exact ⟨other, hother, hchange⟩
    · rw [hpass]
      exact ⟨pass.name, rfl⟩

theorem firstChange_of_first {before after : List NamedPass} {pass : NamedPass}
    (hbefore : ∀ earlier ∈ before, (earlier.run c ctx).result = .ok none)
    (hpass : (pass.run c ctx).result = .ok (some d)) :
    (firstChange c ctx (before ++ pass :: after)).result = .ok (some (pass.name, d)) := by
  induction before with
  | nil =>
    rw [nil_append, firstChange, Run.result_bind, hpass]
    rfl
  | cons earlier before ih =>
    rw [forall_mem_cons] at hbefore
    rw [cons_append, firstChange, Run.result_bind, hbefore.1]
    exact ih hbefore.2

theorem stepCondition_of_first {before after : List NamedPass} {pass : NamedPass}
    (hsplit : standard.candidates ctx c = before ++ pass :: after)
    (hbefore : ∀ earlier ∈ before, (earlier.run c ctx).result = .ok none)
    (hpass : (pass.run c ctx).result = .ok (some d)) :
    (standard.stepCondition ctx c).result = .ok (.changed d) := by
  rw [stepCondition, Run.result_bind, hsplit, firstChange_of_first hbefore hpass]
  rfl

theorem stepCondition_of_only
    (hothers : ∀ pass ∈ standard.candidates ctx c, (pass.run c ctx).result = .ok none ∨
      (pass.run c ctx).result = .ok (some d))
    (hone : ∃ pass ∈ standard.candidates ctx c, (pass.run c ctx).result = .ok (some d)) :
    (standard.stepCondition ctx c).result = .ok (.changed d) := by
  obtain ⟨name, hfirst⟩ := firstChange_of_only hothers hone
  rw [stepCondition, Run.result_bind, hfirst]
  rfl

theorem makes_traversal (h : catalog.LeadsTo entity c.path field target)
    (hop : c.operator.isTraversal = true) (hmark : c.mark = none) {inner : Domain}
    (hoperand : c.operand = .domain inner) (hinner : Makes catalog n target inner e)
    (hn : n ≤ standard.maxIterations) (he : Settled catalog .search e target)
    (hheight : e.height < n) (hfalse : e.isFalse = false)
    (htrue : (e.isTrue && field.type == .many2one) = false) :
    Makes catalog (n + 1) entity (.condition c) (.condition (c.withOperand (.domain e))) := by
  obtain ⟨r, hr, hsame⟩ := hinner.exists_node hn
  have hrfalse : r.isFalse = false := by
    rw [← isFalse_canonical, hsame, isFalse_canonical, hfalse]
  have hrtrue : (r.isTrue && field.type == .many2one) = false := by
    rwa [← isTrue_canonical, hsame, isTrue_canonical]
  have hresult : ∀ mark, (Domain.condition ⟨c.path, c.operator, .domain r, mark⟩).canonical =
      (Domain.condition (c.withOperand (.domain e))).canonical := by
    intro mark
    rw [canonical_condition, canonical_condition, Condition.canonical_eq, Condition.canonical_eq]
    simp [Condition.withOperand, hsame]
  have hcandidates : ∀ pass ∈ standard.candidates
      (standard.contextAt catalog (n + 1) .search entity) c, (pass.run c
        (standard.contextAt catalog (n + 1) .search entity)).result = .ok none ∨
          pass.run = Pass.relatedDomain :=
    keeps_or_relates h hop hoperand rfl rfl
  have hfield : (standard.contextAt catalog (n + 1) .search entity).field c = .ok field :=
    Context.field_eq_ok.2 h.head
  have htarget : (standard.contextAt catalog (n + 1) .search entity).target c field = .ok target :=
    target_of_own h rfl
  by_cases hkeep : r.same inner = true
  · have hsame' : (Domain.condition (c.withMark ⟨entity.name, .search⟩)).canonical =
        (Domain.condition (c.withOperand (.domain e))).canonical := by
      rw [← hresult none, canonical_condition, canonical_condition, Condition.canonical_eq,
        Condition.canonical_eq]
      simp [Condition.withMark, hoperand, Domain.same_iff.1 hkeep]
    refine Makes.of_done hmark hsame' (stepCondition_of_kept fun pass hpass => ?_)
    obtain hpass | hrun := hcandidates pass hpass
    · exact hpass
    · rw [hrun]
      exact Pass.relatedDomain_eq_none.2 ⟨field, target, hfield, htarget,
        .inr ⟨inner, r, hoperand, hr, hrfalse, hrtrue, hkeep⟩⟩
  · have hnext : Settled catalog .search (.condition (c.withOperand (.domain r))) entity :=
      settled_traversal (c := c.withOperand (.domain r)) h hop rfl
        (he.of_canonical hsame.symm) hrfalse hrtrue
    have hnextheight : (Domain.condition (c.withOperand (.domain r))).height ≤ n := by
      rw [Condition.withOperand, height, height_of_canonical hsame]
      omega
    have hrelates : (Pass.relatedDomain c
        (standard.contextAt catalog (n + 1) .search entity)).result =
          .ok (some (.condition (c.withOperand (.domain r)))) := by
      unfold Pass.relatedDomain
      simp only [Run.result_bind_eq_ok, Run.result_liftM]
      refine ⟨field, hfield, target, htarget, ?_⟩
      rw [hoperand]
      simp only [Run.result_bind_eq_ok]
      exact ⟨r, hr, by simp [hrfalse, hrtrue, hkeep]⟩
    refine .of_changed hmark (stepCondition_of_only (fun pass hpass => ?_)
      ⟨⟨"traverse_relation", Pass.relatedDomain⟩, ?_, hrelates⟩)
      ((Makes.of_settled hnext hnextheight).congr (hresult none))
    · obtain hpass | hrun := hcandidates pass hpass
      · exact .inl hpass
      · rw [hrun]
        exact .inr hrelates
    · exact mem_candidates.2 ⟨_, PassEntry.IsStandard.relatedDomain.mem, rfl,
        PassScope.covers_operators.2 (Operator.mem_traversals.2 hop), rfl⟩

end Optimizer

end QueryDomain
