import QueryDomain.Proofs.Domain.RoundTrip
import QueryDomain.Proofs.Optimization.Invariant
import QueryDomain.Proofs.Schema.Demands

/-! Domains whose JSON form tells all there is to them. Days and moments are written as text, so
they may stand only where the type of a field says what to read the text as; paths have to be those
that a condition can be read with. What comes from JSON is such a domain, and so is what it is
optimized to. -/
namespace QueryDomain

open List

namespace Text

variable {separator : Char}

theorem splitChars_of_not_mem {cs : List Char} (h : separator ∉ cs) :
    splitChars separator cs = [cs] := by
  induction cs with
  | nil => rfl
  | cons c cs ih =>
    rw [mem_cons, not_or] at h
    rw [splitChars, if_neg (Ne.symm h.1), ih h.2]

theorem splitChars_append {front : List Char} (h : separator ∉ front) (rest : List Char) :
    splitChars separator (front ++ separator :: rest) = front :: splitChars separator rest := by
  induction front with
  | nil => exact if_pos rfl
  | cons c front ih =>
    rw [mem_cons, not_or] at h
    rw [cons_append, splitChars, if_neg (Ne.symm h.1), ih h.2]

theorem toList_eq_of_cut {s rest : String} (h : (cut separator s).2 = some rest) :
    s.toList = (cut separator s).1.toList ++ separator :: rest.toList := by
  unfold cut at h ⊢
  rw [span_eq_takeWhile_dropWhile] at h ⊢
  dsimp only at h ⊢
  split at h
  · cases h
  · rename_i c tail htail
    cases h
    have hne : s.toList.dropWhile (· != separator) ≠ [] := by simp [htail]
    have hc : c = separator := by
      simpa [htail] using head_dropWhile_not (· != separator) hne
    rw [hc] at htail
    dsimp only
    rw [String.toList_ofList, String.toList_ofList, ← htail, takeWhile_append_dropWhile]

theorem split_of_cut {s rest : String} (h : (cut separator s).2 = some rest) :
    split separator s = (cut separator s).1 :: split separator rest := by
  rw [split, toList_eq_of_cut h, splitChars_append (cut_snd_eq_none.1 cut_cut_fst), map_cons,
    String.ofList_toList, split]

theorem split_of_not_mem {s : String} (h : separator ∉ s.toList) : split separator s = [s] := by
  rw [split, splitChars_of_not_mem h, map_singleton, String.ofList_toList]

end Text

namespace Condition

variable {path rest : String}

theorem isPath_rest (h : isPath path = true) (hrest : (Text.cut '.' path).2 = some rest) :
    isPath rest = true := by
  rw [isPath, Text.split_of_cut hrest, all_cons, Bool.and_eq_true] at h
  exact h.2

theorem isPath_head (h : isPath path = true) : isPath (Text.cut '.' path).1 = true := by
  cases hrest : (Text.cut '.' path).2 with
  | none => rwa [Text.cut_fst_of_none hrest]
  | some rest =>
    rw [isPath, Text.split_of_cut hrest, all_cons, Bool.and_eq_true] at h
    rw [isPath, Text.split_of_not_mem (Text.cut_snd_eq_none.1 Text.cut_cut_fst), all_cons, h.1]
    rfl

end Condition

theorem Value.IsKept.isCalendar_eq_false {v : Value} (h : v.IsKept) : v.isCalendar = false := by
  cases v with
  | date d => cases h.2
  | timestamp t => cases h.2
  | _ => rfl

/-- Records are labelled and fields inherited by paths that a condition can be read with. -/
structure Catalog.NamesPaths (catalog : Catalog) : Prop where
  labels : ∀ entity ∈ catalog.entities, Condition.isPath entity.recName = true
  links : ∀ entity ∈ catalog.entities, ∀ field ∈ entity.fields, ∀ link,
    field.delegatedVia = some link → Condition.isPath link = true

/-- In its JSON form the condition loses no more than the types of days and moments, and those the
field tells. -/
structure Condition.IsPrintable (entity : Entity) (c : Condition) : Prop where
  path : isPath c.path = true
  set : ∀ values, c.operand = .set values → values.IsDistinct
  query : ∀ q, c.operand = .query q → ∀ v ∈ q.params, v.IsKept
  calendar : (∃ v ∈ c.operand.literals, v.isCalendar = true) → Pass.comparesLiterals c = true ∧
    ∀ field, entity.field? c.head = some field → field.type.isTemporal = true

inductive Domain.IsPrintable (catalog : Catalog) : Domain → Entity → Prop
  | constant (v entity) : IsPrintable catalog (.constant v) entity
  | negation {d entity} : IsPrintable catalog d entity → IsPrintable catalog (.negation d) entity
  | nary {k children mark entity} : (∀ d ∈ children, IsPrintable catalog d entity) →
      IsPrintable catalog (.nary k children mark) entity
  | condition {c entity} : c.IsPrintable entity →
      (∀ inner target, c.operand = .domain inner → catalog.Leads entity c.path target →
        IsPrintable catalog inner target) →
      IsPrintable catalog (.condition c) entity

namespace Condition.IsPrintable

variable {entity : Entity} {c c' : Condition}

theorem of_noCalendar (hpath : isPath c.path = true)
    (hset : ∀ values, c.operand = .set values → values.IsDistinct)
    (hquery : ∀ q, c.operand = .query q → ∀ v ∈ q.params, v.IsKept)
    (hliterals : ∀ v ∈ c.operand.literals, v.isCalendar = false) : c.IsPrintable entity where
  path := hpath
  set := hset
  query := hquery
  calendar h := by
    obtain ⟨v, hv, hcalendar⟩ := h
    rw [hliterals v hv] at hcalendar
    cases hcalendar

theorem traversal {path : String} {op : Operator} {inner : Domain} {mark : Option Mark}
    (hpath : isPath path = true) :
    (⟨path, op, .domain inner, mark⟩ : Condition).IsPrintable entity :=
  .of_noCalendar hpath nofun nofun fun _ hv => (not_mem_nil hv).elim

theorem members {path : String} {op : Operator} {values : ValueSet} (hpath : isPath path = true)
    (hdistinct : values.IsDistinct) (hvalues : ∀ v ∈ values.values, v.isCalendar = false) :
    (⟨path, op, .set values, none⟩ : Condition).IsPrintable entity := by
  refine .of_noCalendar hpath ?_ nofun hvalues
  rintro _ ⟨⟩
  exact hdistinct

theorem unset {path : String} {op : Operator} (hpath : isPath path = true) :
    (⟨path, op, .set .unset, none⟩ : Condition).IsPrintable entity :=
  .members hpath rfl fun _ hv => mem_singleton.1 hv ▸ rfl

theorem of_literals (h : c.IsPrintable entity) (hpath : c'.path = c.path)
    (hset : ∀ values, c'.operand = .set values → values.IsDistinct)
    (hquery : ∀ q, c'.operand = .query q → c.operand = .query q)
    (hliterals : ∀ v ∈ c'.operand.literals, v ∈ c.operand.literals)
    (hcompares : Pass.comparesLiterals c = true → Pass.comparesLiterals c' = true) :
    c'.IsPrintable entity where
  path := hpath ▸ h.path
  set := hset
  query q hq := h.query q (hquery q hq)
  calendar hcalendar := by
    obtain ⟨v, hv, hcalendar⟩ := hcalendar
    obtain ⟨hc, htype⟩ := h.calendar ⟨v, hliterals v hv, hcalendar⟩
    refine ⟨hcompares hc, ?_⟩
    rwa [head, hpath]

theorem remark (h : c.IsPrintable entity) (mark : Option Mark) :
    (⟨c.path, c.operator, c.operand, mark⟩ : Condition).IsPrintable entity :=
  ⟨h.path, h.set, h.query, h.calendar⟩

/-- What does not compare literals with the field itself has no days or moments. -/
theorem isCalendar_of_not_compares (h : c.IsPrintable entity)
    (hcompares : Pass.comparesLiterals c = false) :
    ∀ v ∈ c.operand.literals, v.isCalendar = false := by
  intro v hv
  rw [Bool.eq_false_iff]
  intro hcalendar
  rw [(h.calendar ⟨v, hv, hcalendar⟩).1] at hcompares
  cases hcompares

theorem isCalendar_of_isRelational (h : c.IsPrintable entity) {field : Field}
    (hfield : entity.field? c.head = some field) (hrelational : field.isRelational = true) :
    ∀ v ∈ c.operand.literals, v.isCalendar = false := by
  intro v hv
  rw [Bool.eq_false_iff]
  intro hcalendar
  have htype := (h.calendar ⟨v, hv, hcalendar⟩).2 field hfield
  unfold Field.isRelational at hrelational
  cases hfield : field.type <;> rw [hfield] at htype hrelational <;> first
    | exact (Bool.false_ne_true htype).elim
    | exact (Bool.false_ne_true hrelational).elim

end Condition.IsPrintable

namespace Pass

variable {type : FieldType} {x : Operand}

theorem isDistinct_of_isTyped {values : ValueSet} (h : IsTyped type (.set values)) :
    values.IsDistinct := by
  unfold IsTyped at h
  split at h
  · exact h.1.2
  · exact h.2
  · exact h.2
  · exact h.2
  · exact h.2
  · exact h.2
  · cases h
    rfl
  · exact h.elim

theorem isTemporal_of_isTyped (h : IsTyped type x)
    (hcalendar : ∃ v ∈ x.literals, v.isCalendar = true) : type.isTemporal = true := by
  obtain ⟨v, hv, hcalendar⟩ := hcalendar
  have hkind : ∀ {kind : Value → Bool}, x.LiteralsAre kind → kind v = true := by
    intro kind hx
    cases x with
    | scalar w =>
      obtain rfl := mem_singleton.1 hv
      exact hx
    | set values => exact hx.1 v hv
    | domain _ | query _ => exact (not_mem_nil hv).elim
  unfold IsTyped at h
  split at h
  · have := hkind h.1
    cases v <;> simp_all [isBoolean, Value.isCalendar]
  · rfl
  · rfl
  · have := hkind h
    cases v <;> simp_all [isNumber, Value.isCalendar]
  · have := hkind h
    cases v <;> simp_all [isNumber, Value.isCalendar]
  · have := hkind h
    cases v <;> simp_all [isNumber, Value.isCalendar]
  · cases h
    obtain rfl := mem_singleton.1 hv
    cases hcalendar
  · exact h.elim

theorem comparesLiterals_of_inverse {c : Condition} {op : Operator}
    (h : c.operator.inverse? = some op) :
    comparesLiterals (c.withOperator op) = comparesLiterals c := by
  unfold comparesLiterals Condition.withOperator Condition.isDotted
  cases hop : c.operator <;> rw [hop] at h <;> cases h <;> rfl

theorem isPrintable_of_isTyped {entity : Entity} {path : String} {op : Operator}
    (hpath : Condition.isPath path = true) (htype : entity.headType? path = some type)
    (hcompares : comparesLiterals ⟨path, op, x, none⟩ = true) (hflat : IsFlat x)
    (hx : IsTyped type x) : (⟨path, op, x, none⟩ : Condition).IsPrintable entity where
  path := hpath
  set := by
    rintro values rfl
    exact isDistinct_of_isTyped hx
  query := by
    rintro q rfl
    exact hflat.elim
  calendar hcalendar := by
    refine ⟨hcompares, fun field hfield => ?_⟩
    obtain ⟨field', hfield', rfl⟩ := Option.map_eq_some_iff.1 htype
    obtain rfl : field = field' := Option.some.inj (hfield.symm.trans hfield')
    exact isTemporal_of_isTyped hx hcalendar

end Pass

namespace Domain.IsPrintable

variable {catalog : Catalog} {entity : Entity} {c c' : Condition} {d : Domain}

theorem of_condition (h : IsPrintable catalog (.condition c) entity) : c.IsPrintable entity ∧
    ∀ inner target, c.operand = .domain inner → catalog.Leads entity c.path target →
      IsPrintable catalog inner target := by
  cases h with
  | condition hc hinner => exact ⟨hc, hinner⟩

theorem flat (hc : c.IsPrintable entity) (hflat : ∀ inner, c.operand ≠ .domain inner) :
    IsPrintable catalog (.condition c) entity :=
  .condition hc fun inner _ hoperand => absurd hoperand (hflat inner)

theorem traversal {path : String} {op : Operator} {inner : Domain}
    (hpath : Condition.isPath path = true)
    (hinner : ∀ target, catalog.Leads entity path target → IsPrintable catalog inner target) :
    IsPrintable catalog (.condition ⟨path, op, .domain inner, none⟩) entity := by
  refine .condition (.traversal hpath) fun inner' target hoperand => ?_
  cases hoperand
  exact hinner target

theorem apply {k : Connective} {ds : List Domain} (h : ∀ d ∈ ds, IsPrintable catalog d entity) :
    IsPrintable catalog (k.apply ds) entity := by
  refine Connective.forall_apply (Q := fun d => IsPrintable catalog d entity)
    (fun v => .constant v entity) ⟨fun hd => ?_, .nary⟩ h
  cases hd with
  | nary hchildren => exact hchildren

theorem of_over {Q : Condition → Prop} (h : d.Over Q)
    (hQ : ∀ c, Q c → IsPrintable catalog (.condition c) entity) : IsPrintable catalog d entity := by
  induction h with
  | constant v => exact .constant v _
  | nary _ _ _ ih => exact .nary ih
  | condition hc => exact hQ _ hc

theorem invariant (catalog : Catalog) :
    Optimizer.Invariant fun (_ : Unit) => IsPrintable catalog where
  constant _ := .constant
  negation := ⟨fun h => by cases h; assumption, .negation⟩
  nary := ⟨fun h => by cases h; assumption, .nary⟩
  remark mark h := by
    obtain ⟨hc, hinner⟩ := h.of_condition
    exact .condition (hc.remark mark) hinner
  inverse h hop := by
    obtain ⟨hc, hinner⟩ := h.of_condition
    refine .condition (hc.of_literals rfl hc.set (fun q hq => hq) (fun v hv => hv) ?_) hinner
    rw [Pass.comparesLiterals_of_inverse hop]
    exact id
  members := by
    rintro - path entity op values run ⟨first, hfirst, values', hoperand⟩ hrun hop hvalues hdistinct
    obtain ⟨hfirst', rfl, -⟩ := hrun first hfirst
    refine .flat ⟨hfirst'.of_condition.1.path, ?_, nofun, ?_⟩ nofun
    · rintro _ ⟨⟩
      refine hdistinct fun c hc values' hoperand => ?_
      exact (hrun c hc).1.of_condition.1.set values' hoperand
    · rintro ⟨v, hv, hcalendar⟩
      obtain ⟨c, hc, values', hoperand, hmem⟩ := hvalues v hv
      obtain ⟨hprintable, hpath, -⟩ := hrun c hc
      have hv' : v ∈ c.operand.literals := by rw [hoperand]; exact hmem
      obtain ⟨hcompares, htype⟩ := hprintable.of_condition.1.calendar ⟨v, hv', hcalendar⟩
      rw [Condition.head, hpath] at htype
      refine ⟨?_, htype⟩
      simp only [Pass.comparesLiterals, Condition.isDotted, hpath, Bool.and_eq_true] at hcompares ⊢
      exact ⟨hcompares.1, by rw [hop, Bool.or_true]⟩
  inners := by
    rintro - k c entity ds - - h hall
    refine .traversal h.of_condition.1.path fun target hleads => .apply fun d hd => ?_
    exact (hall d hd).of_condition.2 d target rfl hleads

section Outcome

variable {ctx : Context} (hentity : ctx.catalog.entity? ctx.entity.name = some ctx.entity)

include hentity in
theorem of_becomes
    (hnested : ∀ target d d', ctx.catalog.entity? target.name = some target →
      IsPrintable ctx.catalog d target → (ctx.nested target d).result = .ok d' →
      IsPrintable ctx.catalog d' target)
    (h : Pass.Becomes ctx c c') (hc : IsPrintable ctx.catalog (.condition c) ctx.entity) :
    IsPrintable ctx.catalog (.condition c') ctx.entity := by
  obtain ⟨hleaf, hinner⟩ := hc.of_condition
  cases h with
  | @modernized op hstandard hfamily hop =>
    have hcompares : Pass.comparesLiterals c = false := by
      unfold Pass.comparesLiterals
      cases hoperator : c.operator <;> rw [hoperator] at hfamily <;> first
        | exact Bool.and_false _
        | cases hfamily
    exact .condition (.of_noCalendar hleaf.path hleaf.set hleaf.query
      (hleaf.isCalendar_of_not_compares hcompares)) hinner
  | @equated op hop hmember =>
    have hcompares : Pass.comparesLiterals c = false := by
      unfold Pass.comparesLiterals
      obtain hop | hop := hop <;> rw [hop] <;> exact Bool.and_false _
    have hliterals := hleaf.isCalendar_of_not_compares hcompares
    cases hoperand : c.operand with
    | scalar v =>
      rw [hoperand] at hliterals
      exact .flat (.members hleaf.path rfl hliterals) (by simp [Pass.asMembers])
    | set values =>
      rw [hoperand] at hliterals
      exact .flat (.members hleaf.path (hleaf.set values hoperand) hliterals)
        (by simp [Pass.asMembers])
    | domain inner =>
      exact .traversal hleaf.path fun target hleads => hinner inner target hoperand hleads
    | query q =>
      refine .flat (.of_noCalendar hleaf.path (by simp [Pass.asMembers]) ?_
        fun _ hv => (not_mem_nil hv).elim) (by simp [Pass.asMembers])
      rintro _ ⟨⟩
      exact hleaf.query q hoperand
  | @listed value hop hvalue =>
    refine .flat (hleaf.of_literals rfl ?_ (by simp [Condition.withOperand]) ?_ id)
      (by simp [Condition.withOperand])
    · rintro _ ⟨⟩
      rfl
    · rw [hvalue]
      exact fun v hv => hv
  | @entered op hop htraversal hoperand =>
    have hliterals : c.operand.literals = [] := by
      obtain ⟨inner, hdomain⟩ | ⟨query, hquery⟩ := hoperand
      · rw [hdomain]
        rfl
      · rw [hquery]
        rfl
    refine .condition (.of_noCalendar hleaf.path hleaf.set hleaf.query fun v hv => ?_) hinner
    exact (not_mem_nil (hliterals ▸ hv)).elim
  | unmatched _ _ => exact .flat (.unset hleaf.path) (by simp)
  | @ordered type x op htype hplain _ hop _ hflat _ htyped _ =>
    refine .flat (Pass.isPrintable_of_isTyped hleaf.path htype ?_ hflat htyped) ?_
    · simp only [Pass.comparesLiterals, Condition.isDotted] at hplain ⊢
      rw [hplain, hop]
      rfl
    · rintro inner rfl
      exact hflat
  | @members type values members op htype hplain _ hop _ _ _ htyped =>
    refine .flat (Pass.isPrintable_of_isTyped hleaf.path htype ?_ trivial htyped) (by simp)
    simp only [Pass.comparesLiterals, Condition.isDotted] at hplain ⊢
    rw [hplain, hop, Bool.or_true]
    rfl
  | unrelated _ _ _ _ _ => exact .flat (.unset hleaf.path) (by simp)
  | @related field target inner optimized hop hfield hrest htarget hoperand hoptimized _ =>
    refine .traversal hleaf.path fun target' hleads => ?_
    have htarget' : target = target' :=
      Option.some.inj (htarget.symm.trans (hleads.of_end hfield hrest))
    rw [← htarget']
    exact hnested target inner optimized (Catalog.entity?_target? hentity htarget)
      (hinner inner target hoperand (Catalog.leads_of_target? hfield hrest htarget)) hoptimized

theorem of_dated (hdays : Pass.NamesDays ctx c) (h : Pass.Dated c c')
    (hc : IsPrintable ctx.catalog (.condition c) ctx.entity) :
    IsPrintable ctx.catalog (.condition c') ctx.entity := by
  obtain ⟨htype, hcompares, -⟩ := hdays
  have hpath := hc.of_condition.1.path
  simp only [Pass.comparesLiterals, Condition.isDotted, Bool.and_eq_true] at hcompares
  cases h with
  | @bound op t hop =>
    refine .flat (Pass.isPrintable_of_isTyped hpath htype ?_ trivial rfl) (by simp)
    simp only [Pass.comparesLiterals, Condition.isDotted, hcompares.1, hop]
    rfl
  | @moments op members hop hmoments hdistinct _ =>
    refine .flat (Pass.isPrintable_of_isTyped hpath htype ?_ trivial ⟨hmoments, hdistinct⟩)
      (by simp)
    simp only [Pass.comparesLiterals, Condition.isDotted, hcompares.1, hop, Bool.or_true]
    rfl

theorem of_found (h : Pass.Found c) : IsPrintable catalog (.condition c) entity := by
  cases h with
  | ids ids =>
    refine .flat (.members (by decide) (ValueSet.isDistinct_ofList _) fun v hv => ?_) (by simp)
    obtain ⟨id, -, rfl⟩ := mem_map.1 ((ValueSet.fresh_sublist [] _).mem hv)
    rfl
  | below path =>
    have hpath : Condition.isPath Entity.parentPath = true := by decide
    refine .flat (.of_noCalendar hpath (by simp) (by simp) fun v hv => ?_) (by simp)
    obtain rfl := mem_singleton.1 hv
    rfl

include hentity in
theorem of_splits (hpaths : ctx.catalog.NamesPaths) (halike : ctx.catalog.InheritsAlike)
    (h : Pass.Splits ctx c c') (hc : IsPrintable ctx.catalog (.condition c) ctx.entity) :
    IsPrintable ctx.catalog (.condition c') ctx.entity := by
  obtain ⟨hleaf, hinner⟩ := hc.of_condition
  cases h with
  | @crossed field rest hfield hrest hrelational =>
    have hname := Entity.name_of_field? hfield
    refine .traversal (hname ▸ Condition.isPath_head hleaf.path) fun target hleads => ?_
    refine .condition (.of_noCalendar (Condition.isPath_rest hleaf.path hrest) hleaf.set
      hleaf.query (hleaf.isCalendar_of_isRelational hfield hrelational)) ?_
    intro inner target' hoperand hleads'
    exact hinner inner target' hoperand (.through hrest hfield hrelational (hleads.of_head hfield) hleads')
  | @labelled field comodel op op' x hfield hrest hrelational hcomodel hnames hop hx =>
    have hmem := mem_of_find?_eq_some (Catalog.entity?_of_comodel hcomodel)
    have hlabels := hpaths.labels comodel hmem
    refine .traversal hleaf.path fun target _ => ?_
    obtain ⟨labels, rfl, rfl, hall⟩ | ⟨label, hpattern, rfl⟩ := hx
    · refine .flat (.members hlabels (ValueSet.isDistinct_ofList _) fun v hv => ?_) nofun
      have hlabel := hall v ((ValueSet.fresh_sublist [] _).mem hv)
      cases v <;> first
        | rfl
        | cases hlabel
    · refine .flat (.of_noCalendar hlabels nofun nofun fun v hv => ?_) nofun
      obtain rfl := mem_singleton.1 hv
      rfl
  | @identified field op members hfield _ hrelational _ _ _ hids _ =>
    refine .flat (.members hleaf.path hids.distinct fun v hv => ?_) nofun
    exact hleaf.isCalendar_of_isRelational hfield hrelational v (hids.mem v hv)
  | @listed field op values members hfield _ htype _ _ _ _ hids =>
    refine .traversal hleaf.path fun target _ => ?_
    refine .flat (.members (by decide) hids.distinct fun v hv => ?_) nofun
    exact hleaf.isCalendar_of_isRelational hfield (Field.isRelational_of_isX2Many htype) v
      (hids.mem v hv)
  | unlisted _ _ _ _ _ _ _ => exact .traversal hleaf.path fun target _ => .constant true target
  | @inherited field link hfield hlink =>
    have hmem : field ∈ ctx.entity.fields := by
      obtain hmem | rfl := Entity.mem_or_eq_of_field? hfield
      · exact hmem
      · cases hlink
    have hpath := hpaths.links ctx.entity (mem_of_find?_eq_some hentity) field hmem link hlink
    refine .traversal hpath fun owner howner => ?_
    refine .condition ⟨hleaf.path, hleaf.set, hleaf.query, fun hcalendar => ?_⟩ ?_
    · obtain ⟨hcompares, htype⟩ := hleaf.calendar hcalendar
      refine ⟨hcompares, fun original horiginal => ?_⟩
      have hname := Entity.name_of_field? hfield
      have hsame := halike ctx.entity field link owner original hentity (Entity.field?_name hfield)
        hlink howner (by rw [hname]; exact horiginal)
      rw [hsame.1]
      exact htype field hfield
    · intro inner target hoperand hleads
      exact hinner inner target hoperand (.of_owner halike hentity hfield hlink howner hleads)
  | found _ _ _ hfound => exact of_found hfound
  | @reached field target found _ _ hfield _ _ hfound =>
    refine .traversal (Entity.name_of_field? hfield ▸ Condition.isPath_head hleaf.path) ?_
    exact fun target _ => of_over hfound fun c' hc' => of_found hc'

include hentity in
/-- No change of a condition makes it unprintable. -/
theorem of_outcome (hpaths : ctx.catalog.NamesPaths) (halike : ctx.catalog.InheritsAlike)
    (hnested : ∀ target d d', ctx.catalog.entity? target.name = some target →
      IsPrintable ctx.catalog d target → (ctx.nested target d).result = .ok d' →
      IsPrintable ctx.catalog d' target)
    (h : Pass.Outcome ctx c d) (hc : IsPrintable ctx.catalog (.condition c) ctx.entity) :
    IsPrintable ctx.catalog d ctx.entity := by
  cases h with
  | becomes h => exact of_becomes hentity hnested h hc
  | splits h => exact of_over h fun c' hc' => of_splits hentity hpaths halike hc' hc
  | dated hdays h => exact of_over h fun c' hc' => of_dated hdays hc' hc

end Outcome

end Domain.IsPrintable

namespace Domain

variable {catalog : Catalog} {L : Condition → Prop} {P : Mark → Domain → Prop} {d : Domain}

theorem IsBuilt.isPrintable (hL : ∀ c, L c → ∀ entity, IsPrintable catalog (.condition c) entity)
    (h : d.IsBuilt L) (entity : Entity) : d.IsPrintable catalog entity := by
  induction h with
  | constant v => exact .constant v entity
  | negation hc _ => exact .negation (hL _ hc entity)
  | nary _ _ _ _ ih => exact .nary ih
  | condition hc => exact hL _ hc entity

theorem IsBuilt.eachMark (hL : ∀ c, L c → (Domain.condition c).EachMark P) (h : d.IsBuilt L) :
    d.EachMark P := by
  induction h with
  | constant v => trivial
  | negation hc _ => exact hL _ hc
  | nary _ _ _ _ ih => exact eachMark_nary.2 ⟨nofun, ih⟩
  | condition hc => exact hL _ hc

theorem admits_isPrintable (catalog : Catalog) (P : Mark → Domain → Prop) :
    Term.Admits fun c => (∀ entity, IsPrintable catalog (.condition c) entity) ∧
      (condition c).EachMark P where
  inverse hc hop := by
    refine ⟨fun entity => (IsPrintable.invariant catalog).inverse (i := ()) (hc.1 entity) hop, ?_⟩
    exact (eachMark_unmarked_condition rfl).2 (eachMark_condition.1 hc.2).2
  scalar := by
    intro path op v hpath _ hv
    refine ⟨fun entity => .flat (.of_noCalendar hpath nofun nofun fun w hw => ?_) nofun,
      (eachMark_unmarked_condition rfl).2 nofun⟩
    obtain rfl := mem_singleton.1 hw
    exact hv.isCalendar_eq_false
  set := by
    intro path op values hpath _ hvalues hdistinct
    exact ⟨fun entity => .flat (.members hpath hdistinct fun v hv =>
      (hvalues v hv).isCalendar_eq_false) nofun, (eachMark_unmarked_condition rfl).2 nofun⟩
  domain := by
    intro path op inner hpath hinner
    refine ⟨fun entity => .traversal hpath fun target _ => ?_, ?_⟩
    · exact hinner.isPrintable (fun _ hc => hc.1) target
    · refine (eachMark_unmarked_condition rfl).2 fun inner' hoperand => ?_
      cases hoperand
      exact hinner.eachMark fun _ hc => hc.2
  query := by
    intro path op q hpath hparams
    refine ⟨fun entity => .flat (.of_noCalendar hpath nofun ?_ fun _ hv =>
      (not_mem_nil hv).elim) nofun, (eachMark_unmarked_condition rfl).2 nofun⟩
    rintro _ ⟨⟩
    exact hparams

theorem isPrintable_of_read {json : Json} (hjson : json.isProper = true)
    (hread : (ofJson json).result = .ok d) (entity : Entity) :
    d.IsPrintable catalog entity ∧ d.EachMark P := by
  have hbuilt := isBuilt_of_read (admits_isPrintable catalog P) hjson hread
  exact ⟨hbuilt.isPrintable (fun _ hc => hc.1) entity, hbuilt.eachMark fun _ hc => hc.2⟩

end Domain

theorem Optimizer.node_isPrintable {catalog : Catalog} {depth : Nat} {level : Level}
    {entity : Entity} {d result : Domain} (hhooks : catalog.Hookless)
    (hpaths : catalog.NamesPaths) (halike : catalog.InheritsAlike)
    (hentity : catalog.entity? entity.name = some entity) (hd : d.IsPrintable catalog entity)
    (h : (node catalog depth standard level entity d).result = .ok result) :
    result.IsPrintable catalog entity := by
  refine (Domain.IsPrintable.invariant catalog).node (i := ()) hhooks ?_ hentity hd h
  rintro ctx rfl - hentity hnested - c d houtcome hc
  exact .of_outcome hentity hpaths halike (hnested ()) houtcome hc

end QueryDomain
