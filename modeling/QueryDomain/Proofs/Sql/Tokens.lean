import QueryDomain.Proofs.Sql.Quoting

/-! SQL text cut into tokens. Quoted texts are read whole, with the quotes inside them written
twice; outside there are words and single characters. Texts that have been cut can be put one after
the other where a character stands between them that belongs to no token of either. -/
namespace QueryDomain

open List

namespace Quoted

variable {escapes : Bool} {quote : Char} {cs content rest more : List Char}

theorem eq_append_of_read (h : read escapes quote cs = some (content, rest)) :
    ∃ body, cs = body ++ quote :: rest := by
  fun_induction read escapes quote cs generalizing content with
  | case1 => cases h
  | case2 =>
    cases h
    exact ⟨[], rfl⟩
  | case3 => cases h
  | case4 tail ih =>
    obtain ⟨⟨inner, left⟩, hread, heq⟩ := Option.map_eq_some_iff.1 h
    cases heq
    obtain ⟨body, rfl⟩ := ih hread
    exact ⟨quote :: quote :: body, rfl⟩
  | case5 =>
    cases h
    exact ⟨[], rfl⟩
  | case6 c d tail _ _ ih =>
    obtain ⟨⟨inner, left⟩, hread, heq⟩ := Option.map_eq_some_iff.1 h
    cases heq
    obtain ⟨body, rfl⟩ := ih hread
    exact ⟨c :: d :: body, rfl⟩
  | case7 c d tail _ _ ih =>
    obtain ⟨⟨inner, left⟩, hread, heq⟩ := Option.map_eq_some_iff.1 h
    cases heq
    obtain ⟨body, hbody⟩ := ih hread
    exact ⟨c :: body, by rw [hbody, cons_append]⟩

theorem length_of_read (h : read escapes quote cs = some (content, rest)) :
    rest.length < cs.length := by
  obtain ⟨body, rfl⟩ := eq_append_of_read h
  rw [length_append, length_cons]
  omega

/-- Text behind changes nothing, unless its first quote would make a pair with the last one. -/
theorem read_append (h : read escapes quote cs = some (content, rest))
    (hmore : rest = [] → more.head? ≠ some quote) :
    read escapes quote (cs ++ more) = some (content, rest ++ more) := by
  fun_induction read escapes quote cs generalizing content with
  | case1 => cases h
  | case2 =>
    cases h
    exact read_close (hmore rfl)
  | case3 => cases h
  | case4 tail ih =>
    obtain ⟨⟨inner, left⟩, hread, heq⟩ := Option.map_eq_some_iff.1 h
    cases heq
    rw [cons_append, cons_append, read_twice, ih hread]
    rfl
  | case5 d tail hd =>
    cases h
    refine read_close ?_
    simpa using hd
  | case6 c d tail hc hescape ih =>
    obtain ⟨⟨inner, left⟩, hread, heq⟩ := Option.map_eq_some_iff.1 h
    cases heq
    rw [cons_append, cons_append, read, if_neg hc, if_pos hescape, ih hread]
    rfl
  | case7 c d tail hc hescape ih =>
    obtain ⟨⟨inner, left⟩, hread, heq⟩ := Option.map_eq_some_iff.1 h
    cases heq
    rw [cons_append, read_plain hc (by simpa using hescape), ih hread]
    rfl

end Quoted

/-- A part of SQL text. White space is a symbol like others. -/
inductive Token where
  | quoted (mark : Char) (content : List Char)
  | word (letters : List Char)
  | symbol (c : Char)
  deriving DecidableEq, Repr

namespace Token

def isMark (c : Char) : Bool := c == Dialect.literalQuote || c == '"' || c == Char.ofNat 96

def isLetter (c : Char) : Bool := c.isAlphanum || c == '_'

def extend (c : Char) (ts : List Token) : List Token :=
  if isLetter c then
    match ts with
    | word letters :: ts => word (c :: letters) :: ts
    | ts => word [c] :: ts
  else symbol c :: ts

def tokens (text : List Char) : Option (List Token) :=
  match text with
  | [] => some []
  | c :: cs =>
    if isMark c then
      match _ : Quoted.read false c cs with
      | some (content, rest) => (tokens rest).map (quoted c content :: ·)
      | none => none
    else (tokens cs).map (extend c)
termination_by text.length
decreasing_by
  · exact Nat.lt_succ_of_lt (Quoted.length_of_read ‹_›)
  · exact Nat.lt_succ_self _

def isApart (c : Char) : Bool := !isLetter c && !isMark c

def startsApart (text : List Char) : Bool := text.head?.any isApart

def endsApart (text : List Char) : Bool := text.getLast?.any isApart

variable {c : Char} {text more : List Char} {ts us : List Token}

theorem startsApart_append (h : startsApart text = true) : startsApart (text ++ more) = true := by
  cases text with
  | nil => cases h
  | cons c text => exact h

theorem endsApart_append_cons (text : List Char) (c : Char) (more : List Char) :
    endsApart (text ++ c :: more) = endsApart (c :: more) := by
  rw [endsApart, getLast?_append, getLast?_cons, Option.some_or, endsApart, getLast?_cons]

theorem tokens_quoted {content rest : List Char} (hmark : isMark c = true)
    (hread : Quoted.read false c text = some (content, rest)) :
    tokens (c :: text) = (tokens rest).map (quoted c content :: ·) := by
  rw [tokens, if_pos hmark]
  split
  · cases hread.symm.trans ‹_›
    rfl
  · cases hread.symm.trans ‹_›

theorem tokens_plain (hmark : isMark c = false) :
    tokens (c :: text) = (tokens text).map (extend c) := by
  rw [tokens, hmark]
  exact if_neg Bool.false_ne_true

theorem extend_ne_nil (c : Char) (ts : List Token) : extend c ts ≠ [] := by
  unfold extend
  split
  · split <;> exact cons_ne_nil _ _
  · exact cons_ne_nil _ _

theorem extend_append (h : ts ≠ []) : extend c (ts ++ us) = extend c ts ++ us := by
  cases ts with
  | nil => exact absurd rfl h
  | cons t ts =>
    unfold extend
    split
    · cases t <;> rfl
    · rfl

theorem tokens_of_unmarked (h : text.all (!isMark ·) = true) :
    tokens text = some (text.foldr extend []) := by
  induction text with
  | nil => rw [tokens, foldr_nil]
  | cons c text ih =>
    rw [all_cons, Bool.and_eq_true, Bool.not_eq_true'] at h
    rw [tokens_plain h.1, ih h.2, Option.map_some, foldr_cons]

theorem eq_nil_of_tokens (h : tokens text = some []) : text = [] := by
  cases text with
  | nil => rfl
  | cons c text =>
    rw [tokens] at h
    split at h
    · split at h
      · obtain ⟨_, -, heq⟩ := Option.map_eq_some_iff.1 h
        cases heq
      · cases h
    · obtain ⟨ts, -, heq⟩ := Option.map_eq_some_iff.1 h
      exact absurd heq (extend_ne_nil c ts)

/-- Behind a text that ends apart, or before one that starts apart, a single letter stays a word of
its own. -/
theorem extend_of_apart (h : endsApart [c] = true ∨ startsApart more = true)
    (hmore : tokens more = some us) : extend c us = extend c [] ++ us := by
  cases hletter : isLetter c with
  | false => simp [extend, hletter]
  | true =>
    have hstarts : startsApart more = true := by simpa [endsApart, isApart, hletter] using h
    obtain ⟨d, more, rfl⟩ : ∃ d rest, more = d :: rest := by
      cases more with
      | nil => cases hstarts
      | cons d rest => exact ⟨d, rest, rfl⟩
    have hd : isLetter d = false ∧ isMark d = false := by simpa [startsApart, isApart] using hstarts
    rw [tokens_plain hd.2] at hmore
    obtain ⟨vs, -, rfl⟩ := Option.map_eq_some_iff.1 hmore
    simp [extend, hletter, hd.1]

theorem tokens_append (h : tokens text = some ts) (hmore : tokens more = some us)
    (hapart : endsApart text = true ∨ startsApart more = true) :
    tokens (text ++ more) = some (ts ++ us) := by
  fun_induction tokens text generalizing ts with
  | case1 =>
    cases h
    exact hmore
  | case2 c cs hmark content rest hread ih =>
    obtain ⟨vs, hvs, rfl⟩ := Option.map_eq_some_iff.1 h
    obtain ⟨body, hbody⟩ := Quoted.eq_append_of_read hread
    have hnil : rest = [] → startsApart more = true := by
      rintro rfl
      have hends : endsApart (c :: cs) = false := by
        rw [hbody, ← cons_append, endsApart_append_cons]
        simp [endsApart, isApart, hmark]
      simpa [hends] using hapart
    have hrest : endsApart rest = true ∨ startsApart more = true := by
      cases rest with
      | nil => exact .inr (hnil rfl)
      | cons d rest =>
        refine hapart.imp_left fun hends => ?_
        rwa [hbody, ← cons_append, endsApart_append_cons, ← singleton_append,
          endsApart_append_cons] at hends
    have hreads : Quoted.read false c (cs ++ more) = some (content, rest ++ more) := by
      refine Quoted.read_append hread fun hrest hhead => ?_
      have hstarts := hnil hrest
      simp [startsApart, hhead, isApart, hmark] at hstarts
    rw [cons_append, tokens_quoted hmark hreads, ih hvs hrest]
    rfl
  | case3 => cases h
  | case4 c cs hmark ih =>
    obtain ⟨vs, hvs, rfl⟩ := Option.map_eq_some_iff.1 h
    rw [cons_append, tokens_plain (by simpa using hmark)]
    cases cs with
    | nil =>
      obtain rfl : vs = [] := by simpa [tokens] using hvs.symm
      rw [nil_append, hmore, Option.map_some, extend_of_apart hapart hmore]
    | cons d cs =>
      have hends : endsApart (c :: d :: cs) = endsApart (d :: cs) := by
        rw [endsApart, getLast?_cons_cons, endsApart]
      have hsome : vs ≠ [] := by
        rintro rfl
        cases eq_nil_of_tokens hvs
      rw [ih hvs (hends ▸ hapart), Option.map_some, extend_append hsome]

/-- The depth of parentheses behind a token, unless it closes one that has not been opened. -/
def shift (d : Nat) (t : Token) : Option Nat :=
  if t = symbol '(' then some (d + 1)
  else if t = symbol ')' then if d = 0 then none else some (d - 1)
  else some d

@[simp] theorem shift_open (d : Nat) : shift d (symbol '(') = some (d + 1) := if_pos rfl

def depth (d : Nat) (ts : List Token) : Option Nat := ts.foldlM shift d

/-- The tokens outside of all parentheses, and those that open one there. -/
def outer : Nat → List Token → List Token
  | _, [] => []
  | d, t :: ts =>
    let later := (shift d t).elim [] (outer · ts)
    if d = 0 then t :: later else later

variable {d e : Nat} {t : Token}

theorem depth_cons (d : Nat) (t : Token) (ts : List Token) :
    depth d (t :: ts) = (shift d t).bind (depth · ts) :=
  foldlM_cons

theorem depth_append (d : Nat) (ts us : List Token) :
    depth d (ts ++ us) = (depth d ts).bind (depth · us) :=
  foldlM_append

theorem outer_append (h : depth d ts = some e) : outer d (ts ++ us) = outer d ts ++ outer e us := by
  induction ts generalizing d with
  | nil =>
    cases h
    rfl
  | cons t ts ih =>
    rw [depth_cons] at h
    obtain ⟨i, hi, hrest⟩ := Option.bind_eq_some_iff.1 h
    rw [cons_append, outer, outer, hi, Option.elim_some, Option.elim_some, ih hrest]
    split <;> rfl

theorem shift_succ (h : shift d t = some e) : shift (d + 1) t = some (e + 1) := by
  unfold shift at h ⊢
  grind

theorem depth_succ (h : depth d ts = some e) : depth (d + 1) ts = some (e + 1) := by
  induction ts generalizing d with
  | nil =>
    cases h
    rfl
  | cons t ts ih =>
    rw [depth_cons] at h ⊢
    obtain ⟨i, hi, hrest⟩ := Option.bind_eq_some_iff.1 h
    rw [shift_succ hi, Option.bind_some, ih hrest]

theorem outer_succ (h : depth d ts = some e) : outer (d + 1) ts = [] := by
  induction ts generalizing d with
  | nil => rfl
  | cons t ts ih =>
    rw [depth_cons] at h
    obtain ⟨i, hi, hrest⟩ := Option.bind_eq_some_iff.1 h
    rw [outer, shift_succ hi, Option.elim_some, ih hrest]
    exact if_neg (Nat.succ_ne_zero d)

def isJoint : Token → Bool
  | word letters =>
    letters.map Char.toUpper == "AND".toList || letters.map Char.toUpper == "OR".toList
  | _ => false

def identifiers (dialect : Dialect) (ts : List Token) : List String :=
  ts.filterMap fun
    | quoted mark content =>
      if mark = dialect.identifierQuote then some (String.ofList content) else none
    | _ => none

theorem identifiers_append (dialect : Dialect) (ts us : List Token) :
    identifiers dialect (ts ++ us) = identifiers dialect ts ++ identifiers dialect us :=
  filterMap_append

theorem identifiers_extend (dialect : Dialect) (c : Char) (ts : List Token) :
    identifiers dialect (extend c ts) = identifiers dialect ts := by
  unfold extend
  split
  · split <;> rfl
  · rfl

theorem identifiers_foldr_extend (dialect : Dialect) (text : List Char) :
    identifiers dialect (text.foldr extend []) = [] := by
  induction text with
  | nil => rfl
  | cons c text ih => rw [foldr_cons, identifiers_extend, ih]

theorem foldr_extend_digits {digits : List Char} (hsome : digits ≠ [])
    (h : ∀ c ∈ digits, c.isDigit = true) : digits.foldr extend [] = [word digits] := by
  induction digits with
  | nil => exact absurd rfl hsome
  | cons c digits ih =>
    rw [forall_mem_cons] at h
    have hletter : isLetter c = true := by simp [isLetter, Char.isAlphanum, h.1]
    rw [foldr_cons]
    cases digits with
    | nil => simp [extend, hletter]
    | cons d digits => simp [ih (cons_ne_nil d digits) h.2, extend, hletter]

theorem toUpper_of_isDigit (h : c.isDigit = true) : c.toUpper = c := by
  unfold Char.toUpper
  split
  · rename_i hlower
    unfold Char.isDigit at h
    simp [UInt32.le_iff_toNat_le] at h hlower
    omega
  · rfl

theorem isMark_of_isDigit (h : c.isDigit = true) : isMark c = false := by
  simp only [isMark, Bool.or_eq_false_iff, beq_eq_false_iff_ne]
  refine ⟨⟨?_, ?_⟩, ?_⟩
  all_goals
    rintro rfl
    revert h
    decide

theorem isJoint_digits {digits : List Char} (h : ∀ c ∈ digits, c.isDigit = true) :
    isJoint (word digits) = false := by
  have hupper : digits.map Char.toUpper = digits := by
    rw [map_congr_left fun c hc => toUpper_of_isDigit (h c hc), map_id']
  rw [isJoint, hupper, Bool.or_eq_false_iff, beq_eq_false_iff_ne, beq_eq_false_iff_ne]
  constructor
  · rintro rfl
    exact absurd (h 'A' (by decide)) (by decide)
  · rintro rfl
    exact absurd (h 'O' (by decide)) (by decide)

/-- A text without marks, with balanced parentheses and, if it is closed, without a word that joins
outside of them. -/
def isSound (closed : Bool) (text : List Char) : Bool :=
  let ts := text.foldr extend []
  text.all (!isMark ·) && depth 0 ts == some 0 && !(closed && (outer 0 ts).any isJoint)

def isSeparator (closed : Bool) (text : List Char) : Bool :=
  isSound closed text && startsApart text && endsApart text

end Token

open Token

/-- The text is cut into tokens whole. Its parentheses are balanced, and its quoted identifiers
stand for the names. If it is closed, no word that stands outside of parentheses joins others. -/
def Delimited (dialect : Dialect) (closed : Bool) (text : List Char) (names : List String) : Prop :=
  ∃ ts, tokens text = some ts ∧ depth 0 ts = some 0 ∧
    (closed = true → ∀ t ∈ outer 0 ts, t.isJoint = false) ∧ identifiers dialect ts = names

namespace Delimited

variable {dialect : Dialect} {closed : Bool} {text more separator : List Char}
  {names others : List String}

theorem of_closed (h : Delimited dialect true text names) :
    Delimited dialect closed text names := by
  obtain ⟨ts, htokens, hdepth, hjoints, hnames⟩ := h
  exact ⟨ts, htokens, hdepth, fun _ => hjoints rfl, hnames⟩

theorem append (h : Delimited dialect closed text names)
    (hmore : Delimited dialect closed more others)
    (hapart : endsApart text = true ∨ startsApart more = true) :
    Delimited dialect closed (text ++ more) (names ++ others) := by
  obtain ⟨ts, htokens, hdepth, hjoints, hnames⟩ := h
  obtain ⟨us, hmore, hdepth', hjoints', hothers⟩ := hmore
  refine ⟨ts ++ us, tokens_append htokens hmore hapart, ?_, fun hclosed => ?_, ?_⟩
  · rw [depth_append, hdepth, Option.bind_some, hdepth']
  · rw [outer_append hdepth]
    exact forall_mem_append.2 ⟨hjoints hclosed, hjoints' hclosed⟩
  · rw [identifiers_append, hnames, hothers]

theorem paren (h : Delimited dialect closed text names) :
    Delimited dialect true ('(' :: (text ++ [')'])) names := by
  obtain ⟨ts, htokens, hdepth, -, hnames⟩ := h
  have hclose : tokens [')'] = some [symbol ')'] := tokens_of_unmarked (by decide)
  have hinner := tokens_append htokens hclose (.inr (by decide))
  have hdepths : depth 1 ts = some 1 := depth_succ hdepth
  refine ⟨symbol '(' :: (ts ++ [symbol ')']), ?_, ?_, fun _ => ?_, ?_⟩
  · rw [tokens_plain (by decide), hinner]
    rfl
  · rw [depth_cons, shift_open, Option.bind_some, depth_append, hdepths]
    rfl
  · have houter : outer 0 (symbol '(' :: (ts ++ [symbol ')'])) = [symbol '('] := by
      rw [outer, shift_open, Option.elim_some, outer_append hdepths, outer_succ hdepth]
      rfl
    simp [houter, isJoint]
  · rw [← hnames, ← append_nil (identifiers dialect ts)]
    exact identifiers_append dialect ts [symbol ')']

theorem of_isSound (h : isSound closed text = true) : Delimited dialect closed text [] := by
  simp only [isSound, Bool.and_eq_true, beq_iff_eq] at h
  obtain ⟨⟨hmarks, hdepth⟩, hjoints⟩ := h
  refine ⟨_, tokens_of_unmarked hmarks, hdepth, fun hclosed => ?_,
    identifiers_foldr_extend dialect text⟩
  simpa [hclosed] using hjoints

theorem between (h : Delimited dialect closed text names)
    (hseparator : isSeparator closed separator = true)
    (hmore : Delimited dialect closed more others) :
    Delimited dialect closed (text ++ (separator ++ more)) (names ++ others) := by
  simp only [isSeparator, Bool.and_eq_true] at hseparator
  obtain ⟨⟨hsound, hstarts⟩, hends⟩ := hseparator
  have hlater := (of_isSound hsound).append hmore (.inl hends)
  exact h.append hlater (.inr (startsApart_append hstarts))

theorem before (h : Delimited dialect closed text names) (hsound : isSound closed more = true)
    (hstarts : startsApart more = true) : Delimited dialect closed (text ++ more) names := by
  simpa using h.append (of_isSound hsound) (.inr hstarts)

theorem behind (h : Delimited dialect closed text names) (hsound : isSound closed more = true)
    (hends : endsApart more = true) : Delimited dialect closed (more ++ text) names := by
  simpa using (of_isSound hsound).append h (.inl hends)

theorem call (h : Delimited dialect closed text names) {words : List Char}
    (hwords : isSound true words = true) :
    Delimited dialect true (words ++ '(' :: (text ++ [')'])) names :=
  (of_isSound hwords).append h.paren (.inr rfl)

theorem quoted (dialect : Dialect) {mark : Char} (hmark : isMark mark = true) (s : String) :
    Delimited dialect true (Text.quoted mark s).toList
      (if mark = dialect.identifierQuote then [s] else []) := by
  have hread : Quoted.read false mark (Quoted.doubled mark s.toList ++ [mark]) =
      some (s.toList, []) := Quoted.read_doubled s.toList nofun
  refine ⟨[.quoted mark s.toList], ?_, rfl, ?_, ?_⟩
  · rw [Quoted.toList_quoted, tokens_quoted hmark hread, tokens]
    rfl
  · intro _ t ht
    obtain rfl := mem_singleton.1 ht
    rfl
  · rw [identifiers, filterMap_cons, filterMap_nil]
    split <;> simp_all

theorem identifier (dialect : Dialect) (name : String) :
    Delimited dialect true (dialect.quoteIdentifier name).toList [name] := by
  have hmark : isMark dialect.identifierQuote = true := by cases dialect <;> rfl
  have hquoted := quoted dialect hmark name
  rwa [if_pos rfl] at hquoted

theorem literal (dialect : Dialect) (s : String) :
    Delimited dialect true (Dialect.quoteLiteral s).toList [] := by
  have hmark : isMark Dialect.literalQuote = true := rfl
  have hother : Dialect.literalQuote ≠ dialect.identifierQuote := by cases dialect <;> decide
  have hquoted := quoted dialect hmark s
  rwa [if_neg hother] at hquoted

theorem placeholder (dialect : Dialect) (index : Nat) :
    Delimited dialect true (dialect.placeholder index).toList [] := by
  cases dialect with
  | mysql =>
    have hsound : isSound true "?".toList = true := by decide
    exact of_isSound hsound
  | postgres =>
    let digits := Nat.toDigits 10 (index + 1)
    have hdigits : ∀ c ∈ digits, c.isDigit = true := fun c hc =>
      Nat.isDigit_of_mem_toDigits (by decide) (by decide) hc
    have htext : (Dialect.postgres.placeholder index).toList = '$' :: digits := by
      simp [Dialect.placeholder, digits]
    have hunmarked : ('$' :: digits).all (!isMark ·) = true := by
      rw [all_cons, Bool.and_eq_true, all_eq_true]
      exact ⟨by decide, fun c hc => by simp [isMark_of_isDigit (hdigits c hc)]⟩
    have htokens : ('$' :: digits).foldr extend [] = [symbol '$', word digits] := by
      rw [foldr_cons, foldr_extend_digits (by simp [digits]) hdigits]
      rfl
    have hdepth : depth 0 [symbol '$', word digits] = some 0 := rfl
    have houter : outer 0 [symbol '$', word digits] = [symbol '$', word digits] := rfl
    have hsymbol : isJoint (symbol '$') = false := rfl
    rw [htext]
    refine of_isSound ?_
    simp [isSound, hunmarked, htokens, hdepth, houter, hsymbol, isJoint_digits hdigits]

end Delimited

end QueryDomain
