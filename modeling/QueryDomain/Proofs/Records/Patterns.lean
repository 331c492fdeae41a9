import Mathlib.Data.List.Forall2
import Mathlib.Data.List.Induction
import QueryDomain.Records.Pattern

/-! What the rows of a pattern say: flag `j` after some characters of the pattern tells whether they
cover the first `j` characters of the text. Rows that are written flag by flag, by index, are the
same, and no index is out of bounds. -/
namespace QueryDomain.Pattern

open List

/-- The pieces of a text that a character of a pattern takes. -/
def Takes (p : Char) (piece : List Char) : Prop :=
  p = '%' ∨ ∃ c, piece = [c] ∧ (p = '_' ∨ p = c)

/-- The text can be cut into pieces that the characters of the pattern take one after another. -/
def Covers (pattern text : List Char) : Prop :=
  ∃ pieces, Forall₂ Takes pattern pieces ∧ pieces.flatten = text

variable {pattern text piece : List Char} {row : List Bool} {p : Char}

theorem covers_nil : Covers [] text ↔ text = [] := by
  constructor
  · rintro ⟨pieces, hpieces, rfl⟩
    cases hpieces
    rfl
  · rintro rfl
    exact ⟨[], .nil, rfl⟩

theorem covers_concat : Covers (pattern ++ [p]) text ↔
    ∃ front piece, Covers pattern front ∧ Takes p piece ∧ front ++ piece = text := by
  constructor
  · rintro ⟨pieces, hpieces, rfl⟩
    have hfront := (forall₂_take_append pieces pattern [p] hpieces.flip).flip
    have hlast := forall₂_drop_append pieces pattern [p] hpieces.flip
    cases hdrop : pieces.drop pattern.length with
    | nil =>
      rw [hdrop] at hlast
      cases hlast
    | cons piece rest =>
      rw [hdrop] at hlast
      obtain ⟨htakes, hrest⟩ := forall₂_cons.1 hlast
      cases hrest
      refine ⟨_, piece, ⟨_, hfront, rfl⟩, htakes, ?_⟩
      rw [← flatten_singleton (l := piece), ← flatten_append, ← hdrop, take_append_drop]
  · rintro ⟨_, piece, ⟨pieces, hpieces, rfl⟩, htakes, rfl⟩
    exact ⟨pieces ++ [piece], rel_append hpieces (.cons htakes .nil), by simp⟩

/-- The row tells of each front of the text whether the pattern covers it. -/
structure IsRow (pattern text : List Char) (row : List Bool) : Prop where
  length : row.length = text.length + 1
  flag : ∀ j, j ≤ text.length → (row[j]? = some true ↔ Covers pattern (text.take j))

theorem isRow_start (text : List Char) : IsRow [] text (start text) where
  length := by simp [start]
  flag j hj := by
    rw [covers_nil, start]
    cases j with
    | zero => simp
    | succ j =>
      have hsome : text ≠ [] := by
        rintro rfl
        cases hj
      simp [hsome, getElem?_replicate]

theorem spread_eq_some {reached : Bool} {j : Nat} : (spread reached row)[j]? = some true ↔
    j < row.length ∧ (reached = true ∨ ∃ i ≤ j, row[i]? = some true) := by
  induction row generalizing reached j with
  | nil => simp [spread]
  | cons flag flags ih =>
    cases j with
    | zero => simp [spread]
    | succ j =>
      rw [spread, getElem?_cons_succ, ih, length_cons, Nat.succ_lt_succ_iff, Bool.or_eq_true]
      refine and_congr_right fun _ => ?_
      constructor
      · rintro ((h | h) | ⟨i, hi, h⟩)
        · exact .inl h
        · exact .inr ⟨0, Nat.zero_le _, by simp [h]⟩
        · exact .inr ⟨i + 1, Nat.succ_le_succ hi, by simpa using h⟩
      · rintro (h | ⟨i, hi, h⟩)
        · exact .inl (.inl h)
        · cases i with
          | zero => exact .inl (.inr (by simpa using h))
          | succ i => exact .inr ⟨i, Nat.le_of_succ_le_succ hi, by simpa using h⟩

theorem covers_any_take {j : Nat} (hj : j ≤ text.length) : Covers (pattern ++ ['%']) (text.take j) ↔
    ∃ i ≤ j, Covers pattern (text.take i) := by
  rw [covers_concat]
  constructor
  · rintro ⟨front, piece, hfront, -, hcut⟩
    have hlength := congrArg length hcut
    rw [length_append, length_take_of_le hj] at hlength
    have htake : text.take front.length = front := by
      have hshort : front.length ≤ j := by omega
      rw [← Nat.min_eq_left hshort, ← take_take, ← hcut, take_left]
    exact ⟨front.length, by omega, by rwa [htake]⟩
  · rintro ⟨i, hi, h⟩
    refine ⟨_, (text.take j).drop i, h, .inl rfl, ?_⟩
    rw [← Nat.min_eq_left hi, ← take_take, Nat.min_eq_left hi, take_append_drop]

theorem covers_one_take {j : Nat} {c : Char} (hone : p ≠ '%') (hc : text[j]? = some c) :
    Covers (pattern ++ [p]) (text.take (j + 1)) ↔
      Covers pattern (text.take j) ∧ (p = '_' ∨ p = c) := by
  have htake : text.take (j + 1) = text.take j ++ [c] := by rw [take_add_one, hc]; rfl
  rw [covers_concat, htake]
  constructor
  · rintro ⟨front, piece, hfront, hany | ⟨c', rfl, hp⟩, hcut⟩
    · exact absurd hany hone
    · obtain ⟨rfl, hlast⟩ := append_inj' hcut rfl
      obtain rfl := (cons.inj hlast).1
      exact ⟨hfront, hp⟩
  · rintro ⟨h, hp⟩
    exact ⟨_, [c], h, .inr ⟨c, rfl, hp⟩, rfl⟩

theorem not_covers_nil (hone : p ≠ '%') : ¬Covers (pattern ++ [p]) [] := by
  rw [covers_concat]
  rintro ⟨front, piece, -, hany | ⟨c, rfl, -⟩, hcut⟩
  · exact hone hany
  · simp at hcut

/-- One more character of the pattern takes the row over. -/
theorem IsRow.advance (h : IsRow pattern text row) (p : Char) :
    IsRow (pattern ++ [p]) text (advance text row p) where
  length := length_advance text row p h.length
  flag j hj := by
    rw [Pattern.advance]
    split
    · rename_i hany
      rw [hany, spread_eq_some, covers_any_take hj, h.length]
      simp only [Bool.false_eq_true, false_or]
      rw [and_iff_right (Nat.lt_succ_of_le hj)]
      exact exists_congr fun i => and_congr_right fun hi => h.flag i (Nat.le_trans hi hj)
    · rename_i hone
      cases j with
      | zero => simpa using not_covers_nil hone
      | succ j =>
        have hc : text[j]? = some text[j] := getElem?_eq_getElem hj
        rw [covers_one_take hone hc, ← h.flag j (Nat.le_of_succ_le hj), getElem?_cons_succ,
          getElem?_zipWith_eq_some]
        simp only [hc, Option.some.injEq, Bool.and_eq_true, Bool.or_eq_true, beq_iff_eq]
        constructor
        · rintro ⟨flag, c, hflag, rfl, rfl, hp⟩
          exact ⟨hflag, hp⟩
        · rintro ⟨hflag, hp⟩
          exact ⟨_, _, hflag, rfl, rfl, hp⟩

theorem isRow_foldl (pattern text : List Char) :
    IsRow pattern text (pattern.foldl (Pattern.advance text) (start text)) := by
  induction pattern using reverseRecOn with
  | nil => exact isRow_start text
  | append_singleton pattern p ih =>
    rw [foldl_append]
    exact ih.advance p

theorem like_eq_true : like pattern text = true ↔ Covers pattern text := by
  have hrow := isRow_foldl pattern text
  have hlast := hrow.flag text.length (Nat.le_refl _)
  rw [take_length] at hlast
  rw [like, getLast?_eq_getElem?, hrow.length, Nat.add_sub_cancel, ← hlast]
  cases (pattern.foldl (Pattern.advance text) (start text))[text.length]? <;> simp

theorem covers_of_plain (hplain : ∀ p ∈ pattern, p ≠ '%' ∧ p ≠ '_') :
    Covers pattern text ↔ text = pattern := by
  induction pattern using reverseRecOn generalizing text with
  | nil => exact covers_nil
  | append_singleton pattern p ih =>
    rw [forall_mem_append, forall_mem_singleton] at hplain
    have htakes : ∀ piece, Takes p piece ↔ piece = [p] := by
      simp [Takes, hplain.2]
    simp only [covers_concat, ih hplain.1, htakes]
    exact ⟨fun ⟨_, _, hfront, hpiece, hcut⟩ => by rw [← hcut, hfront, hpiece],
      fun h => ⟨_, _, rfl, rfl, h.symm⟩⟩

theorem like_append_any (hplain : ∀ p ∈ pattern, p ≠ '%' ∧ p ≠ '_') :
    like (pattern ++ ['%']) text = true ↔ pattern <+: text := by
  rw [like_eq_true, covers_concat]
  simp only [covers_of_plain hplain]
  constructor
  · rintro ⟨_, piece, rfl, -, hcut⟩
    exact ⟨piece, hcut⟩
  · rintro ⟨piece, hcut⟩
    exact ⟨_, piece, rfl, .inl rfl, hcut⟩

def write? (row : List Bool) (j : Nat) (flag : Bool) : Option (List Bool) :=
  if j < row.length then some (row.set j flag) else none

def blank (text : List Char) : List Bool := replicate (text.length + 1) false

def spreadCell? (row : List Bool) : Bool × List Bool → Nat → Option (Bool × List Bool)
  | (reached, next), j => do
    let reached := reached || (← row[j]?)
    return (reached, ← write? next j reached)

def matchCell? (text : List Char) (row : List Bool) (p : Char) (next : List Bool) (j : Nat) :
    Option (List Bool) := do
  let flag ← row[j]?
  let c ← text[j]?
  write? next (j + 1) (flag && (p == '_' || p == c))

def advanceCells? (text : List Char) (row : List Bool) (p : Char) : Option (List Bool) :=
  if p = '%' then
    ((range (text.length + 1)).foldlM (spreadCell? row) (false, blank text)).map (·.2)
  else (range text.length).foldlM (matchCell? text row p) (blank text)

/-- `like` with rows that are read and written by index; there is no answer if an index is out of
bounds. -/
def likeCells? (pattern text : List Char) : Option Bool := do
  let first ← write? (blank text) 0 true
  let last ← pattern.foldlM (advanceCells? text) first
  last[text.length]?

theorem write?_take {out : List Bool} {i : Nat} {flag : Bool} (h : out[i]? = some flag) :
    write? (out.take i ++ replicate (out.length - i) false) i flag =
      some (out.take (i + 1) ++ replicate (out.length - (i + 1)) false) := by
  have hi : i < out.length := (List.getElem?_eq_some_iff.1 h).1
  have htake : (out.take i).length = i := length_take_of_le (Nat.le_of_lt hi)
  have hrest : out.length - i = out.length - (i + 1) + 1 := by omega
  rw [write?, if_pos (by simp only [length_append, length_take, length_replicate]; omega),
    set_append_right i flag (Nat.le_of_eq htake), htake, Nat.sub_self, hrest, replicate_succ,
    set_cons_zero, take_add_one, h]
  simp

theorem getElem?_spread {reached : Bool} {j : Nat} (hj : j < row.length) :
    (spread reached row)[j]? = some (reached || (row.take (j + 1)).any id) := by
  induction row generalizing reached j with
  | nil => cases hj
  | cons flag flags ih =>
    cases j with
    | zero => simp [spread]
    | succ j =>
      rw [spread, getElem?_cons_succ, ih (Nat.lt_of_succ_lt_succ hj)]
      simp [Bool.or_assoc]

theorem foldlM_spreadCell? (h : row.length = text.length + 1) {i : Nat} (hi : i ≤ row.length) :
    (range i).foldlM (spreadCell? row) (false, blank text) =
      some ((row.take i).any id,
        (spread false row).take i ++ replicate ((spread false row).length - i) false) := by
  induction i with
  | zero => simp [blank, length_spread, h]
  | succ i ih =>
    have hread : row[i]? = some row[i] := getElem?_eq_getElem hi
    have hreached : (row.take (i + 1)).any id = ((row.take i).any id || row[i]) := by
      rw [take_add_one, hread, any_append]
      simp
    have hflag : (spread false row)[i]? = some ((row.take i).any id || row[i]) := by
      rw [getElem?_spread hi, hreached, Bool.false_or]
    rw [range_succ, foldlM_append, ih (Nat.le_of_succ_le hi), Option.bind_eq_bind, Option.bind_some]
    simp only [foldlM_cons, foldlM_nil, spreadCell?, hread, Option.bind_eq_bind, Option.bind_some,
      write?_take hflag, hreached, Option.pure_def]

theorem foldlM_matchCell? (h : row.length = text.length + 1) (hone : p ≠ '%') {i : Nat}
    (hi : i ≤ text.length) : (range i).foldlM (matchCell? text row p) (blank text) =
      some ((advance text row p).take (i + 1) ++
        replicate ((advance text row p).length - (i + 1)) false) := by
  induction i with
  | zero => simp [advance, hone, blank, replicate_succ, h]
  | succ i ih =>
    have hrow : row[i]? = some row[i] := getElem?_eq_getElem (by omega)
    have htext : text[i]? = some text[i] := getElem?_eq_getElem hi
    have hflag : (advance text row p)[i + 1]? = some (row[i] && (p == '_' || p == text[i])) := by
      rw [advance, if_neg hone, getElem?_cons_succ, getElem?_zipWith, hrow, htext]
    rw [range_succ, foldlM_append, ih (Nat.le_of_succ_le hi), Option.bind_eq_bind, Option.bind_some]
    simp only [foldlM_cons, foldlM_nil, matchCell?, hrow, htext, Option.bind_eq_bind,
      Option.bind_some, write?_take hflag, Option.pure_def]

/-- Every index that is read or written for the next row is in bounds. -/
theorem advanceCells?_eq (h : row.length = text.length + 1) :
    advanceCells? text row p = some (advance text row p) := by
  unfold advanceCells?
  split
  · rename_i hany
    rw [← h, foldlM_spreadCell? h (Nat.le_refl _), hany]
    simp [advance, length_spread, take_of_length_le]
  · rename_i hone
    have hout : (advance text row p).length = text.length + 1 := length_advance text row p h
    rw [foldlM_matchCell? h hone (Nat.le_refl _), hout]
    simp [← hout]

theorem foldlM_advanceCells? (h : row.length = text.length + 1) :
    pattern.foldlM (advanceCells? text) row = some (pattern.foldl (advance text) row) := by
  induction pattern generalizing row with
  | nil => rfl
  | cons p pattern ih =>
    rw [foldlM_cons, advanceCells?_eq h, Option.bind_eq_bind, Option.bind_some, foldl_cons]
    exact ih (length_advance text row p h)

theorem likeCells?_eq (pattern text : List Char) :
    likeCells? pattern text = some (like pattern text) := by
  have hfirst : write? (blank text) 0 true = some (start text) := by
    simp [write?, blank, start, replicate_succ, map_const']
  have hlast := (isRow_foldl pattern text).length
  rw [likeCells?, hfirst, Option.bind_eq_bind, Option.bind_some,
    foldlM_advanceCells? (isRow_start text).length, Option.bind_some, like, getLast?_eq_getElem?,
    hlast, Nat.add_sub_cancel, getElem?_eq_getElem (by omega : text.length < _)]
  rfl

/-- `like` decides whether the text can be cut into pieces that the characters of the pattern take,
and no index of its rows or of the text is out of bounds on the way. -/
theorem like_iff_covers_in_bounds (pattern text : List Char) :
    (like pattern text = true ↔ Covers pattern text) ∧
      likeCells? pattern text = some (like pattern text) :=
  ⟨like_eq_true, likeCells?_eq pattern text⟩

end QueryDomain.Pattern
