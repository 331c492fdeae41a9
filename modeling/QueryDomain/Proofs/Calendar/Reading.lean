import Mathlib.Algebra.Group.Nat.Defs
import QueryDomain.Calendar.Reader
import QueryDomain.Proofs.Calendar.Order
import QueryDomain.Value

/-! Written days and timestamps are read as they were. The text of a timestamp shows whole seconds
only, so what is read is the timestamp without the fraction of its second. -/
namespace QueryDomain

open List

namespace Text

theorem isBlank_of_isDigit {c : Char} (h : c.isDigit = true) : isBlank c = false := by
  simp only [Char.isDigit, Bool.and_eq_true, decide_eq_true_eq] at h
  have hlow : 48 ≤ c.toNat := h.1
  have hhigh : c.toNat ≤ 57 := h.2
  simp only [isBlank, Bool.or_eq_false_iff, Bool.and_eq_false_iff, decide_eq_false_iff_not,
    beq_eq_false_iff_ne]
  omega

theorem trimChars_eq_self {cs : List Char} (hfirst : ∀ c ∈ cs.head?, isBlank c = false)
    (hlast : ∀ c ∈ cs.getLast?, isBlank c = false) : trimChars cs = cs := by
  have hdrop : ∀ {ds : List Char}, (∀ c ∈ ds.head?, isBlank c = false) →
      ds.dropWhile isBlank = ds := by
    intro ds hds
    cases ds with
    | nil => rfl
    | cons d ds => rw [dropWhile_cons, if_neg (by simp [hds d rfl])]
  rw [trimChars, hdrop hfirst, hdrop (by rwa [head?_reverse]), reverse_reverse]

theorem head?_append_of_digits {digits rest : List Char} (hdigits : ∀ c ∈ digits, c.isDigit = true)
    (hsome : digits ≠ []) : ∀ c ∈ (digits ++ rest).head?, c.isDigit = true := by
  intro c hc
  obtain ⟨first, others, rfl⟩ := exists_cons_of_ne_nil hsome
  rw [cons_append, head?_cons, Option.mem_some] at hc
  exact hdigits c (hc ▸ mem_cons_self)

section ZeroPadded

variable {width n : Nat}

theorem toList_zeroPadded : (zeroPadded width n).toList =
    replicate (width - (Nat.toDigits 10 n).length) '0' ++ Nat.toDigits 10 n :=
  String.toList_ofList

theorem digitsValue_zeroPadded : digitsValue (zeroPadded width n).toList = n := by
  have hzeros : ∀ m, digitsValue (replicate m '0') = 0 := by
    intro m
    induction m with
    | zero => rfl
    | succ m ih => rwa [replicate_succ, digitsValue, foldl_cons]
  have hdigits : foldl (fun n c => 10 * n + (c.toNat - '0'.toNat)) 0 (Nat.toDigits 10 n) = n :=
    Nat.ofDigitChars_toDigits (by decide) (by decide)
  rw [toList_zeroPadded, digitsValue, foldl_append]
  change foldl _ (digitsValue _) _ = n
  rw [hzeros, hdigits]

theorem isDigit_of_mem_zeroPadded {c : Char} (h : c ∈ (zeroPadded width n).toList) :
    c.isDigit = true := by
  rw [toList_zeroPadded, mem_append] at h
  obtain h | h := h
  · rw [eq_of_mem_replicate h]
    rfl
  · exact Nat.isDigit_of_mem_toDigits (by decide) (by decide) h

theorem zeroPadded_ne_nil : (zeroPadded width n).toList ≠ [] := by
  have := @Nat.length_toDigits_pos 10 n
  rw [toList_zeroPadded, ← length_pos_iff, length_append]
  omega

theorem length_zeroPadded (hn : n < 10 ^ width) (hwidth : 0 < width) :
    (zeroPadded width n).toList.length = width := by
  have := (Nat.length_toDigits_le_iff (by decide) hwidth).2 hn
  rw [toList_zeroPadded, length_append, length_replicate]
  omega

theorem head?_zeroPadded_append {rest : List Char} :
    ∀ c ∈ ((zeroPadded width n).toList ++ rest).head?, c.isDigit = true :=
  head?_append_of_digits (fun _ => isDigit_of_mem_zeroPadded) zeroPadded_ne_nil

theorem getLast?_append_zeroPadded {front : List Char} :
    ∀ c ∈ (front ++ (zeroPadded width n).toList).getLast?, c.isDigit = true := by
  intro c hc
  rw [getLast?_append, getLast?_eq_some_getLast zeroPadded_ne_nil, Option.some_or,
    Option.mem_some] at hc
  exact isDigit_of_mem_zeroPadded (hc ▸ getLast_mem zeroPadded_ne_nil)

end ZeroPadded

end Text

open Text

namespace Calendar

theorem number_append {limit : Nat} {digits rest : List Char} (hsome : digits ≠ [])
    (hdigits : ∀ c ∈ digits, c.isDigit = true) (hlimit : digits.length ≤ limit)
    (hrest : digits.length = limit ∨ ∀ c ∈ rest.head?, c.isDigit = false) :
    number limit (digits ++ rest) = some (digitsValue digits, rest) := by
  have htaken : ((digits ++ rest).takeWhile Char.isDigit).take limit = digits := by
    rw [takeWhile_append_of_pos hdigits]
    obtain hfull | hend := hrest
    · rw [← hfull, take_left]
    · have hnone : rest.takeWhile Char.isDigit = [] := by
        cases rest with
        | nil => rfl
        | cons c rest => rw [takeWhile_cons, if_neg (by simp [hend c rfl])]
      rw [hnone, append_nil, take_of_length_le hlimit]
  rw [number, htaken]
  simp [hsome]

theorem skipBlanks_eq_self {cs : List Char} (h : ∀ c ∈ cs.head?, isBlank c = false) :
    skipBlanks cs = cs := by
  cases cs with
  | nil => rfl
  | cons c cs => rw [skipBlanks, dropWhile_cons, if_neg (by simp [h c rfl])]

theorem skipBlanks_zeroPadded {width n : Nat} {rest : List Char} :
    skipBlanks ((zeroPadded width n).toList ++ rest) = (zeroPadded width n).toList ++ rest :=
  skipBlanks_eq_self fun c hc => isBlank_of_isDigit (head?_zeroPadded_append c hc)

section Digits

variable {digits rest : List Char} (hdigits : ∀ c ∈ digits, c.isDigit = true)

include hdigits

theorem component_append (hlength : digits.length = 2) :
    component (digits ++ rest) = some (digitsValue digits, rest) := by
  have hsome : digits ≠ [] := by
    rintro rfl
    cases hlength
  rw [component, skipBlanks_eq_self fun c hc =>
    isBlank_of_isDigit (head?_append_of_digits hdigits hsome c hc)]
  exact number_append hsome hdigits (Nat.le_of_eq hlength) (.inl hlength)

theorem year_append (hlength : digits.length = 4) :
    year (digits ++ rest) = some ((digitsValue digits : Int), rest) := by
  have hsome : digits ≠ [] := by
    rintro rfl
    cases hlength
  have hfirst : ∀ c ∈ (digits ++ rest).head?, c.isDigit = true := head?_append_of_digits hdigits hsome
  have hnumber : number 4 (digits ++ rest) = some (digitsValue digits, rest) :=
    number_append hsome hdigits (Nat.le_of_eq hlength) (.inl hlength)
  rw [year, skipBlanks_eq_self fun c hc => isBlank_of_isDigit (hfirst c hc)]
  split
  · rename_i hcs
    rw [hcs] at hfirst
    cases hfirst '-' rfl
  · rename_i hcs
    rw [hcs] at hfirst
    cases hfirst '+' rfl
  · rw [hnumber, Option.map_some]

end Digits

theorem component_zeroPadded {n : Nat} (hn : n < 100) (rest : List Char) :
    component ((zeroPadded 2 n).toList ++ rest) = some (n, rest) := by
  rw [component_append (fun _ => isDigit_of_mem_zeroPadded) (length_zeroPadded hn (by decide)),
    digitsValue_zeroPadded]

theorem number_unlimited {width n : Nat} (rest : List Char) :
    number ((zeroPadded width n).toList ++ '-' :: rest).length
      ((zeroPadded width n).toList ++ '-' :: rest) = some (n, '-' :: rest) := by
  rw [number_append zeroPadded_ne_nil (fun _ => isDigit_of_mem_zeroPadded) (by simp)
    (.inr (by simp)), digitsValue_zeroPadded]

theorem year_yearText (y : Int) (rest : List Char) :
    year ((Date.yearText y).toList ++ '-' :: rest) = some (y, '-' :: rest) := by
  unfold Date.yearText
  split
  · rename_i hy
    have hlength : (zeroPadded 4 y.toNat).toList.length = 4 :=
      length_zeroPadded (by omega) (by decide)
    rw [year_append (fun _ => isDigit_of_mem_zeroPadded) hlength, digitsValue_zeroPadded,
      Int.toNat_of_nonneg hy.1]
  · have hread := @number_unlimited 4 y.natAbs rest
    have hsign : ∀ c ∈ ['-', '+'], ∀ cs, skipBlanks (c :: cs) = c :: cs := by simp [skipBlanks, isBlank]
    rw [String.toList_append, append_assoc]
    split
    · have hy : -(y.natAbs : Int) = y := by omega
      rw [show "-".toList = ['-'] from rfl, singleton_append, year, hsign '-' (by simp)]
      simp only [hread, Option.map_some, hy]
    · have hy : (y.natAbs : Int) = y := by omega
      rw [show "+".toList = ['+'] from rfl, singleton_append, year, hsign '+' (by simp)]
      simp only [hread, Option.map_some, hy]

theorem literal_cons (c : Char) (rest : List Char) : literal c (c :: rest) = some ((), rest) :=
  if_pos rfl

end Calendar

open Calendar

namespace Date

theorem toList_text (d : Date) : d.text.toList = (yearText d.year).toList ++ '-' ::
    ((zeroPadded 2 d.month).toList ++ '-' :: (zeroPadded 2 d.day).toList) := by
  simp [text]

theorem day_text (d : Date) (rest : List Char) :
    Calendar.day (d.text.toList ++ rest) = some (d, rest) := by
  have hbounds := d.bounds
  have hmonth : d.month < 100 := by omega
  have hday : d.day < 100 := by omega
  simp only [Calendar.day, toList_text, append_assoc, cons_append, year_yearText, literal_cons,
    component_zeroPadded hmonth, component_zeroPadded hday, Option.bind_eq_bind, Option.bind_some,
    of?_self, Option.pure_def]

theorem head?_text_append (d : Date) (rest : List Char) :
    ∀ c ∈ (d.text.toList ++ rest).head?, isBlank c = false := by
  intro c hc
  rw [toList_text, append_assoc, yearText] at hc
  split at hc
  · exact isBlank_of_isDigit (head?_zeroPadded_append c hc)
  · rw [String.toList_append] at hc
    split at hc <;> cases hc <;> rfl

theorem read?_text (d : Date) : read? d.text = some d := by
  have htrim : trimChars d.text.toList = d.text.toList := by
    refine trimChars_eq_self (by simpa using d.head?_text_append []) fun c hc => ?_
    rw [text, String.toList_append] at hc
    exact isBlank_of_isDigit (getLast?_append_zeroPadded c hc)
  have hday := d.day_text []
  rw [append_nil] at hday
  rw [read?, htrim, hday]
  rfl

end Date

namespace TimeOfDay

theorem isTime_whole (t : TimeOfDay) : isTime t.hour t.minute t.second
    (t.nanosecond / nanosPerSecond * nanosPerSecond) = true := by
  have h := isTime_iff.1 t.exists_time
  rw [isTime_iff, nanosPerSecond]
  omega

/-- The time without the fraction of its second; a leap second stays one. -/
def whole (t : TimeOfDay) : TimeOfDay :=
  ⟨t.hour, t.minute, t.second, t.nanosecond / nanosPerSecond * nanosPerSecond, t.isTime_whole⟩

/-- A second of nanoseconds or more tells a leap second, and no other fraction is left. -/
theorem nanosecond_whole (t : TimeOfDay) :
    t.whole.nanosecond = if t.nanosecond < nanosPerSecond then 0 else nanosPerSecond := by
  have h := isTime_iff.1 t.exists_time
  rw [whole]
  split <;> simp only [nanosPerSecond] at * <;> omega

theorem whole_of_mod {t : TimeOfDay} (h : t.nanosecond % nanosPerSecond = 0) : t.whole = t := by
  simp only [whole]
  congr 1
  exact Nat.div_mul_cancel (Nat.dvd_of_mod_eq_zero h)

theorem clock_text (t : TimeOfDay) : clock t.text.toList = some (t.whole, []) := by
  have h := isTime_iff.1 t.exists_time
  have hhour : t.hour < 100 := by omega
  have hminute : t.minute < 100 := by omega
  have hsecond : t.second + t.nanosecond / nanosPerSecond < 100 := by
    simp only [nanosPerSecond]
    omega
  have htext : t.text.toList = (zeroPadded 2 t.hour).toList ++ ':' ::
      ((zeroPadded 2 t.minute).toList ++ ':' ::
        ((zeroPadded 2 (t.second + t.nanosecond / nanosPerSecond)).toList ++ [])) := by
    simp [text]
  have hread : ofClock? t.hour t.minute (t.second + t.nanosecond / nanosPerSecond) 0 =
      some t.whole := by
    have hwhole := t.whole.exists_time
    -- The second is 60 exactly if there is a second of nanoseconds or more.
    by_cases hleap : t.nanosecond < nanosPerSecond
    · have hzero : t.nanosecond / nanosPerSecond = 0 := Nat.div_eq_of_lt hleap
      rw [ofClock?, if_neg (by rw [hzero]; omega), of?]
      simp only [whole, hzero, Nat.zero_mul, Nat.add_zero] at hwhole ⊢
      rw [dif_pos hwhole]
    · have hone : t.nanosecond / nanosPerSecond = 1 := by
        simp only [nanosPerSecond] at hleap ⊢
        omega
      have hlast : t.second = 59 := by
        simp only [nanosPerSecond] at hleap
        omega
      rw [ofClock?, if_pos (by rw [hone, hlast]), of?]
      simp only [whole, hone, hlast, Nat.one_mul, Nat.zero_add] at hwhole ⊢
      rw [dif_pos hwhole]
  simp only [clock, htext, component_zeroPadded hhour, component_zeroPadded hminute,
    component_zeroPadded hsecond, literal_cons, optionalFraction, Option.bind_eq_bind,
    Option.bind_some, hread, Option.pure_def]

end TimeOfDay

namespace Timestamp

/-- The timestamp without the fraction of its second. -/
def whole (t : Timestamp) : Timestamp := ⟨t.date, t.time.whole⟩

theorem read?_text (t : Timestamp) : read? t.text = some t.whole := by
  have htext : t.text.toList = t.date.text.toList ++ ' ' :: t.time.text.toList := by
    simp [text]
  have htrim : trimChars t.text.toList = t.text.toList := by
    refine trimChars_eq_self ?_ fun c hc => ?_
    · rw [htext]
      exact t.date.head?_text_append _
    · rw [text, TimeOfDay.text, String.toList_append, String.toList_append (t := zeroPadded _ _),
        ← append_assoc] at hc
      exact isBlank_of_isDigit (getLast?_append_zeroPadded c hc)
  have hskip : skipBlanks (' ' :: t.time.text.toList) = t.time.text.toList := by
    have hblank : isBlank ' ' = true := by decide
    rw [skipBlanks, dropWhile_cons, if_pos hblank, TimeOfDay.text]
    simp only [String.toList_append, append_assoc]
    exact skipBlanks_zeroPadded
  have hread : blankSeparated t.text.toList = some t.whole := by
    simp only [blankSeparated, htext, Date.day_text, Option.bind_eq_bind, Option.bind_some, hskip,
      TimeOfDay.clock_text, complete, Option.pure_def]
    rfl
  rw [read?, htrim, hread]
  rfl

end Timestamp

/-- Days and timestamps that are written to JSON are read again. A day comes back as it was, in every
year of the calendar; a timestamp comes back without the fraction of its second, on a leap second if
it was on one. -/
theorem Value.calendar_reads_back :
    (∀ d, ∃ s, (date d).toJson = .string s ∧ Date.read? s = some d) ∧
    ∀ t, ∃ s t', (timestamp t).toJson = .string s ∧ Timestamp.read? s = some t' ∧
      t'.date = t.date ∧ t'.time.hour = t.time.hour ∧ t'.time.minute = t.time.minute ∧
      t'.time.second = t.time.second ∧
      t'.time.nanosecond = if t.time.nanosecond < nanosPerSecond then 0 else nanosPerSecond := by
  refine ⟨fun d => ⟨d.text, rfl, d.read?_text⟩, fun t => ⟨t.text, t.whole, rfl, t.read?_text, ?_⟩⟩
  exact ⟨rfl, rfl, rfl, rfl, t.time.nanosecond_whole⟩

namespace Calendar

variable {cs rest : List Char}

theorem fixedNumber_eq_some {count n : Nat} (h : fixedNumber count cs = some (n, rest)) :
    ∃ digits, cs = digits ++ rest ∧ (∀ c ∈ digits, c.isDigit = true) ∧ digits.length = count ∧
      n = digitsValue digits := by
  unfold fixedNumber at h
  dsimp only at h
  split at h
  · rename_i hdigits
    cases h
    exact ⟨cs.take count, (take_append_drop count cs).symm, all_eq_true.1 hdigits.2, hdigits.1, rfl⟩
  · cases h

theorem literal_eq_some {c : Char} {u : Unit} (h : literal c cs = some (u, rest)) :
    cs = c :: rest := by
  unfold literal at h
  split at h
  · split at h
    · rename_i hsame
      cases h
      rw [hsame]
    · cases h
  · cases h

theorem exists_day_of_withOffset {t : Timestamp} (h : withOffset cs = some t) {d : Date}
    (hday : day cs = some (d, rest)) : rest ≠ [] := by
  obtain ⟨⟨y, cs₁⟩, hy, h⟩ := Option.bind_eq_some_iff.1 h
  obtain ⟨⟨⟨⟩, cs₂⟩, hdash, h⟩ := Option.bind_eq_some_iff.1 h
  obtain ⟨⟨m, cs₃⟩, hm, h⟩ := Option.bind_eq_some_iff.1 h
  obtain ⟨⟨⟨⟩, cs₄⟩, hdash', h⟩ := Option.bind_eq_some_iff.1 h
  obtain ⟨⟨d', cs₅⟩, hd, h⟩ := Option.bind_eq_some_iff.1 h
  obtain ⟨⟨⟨⟩, cs₆⟩, hseparator, -⟩ := Option.bind_eq_some_iff.1 h
  obtain ⟨ys, rfl, hys, hlength, rfl⟩ := fixedNumber_eq_some hy
  obtain rfl := literal_eq_some hdash
  obtain ⟨ms, rfl, hms, hlength', rfl⟩ := fixedNumber_eq_some hm
  obtain rfl := literal_eq_some hdash'
  obtain ⟨ds, rfl, hds, hlength'', rfl⟩ := fixedNumber_eq_some hd
  simp only [day, year_append hys hlength, literal_cons, component_append hms hlength',
    component_append hds hlength'', Option.bind_eq_bind, Option.bind_some, Option.bind_eq_some_iff,
    Option.pure_def, Option.some.injEq, Prod.mk.injEq] at hday
  obtain ⟨-, -, -, rfl⟩ := hday
  rintro rfl
  cases hseparator

end Calendar

/-- A text is not read both as a day and as a timestamp. -/
theorem Timestamp.read?_of_day {s : String} {d : Date} (h : Date.read? s = some d) :
    read? s = none := by
  have hday : Calendar.day (trimChars s.toList) = some (d, []) := by
    unfold Date.read? complete at h
    split at h
    · rename_i hday
      cases h
      exact hday
    · cases h
  have hblank : blankSeparated (trimChars s.toList) = none := by
    rw [blankSeparated, hday]
    rfl
  have hletter : letterSeparated (trimChars s.toList) = none := by
    rw [letterSeparated, hday]
    rfl
  have hoffset : withOffset (trimChars s.toList) = none :=
    Option.eq_none_iff_forall_ne_some.2 fun t ht => exists_day_of_withOffset ht hday rfl
  rw [read?]
  simp only [hblank, hletter, hoffset]
  rfl

end QueryDomain
