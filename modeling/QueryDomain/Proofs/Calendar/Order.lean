import QueryDomain.Calendar.Basic

/-! Days come one after another in the order of year, month and day of the month, and the keys of
days and timestamps are in the order of time. -/
namespace QueryDomain

open Calendar

namespace Calendar

theorem daysInMonth_bounds (year : Int) (month : Nat) :
    28 ≤ daysInMonth year month ∧ daysInMonth year month ≤ 31 := by
  unfold daysInMonth
  split
  · split <;> decide
  · split <;> decide

theorem isDate_iff {year : Int} {month day : Nat} : isDate year month day = true ↔
    firstYear ≤ year ∧ year ≤ lastYear ∧ 1 ≤ month ∧ month ≤ 12 ∧ 1 ≤ day ∧
      day ≤ daysInMonth year month := by
  simp only [isDate, Bool.and_eq_true, decide_eq_true_eq, and_assoc]

theorem isTime_iff {hour minute second nanosecond : Nat} :
    isTime hour minute second nanosecond = true ↔ hour < 24 ∧ minute < 60 ∧ second < 60 ∧
      (nanosecond < 1000000000 ∨ second = 59 ∧ nanosecond < 2000000000) := by
  simp only [isTime, Bool.and_eq_true, decide_eq_true_eq, Bool.or_eq_true, beq_iff_eq, and_assoc]
  rfl

end Calendar

namespace Date

variable {a b d next : Date}

def Before (a b : Date) : Prop :=
  a.year < b.year ∨ a.year = b.year ∧ (a.month < b.month ∨ a.month = b.month ∧ a.day < b.day)

theorem bounds (d : Date) :
    1 ≤ d.month ∧ d.month ≤ 12 ∧ 1 ≤ d.day ∧ d.day ≤ daysInMonth d.year d.month ∧ d.day ≤ 31 := by
  obtain ⟨-, -, hmonth, hmonth', hday, hday'⟩ := isDate_iff.1 d.exists_day
  exact ⟨hmonth, hmonth', hday, hday', Nat.le_trans hday' (daysInMonth_bounds _ _).2⟩

theorem key_lt_key_iff : a.key < b.key ↔ a.Before b := by
  have ha := a.bounds
  have hb := b.bounds
  unfold key Before
  omega

theorem key_injective (h : a.key = b.key) : a = b := by
  obtain ⟨y, m, d, hd⟩ := a
  obtain ⟨y', m', d', hd'⟩ := b
  have ha := bounds ⟨y, m, d, hd⟩
  have hb := bounds ⟨y', m', d', hd'⟩
  simp only [key] at h ha hb
  obtain ⟨rfl, rfl, rfl⟩ : y = y' ∧ m = m' ∧ d = d' := by omega
  rfl

theorem of?_eq_some {year : Int} {month day : Nat} : of? year month day = some d ↔
    d.year = year ∧ d.month = month ∧ d.day = day := by
  constructor
  · intro h
    unfold of? at h
    split at h <;> cases h
    exact ⟨rfl, rfl, rfl⟩
  · rintro ⟨rfl, rfl, rfl⟩
    exact d.of?_self

theorem key_lt_next (h : d.next? = some next) (a : Date) : a.key < next.key ↔ a.key ≤ d.key := by
  have ha := a.bounds
  have hd := d.bounds
  have hsame : a.year = d.year → a.month = d.month → a.day ≤ daysInMonth d.year d.month :=
    fun hyear hmonth => hyear ▸ hmonth ▸ ha.2.2.2.1
  unfold next? at h
  unfold key
  split at h
  · obtain ⟨hyear, hmonth, hday⟩ := of?_eq_some.1 h
    omega
  · split at h
    · obtain ⟨hyear, hmonth, hday⟩ := of?_eq_some.1 h
      omega
    · obtain ⟨hyear, hmonth, hday⟩ := of?_eq_some.1 h
      omega

theorem key_le_of_next?_eq_none (h : d.next? = none) (a : Date) : a.key ≤ d.key := by
  have ha := a.bounds
  have hd := d.bounds
  have hyears := isDate_iff.1 d.exists_day
  have hlast := (isDate_iff.1 a.exists_day).2.1
  have hsame : a.year = d.year → a.month = d.month → a.day ≤ daysInMonth d.year d.month :=
    fun hyear hmonth => hyear ▸ hmonth ▸ ha.2.2.2.1
  have hnone : ∀ {year : Int} {month day : Nat}, of? year month day = none →
      isDate year month day ≠ true := by
    intro year month day hof hdate
    rw [of?, dif_pos hdate] at hof
    cases hof
  unfold next? at h
  split at h
  · refine absurd (isDate_iff.2 ?_) (hnone h)
    omega
  · split at h
    · have := (daysInMonth_bounds d.year (d.month + 1)).1
      refine absurd (isDate_iff.2 ?_) (hnone h)
      omega
    · have hyear : ¬d.year + 1 ≤ lastYear := by
        have := (daysInMonth_bounds (d.year + 1) 1).1
        intro hyear
        refine hnone h (isDate_iff.2 ?_)
        omega
      unfold key
      omega

end Date

namespace TimeOfDay

theorem key_bounds (t : TimeOfDay) : 0 ≤ t.key ∧ t.key < 86400 * (2 * nanosPerSecond) := by
  have h := isTime_iff.1 t.exists_time
  unfold key nanosPerSecond
  omega

theorem key_injective {a b : TimeOfDay} (h : a.key = b.key) : a = b := by
  obtain ⟨hour, minute, second, nanosecond, ha⟩ := a
  obtain ⟨hour', minute', second', nanosecond', hb⟩ := b
  rw [isTime_iff] at ha hb
  simp only [key, nanosPerSecond] at h
  obtain ⟨rfl, rfl, rfl, rfl⟩ : hour = hour' ∧ minute = minute' ∧ second = second' ∧
    nanosecond = nanosecond' := by omega
  rfl

end TimeOfDay

namespace Timestamp

variable {a b : Timestamp}

theorem key_injective (h : a.key = b.key) : a = b := by
  obtain ⟨d, t⟩ := a
  obtain ⟨d', t'⟩ := b
  have ht := t.key_bounds
  have ht' := t'.key_bounds
  simp only [key, nanosPerSecond] at h ht ht'
  have hdate : d.key = d'.key := by omega
  have htime : t.key = t'.key := by omega
  rw [Date.key_injective hdate, TimeOfDay.key_injective htime]

theorem key_lt_startOf (t : Timestamp) (d : Date) : t.key < (startOf d).key ↔ t.date.key < d.key := by
  have ht := t.time.key_bounds
  have hmidnight : TimeOfDay.midnight.key = 0 := rfl
  simp only [key, startOf, hmidnight, nanosPerSecond] at ht ⊢
  omega

theorem key_lt_startOfNext {d : Date} {next : Timestamp} (h : startOfNext? d = some next)
    (t : Timestamp) : t.key < next.key ↔ t.date.key ≤ d.key := by
  obtain ⟨n, hn, rfl⟩ := Option.map_eq_some_iff.1 h
  rw [key_lt_startOf, Date.key_lt_next hn]

theorem key_le_of_startOfNext?_eq_none {d : Date} (h : startOfNext? d = none) (t : Timestamp) :
    t.date.key ≤ d.key :=
  Date.key_le_of_next?_eq_none (Option.map_eq_none_iff.1 h) _

end Timestamp

end QueryDomain
