import Mathlib.Algebra.GroupWithZero.Nat
import Mathlib.Algebra.Group.Int.Defs
import Mathlib.Tactic.SplitIfs

/-! The kernel's `mktime` against the Gregorian calendar. -/
namespace Kot.Kernel.Time

def isLeapYear (year : ℕ) : Bool := (year % 4 == 0 && year % 100 != 0) || year % 400 == 0

def daysPerMonth : Bool → List ℕ
  | false => [31, 28, 31, 30, 31, 30, 31, 31, 30, 31, 30, 31]
  | true => [31, 29, 31, 30, 31, 30, 31, 31, 30, 31, 30, 31]

/-- A `struct tm` as `get_unix_time` fills it from the clock, with months from one to twelve. -/
structure Tm where
  tmYear : ℕ
  tmMon : ℕ
  tmMday : ℕ
  tmHour : ℕ
  tmMin : ℕ
  tmSec : ℕ
  year_mem : 70 ≤ tmYear ∧ tmYear ≤ 207
  month_mem : 1 ≤ tmMon ∧ tmMon ≤ 12
  day_mem : 1 ≤ tmMday ∧ tmMday ≤ (daysPerMonth (isLeapYear (tmYear + 1900))).getD (tmMon - 1) 0
  clock_mem : tmHour < 24 ∧ tmMin < 60 ∧ tmSec < 60

/-- The counters of the loop over the first `n` years from 1970 on: those of 365 days, and the leap
years. Each is a byte. -/
def countYears (n : ℕ) : ℕ × ℕ :=
  (List.range' 1970 n).foldl (fun (years, leapYears) y =>
    if isLeapYear y then (years, (leapYears + 1) % 256) else ((years + 1) % 256, leapYears)) (0, 0)

/-- The days of the months before, by the table of `year_index`: the macro `IS_LEAP_YEAR` does not
put the sum it is given in parentheses. -/
def monthDays (tm : Tm) : ℕ :=
  let leap := (tm.tmYear + 1900 % 4 == 0 && tm.tmYear + 1900 % 100 != 0) || tm.tmYear + 1900 % 400 == 0
  ((daysPerMonth leap).take (tm.tmMon - 1)).sum

/-- The seconds of the years are an `int`, which wraps. -/
def mktime (tm : Tm) : ℤ :=
  let years := countYears (tm.tmYear + 1900 - 1970)
  ((years.1 * 365 + years.2 * 366) * 86400 : ℤ).bmod (2 ^ 32) + monthDays tm * 86400 +
    tm.tmMday * 86400 + tm.tmHour * 3600 + tm.tmMin * 60 + tm.tmSec

/-- The leap days of the first `n` years from 1970 on. -/
def leapDays (n : ℕ) : ℕ := (n + 1) / 4 - (n + 69) / 100 + (n + 369) / 400

/-- The seconds since the start of 1970 in the Gregorian calendar. -/
def elapsed (tm : Tm) : ℤ :=
  let n := tm.tmYear - 70
  let month := ((daysPerMonth (isLeapYear (tm.tmYear + 1900))).take (tm.tmMon - 1)).sum
  (n * 365 + leapDays n + month + (tm.tmMday - 1) : ℤ) * 86400 +
    tm.tmHour * 3600 + tm.tmMin * 60 + tm.tmSec

/-- A leap year from March on, where the missing leap day makes up for the day too much. -/
def Mended (tm : Tm) : Prop := isLeapYear (tm.tmYear + 1900) = true ∧ 2 < tm.tmMon

instance : DecidablePred Mended := fun _ => inferInstanceAs (Decidable (_ ∧ _))

def drift (tm : Tm) : ℤ := (if Mended tm then 0 else 86400) - if 139 ≤ tm.tmYear then 2 ^ 32 else 0

theorem countYears_eq {n : ℕ} (hn : n ≤ 137) : countYears n = (n - leapDays n, leapDays n) := by
  induction n with
  | zero => rfl
  | succ n ih =>
    have hleap : isLeapYear (1970 + n) = true ↔ leapDays (n + 1) = leapDays n + 1 := by
      simp [isLeapYear, leapDays]
      omega
    have hstep : leapDays (n + 1) = leapDays n ∨ leapDays (n + 1) = leapDays n + 1 := by
      unfold leapDays
      omega
    have hle : leapDays n ≤ n := by
      unfold leapDays
      omega
    rw [countYears, List.range'_concat, List.foldl_append, ← countYears, ih (by omega)]
    simp only [List.foldl_cons, List.foldl_nil, Nat.one_mul]
    split_ifs with h
    · rw [hleap] at h
      ext <;> simp only <;> omega
    · rw [hleap] at h
      ext <;> simp only <;> omega

theorem years_seconds {n : ℕ} (hn : n ≤ 137) :
    (((n - leapDays n : ℕ) * 365 + leapDays n * 366) * 86400 : ℤ).bmod (2 ^ 32) =
      (n * 365 + leapDays n) * 86400 - if 69 ≤ n then 2 ^ 32 else 0 := by
  have hle : leapDays n ≤ n ∧ leapDays n ≤ 33 := by
    unfold leapDays
    omega
  simp only [Int.bmod]
  split_ifs <;> omega

theorem monthDays_eq {tm : Tm} : (monthDays tm : ℤ) =
    ((daysPerMonth (isLeapYear (tm.tmYear + 1900))).take (tm.tmMon - 1)).sum -
      if Mended tm then 1 else 0 := by
  have hfalse : ((tm.tmYear + 1900 % 4 == 0 && tm.tmYear + 1900 % 100 != 0) ||
      tm.tmYear + 1900 % 400 == 0) = false := by
    simp
  have htables : ∀ leap, ∀ month < 12, ((daysPerMonth false).take month).sum =
      (((daysPerMonth leap).take month).sum : ℤ) - if leap = true ∧ 1 < month then 1 else 0 := by
    decide
  have hmonth := tm.month_mem
  simp only [monthDays, hfalse, Mended]
  rw [htables _ _ (by omega)]
  congr 3
  simp
  omega

theorem mktime_eq {tm : Tm} : mktime tm = elapsed tm + drift tm := by
  have hyear := tm.year_mem
  have hsub : tm.tmYear + 1900 - 1970 = tm.tmYear - 70 := by omega
  unfold mktime elapsed drift
  rw [hsub, countYears_eq (by omega)]
  dsimp only
  rw [years_seconds (by omega), monthDays_eq]
  split_ifs <;> omega

/-- The seconds are right if and only if the time is in a leap year from March on, and before 2039.
Two times are right against each other if and only if they drift alike. -/
theorem mktime_eq_elapsed_iff (tm : Tm) :
    (mktime tm = elapsed tm ↔ Mended tm ∧ tm.tmYear + 1900 < 2039) ∧
    ∀ tm', mktime tm' - mktime tm = elapsed tm' - elapsed tm ↔ drift tm' = drift tm := by
  refine ⟨?_, fun tm' => ?_⟩
  · rw [mktime_eq, drift]
    split_ifs with hm hy hy <;> simp only [hm, true_and, false_and, iff_false] <;> omega
  · rw [mktime_eq, mktime_eq]
    omega

/-- The first second of 1970 is counted as a day, and a leap day like the day behind it. -/
theorem mktime_counts_day :
    mktime ⟨70, 1, 1, 0, 0, 0, by decide, by decide, by decide, by decide⟩ = 86400 ∧
    mktime ⟨124, 3, 1, 0, 0, 0, by decide, by decide, by decide, by decide⟩ =
      mktime ⟨124, 2, 29, 0, 0, 0, by decide, by decide, by decide, by decide⟩ := by
  decide

end Kot.Kernel.Time
