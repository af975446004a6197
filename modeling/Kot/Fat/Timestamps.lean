import Kot.Fat.Driver
import Kot.Fat.Records

/-! The date and time words of a directory record: how the driver packs the clock into them and
what `fat_interface_file_stat` reads from them. -/
namespace Kot.Fat

open Kot.Lib

structure WallClock where
  year : ℕ
  month : ℕ
  monthDay : ℕ
  hour : ℕ
  minute : ℕ
  second : ℕ
  year_mem : 1980 ≤ year ∧ year ≤ 2107
  month_mem : 1 ≤ month ∧ month ≤ 12
  monthDay_mem : 1 ≤ monthDay ∧ monthDay ≤ 31
  hour_lt : hour < 24
  minute_lt : minute < 60
  second_lt : second < 60

def fatYearBase : ℕ := 1980

def tmYearBase : ℕ := 1900

def fatGetCurrentTime (c : WallClock) : ℕ :=
  (c.second &&& 0x1F) ||| ((c.minute &&& 0x3F) <<< 5) ||| ((c.hour &&& 0x1F) <<< 11)

def fatGetCurrentDate (c : WallClock) : ℕ :=
  (c.monthDay &&& 0x1F) ||| ((c.month &&& 0xF) <<< 5) |||
    (((c.year - fatYearBase) &&& 0x7F) <<< 9)

/-- The fields of `struct tm` that the driver sets; the kernel counts months from 1. -/
structure Tm where
  sec : ℕ
  min : ℕ
  hour : ℕ
  mday : ℕ
  mon : ℕ
  year : ℕ

def fatGetEntryDate (tm : Tm) (date : ℕ) : Tm :=
  { tm with
    mday := date &&& 0x1F
    mon := (date >>> 5) &&& 0xF
    year := ((date >>> 9) &&& 0x7F) + fatYearBase - tmYearBase }

def fatGetEntryTime (tm : Tm) (time : ℕ) : Tm :=
  { tm with
    sec := time &&& 0x1F
    min := (time >>> 5) &&& 0x3F
    hour := (time >>> 11) &&& 0x1F }

/-- The `time_info` of which `fat_interface_file_stat` makes `st_mtime`. -/
def Entry.writeTime (e : Entry) (tm : Tm) : Tm :=
  fatGetEntryDate (fatGetEntryTime tm (e.field 22 2)) (e.field 24 2)

/-- The same minute, and the same second in the two-second resolution of the format. -/
structure WallClock.SameAs (c : WallClock) (tm : Tm) : Prop where
  year : tm.year + tmYearBase = c.year
  month : tm.mon = c.month
  monthDay : tm.mday = c.monthDay
  hour : tm.hour = c.hour
  minute : tm.min = c.minute
  second : tm.sec / 2 = c.second / 2

def WallClock.env (c : WallClock) (stale behind : ℕ → UInt8) : Env where
  time := fatGetCurrentTime c
  date := fatGetCurrentDate c
  stale := stale
  behind := behind

variable (c : WallClock)

theorem or_shiftLeft {a b i : ℕ} (ha : a < 2 ^ i) : a ||| (b <<< i) = a + b * 2 ^ i := by
  rw [Nat.or_comm, ← Nat.shiftLeft_add_eq_or_of_lt ha, Nat.shiftLeft_eq, Nat.add_comm]

theorem fatGetCurrentTime_eq :
    fatGetCurrentTime c = c.second % 32 + 32 * (c.minute + 64 * c.hour) := by
  have hmin := c.minute_lt
  have hhour := c.hour_lt
  have hs : c.second &&& 0x1F = c.second % 32 := Nat.and_two_pow_sub_one_eq_mod _ 5
  have hm : c.minute &&& 0x3F = c.minute % 64 := Nat.and_two_pow_sub_one_eq_mod _ 6
  have hh : c.hour &&& 0x1F = c.hour % 32 := Nat.and_two_pow_sub_one_eq_mod _ 5
  rw [fatGetCurrentTime, hs, hm, hh, or_shiftLeft (a := c.second % 32) (by omega),
    or_shiftLeft (by omega)]
  omega

theorem fatGetCurrentDate_eq :
    fatGetCurrentDate c = c.monthDay + 32 * (c.month + 16 * (c.year - 1980)) := by
  have hyear := c.year_mem
  have hmonth := c.month_mem
  have hday := c.monthDay_mem
  have hd : c.monthDay &&& 0x1F = c.monthDay % 32 := Nat.and_two_pow_sub_one_eq_mod _ 5
  have hm : c.month &&& 0xF = c.month % 16 := Nat.and_two_pow_sub_one_eq_mod _ 4
  have hy : (c.year - 1980) &&& 0x7F = (c.year - 1980) % 128 :=
    Nat.and_two_pow_sub_one_eq_mod _ 7
  rw [fatGetCurrentDate, fatYearBase, hd, hm, hy, or_shiftLeft (a := c.monthDay % 32) (by omega),
    or_shiftLeft (by omega)]
  omega

theorem current_lt : fatGetCurrentTime c < 256 ^ 2 ∧ fatGetCurrentDate c < 256 ^ 2 := by
  have hyear := c.year_mem
  have hmonth := c.month_mem
  have hday := c.monthDay_mem
  have hmin := c.minute_lt
  have hhour := c.hour_lt
  rw [fatGetCurrentTime_eq, fatGetCurrentDate_eq]
  omega

theorem fatGetEntryTime_current (tm : Tm) : fatGetEntryTime tm (fatGetCurrentTime c) =
      { tm with sec := c.second % 32, min := c.minute, hour := c.hour } := by
  have hmin := c.minute_lt
  have hhour := c.hour_lt
  have hs : ∀ n, n &&& 0x1F = n % 32 := fun n => Nat.and_two_pow_sub_one_eq_mod n 5
  have hm : ∀ n, n &&& 0x3F = n % 64 := fun n => Nat.and_two_pow_sub_one_eq_mod n 6
  rw [fatGetEntryTime, fatGetCurrentTime_eq]
  simp only [hs, hm, Nat.shiftRight_eq_div_pow, Tm.mk.injEq, and_self, and_true]
  omega

theorem fatGetEntryDate_current (tm : Tm) : fatGetEntryDate tm (fatGetCurrentDate c) =
      { tm with mday := c.monthDay, mon := c.month, year := c.year - tmYearBase } := by
  have hyear := c.year_mem
  have hmonth := c.month_mem
  have hday := c.monthDay_mem
  have hd : ∀ n, n &&& 0x1F = n % 32 := fun n => Nat.and_two_pow_sub_one_eq_mod n 5
  have hm : ∀ n, n &&& 0xF = n % 16 := fun n => Nat.and_two_pow_sub_one_eq_mod n 4
  have hy : ∀ n, n &&& 0x7F = n % 128 := fun n => Nat.and_two_pow_sub_one_eq_mod n 7
  rw [fatGetEntryDate, fatGetCurrentDate_eq]
  simp only [hd, hm, hy, Nat.shiftRight_eq_div_pow, fatYearBase, tmYearBase, Tm.mk.injEq,
    true_and]
  omega

theorem sameAs_iff {e : Entry} (ht : e.field 22 2 = fatGetCurrentTime c)
    (hd : e.field 24 2 = fatGetCurrentDate c) (tm : Tm) :
    c.SameAs (e.writeTime tm) ↔ c.second < 32 := by
  have hyear := c.year_mem
  rw [Entry.writeTime, ht, hd, fatGetEntryTime_current, fatGetEntryDate_current]
  constructor
  · intro h
    have hs : c.second % 32 / 2 = c.second / 2 := h.second
    omega
  · intro h
    refine ⟨?_, rfl, rfl, rfl, rfl, ?_⟩
    · show c.year - tmYearBase + tmYearBase = c.year
      rw [tmYearBase]
      omega
    · show c.second % 32 / 2 = c.second / 2
      omega

variable (stale behind : ℕ → UInt8) (tm : Tm)

theorem setCluster_field (e : Entry) (cluster : ℕ) {i n : ℕ} (hi : 22 ≤ i) (hn : i + n ≤ 26) :
    (e.setCluster cluster).field i n = e.field i n := by
  rw [Entry.setCluster, Entry.field_put_of_disjoint (by simp) (by simp; omega),
    Entry.field_put_of_disjoint (by simp) (by simp; omega)]

theorem newEntry_words (attributes : UInt8) :
    (newEntry (c.env stale behind) attributes).field 22 2 = fatGetCurrentTime c ∧
      (newEntry (c.env stale behind) attributes).field 24 2 = fatGetCurrentDate c := by
  obtain ⟨ht, hd⟩ := current_lt c
  have htime : (newEntry (c.env stale behind) attributes).field 22 2 =
      fromLe (toLe 2 (fatGetCurrentTime c)) := rfl
  have hdate : (newEntry (c.env stale behind) attributes).field 24 2 =
      fromLe (toLe 2 (fatGetCurrentDate c)) := rfl
  rw [htime, hdate, fromLe_toLe, fromLe_toLe, Nat.mod_eq_of_lt ht, Nat.mod_eq_of_lt hd]
  exact ⟨rfl, rfl⟩

/-- The records that the driver stores at a moment: that of a new file, that of a new directory
and that of a file after a write. -/
inductive Stamped : Entry → Prop
  | file (name : Name) (rest : List UInt8) :
      Stamped (sfnEntry (newEntry (c.env stale behind) 0) name rest)
  | directory (cluster : ℕ) (name : Name) (rest : List UInt8) :
      Stamped (sfnEntry ((newEntry (c.env stale behind) 0x10).setCluster cluster) name rest)
  | written (e : Entry) :
      Stamped (e.setLastWrite (c.env stale behind).time (c.env stale behind).date)

theorem Stamped.words {e : Entry} (h : Stamped c stale behind e) :
    e.field 22 2 = fatGetCurrentTime c ∧ e.field 24 2 = fatGetCurrentDate c := by
  cases h with
  | file name rest =>
    rw [sfnEntry_field (by omega), sfnEntry_field (by omega)]
    exact newEntry_words c stale behind 0
  | directory cluster name rest =>
    rw [sfnEntry_field (by omega), sfnEntry_field (by omega),
      setCluster_field _ _ (by omega) (by omega), setCluster_field _ _ (by omega) (by omega)]
    exact newEntry_words c stale behind 0x10
  | written e =>
    obtain ⟨ht, hd⟩ := current_lt c
    constructor
    · rw [Entry.setLastWrite, Entry.field_put_of_disjoint (by simp) (by simp),
        Entry.field_put_toLe (by omega)]
      exact Nat.mod_eq_of_lt ht
    · rw [Entry.setLastWrite, Entry.field_put_toLe (by omega)]
      exact Nat.mod_eq_of_lt hd

/-- A stored record tells the moment of the write exactly in the first 32 seconds of a minute. -/
theorem stamped_sameAs_iff (c : WallClock) (stale behind : ℕ → UInt8) (e : Entry)
    (h : Stamped c stale behind e) (tm : Tm) : c.SameAs (e.writeTime tm) ↔ c.second < 32 :=
  sameAs_iff c h.words.1 h.words.2 tm

def lastMinute (second : Fin 60) : WallClock where
  year := 2024
  month := 12
  monthDay := 31
  hour := 23
  minute := 59
  second := second
  year_mem := by decide
  month_mem := by decide
  monthDay_mem := by decide
  hour_lt := by decide
  minute_lt := by decide
  second_lt := second.isLt

def newFile (c : WallClock) : Entry :=
  sfnEntry (newEntry (c.env (fun _ => 0) fun _ => 0) 0) [0x41] []

theorem stamped_lastMinute :
    (lastMinute 31).SameAs ((newFile (lastMinute 31)).writeTime ⟨0, 0, 0, 0, 0, 0⟩) :=
  (stamped_sameAs_iff (lastMinute 31) _ _ _ (.file _ _) _).mpr (by decide)

/-- A file created in the last second of 2024 is dated 32 seconds too early. -/
theorem second_is_cut : ((newFile (lastMinute 59)).writeTime ⟨0, 0, 0, 0, 0, 0⟩).sec = 27 ∧
      ¬ (lastMinute 59).SameAs ((newFile (lastMinute 59)).writeTime ⟨0, 0, 0, 0, 0, 0⟩) := by
  refine ⟨by decide +kernel, fun h => ?_⟩
  exact absurd h.second (by decide +kernel)

end Kot.Fat
