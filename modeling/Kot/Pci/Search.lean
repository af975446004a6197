import Mathlib.Algebra.GroupWithZero.Nat
import Mathlib.Data.List.Count

/-! The search for devices by their identifiers: `device_search` and `device_find`. -/
namespace Kot.Pci.Search
open List

def noParameter : UInt16 := 0xffff

/-- The fields of `pci_device_header_t` that a search compares. -/
structure Header where
  vendorId : UInt16
  deviceId : UInt16
  progIf : UInt8
  subClassId : UInt8
  classId : UInt8
  deriving DecidableEq, Repr

structure Query where
  vendorId : UInt16
  deviceId : UInt16
  classId : UInt16
  subClassId : UInt16
  progIf : UInt16
  deriving DecidableEq, Repr

def Query.values (q : Query) : List UInt16 :=
  [q.vendorId, q.deviceId, q.subClassId, q.classId, q.progIf]

/-- The comparisons of a search: the field of the header and the value. -/
def checks (q : Query) (h : Header) : List (UInt16 × UInt16) :=
  [(h.vendorId, q.vendorId), (h.deviceId, q.deviceId), (h.subClassId.toUInt16, q.subClassId),
    (h.classId.toUInt16, q.classId), (h.progIf.toUInt16, q.progIf)]

def checkRequired (q : Query) : ℕ := q.values.countP (· ≠ noParameter)

def checkNum (q : Query) (h : Header) : ℕ := (checks q h).countP fun c => c.1 = c.2

abbrev Counts (q : Query) (h : Header) : Prop := checkRequired q = checkNum q h

/-- The loop of `device_search`. -/
def searchLoop (q : Query) : List Header → ℕ → ℕ
  | [], deviceNum => deviceNum
  | h :: hs, deviceNum => searchLoop q hs (if Counts q h then deviceNum + 1 else deviceNum)

/-- The devices have the ids from 1 on. -/
def deviceSearch (devices : List Header) (q : Query) : ℕ := searchLoop q devices 0

/-- The loop of `device_find` from the id `i` on; its counter is a `uint32_t`. -/
def findLoop (q : Query) (index : ℕ) : List Header → ℕ → ℕ → ℕ
  | [], _, _ => 0
  | h :: hs, i, deviceNum =>
    if Counts q h then
      if index = deviceNum then i else findLoop q index hs (i + 1) ((deviceNum + 1) % 2 ^ 32)
    else findLoop q index hs (i + 1) deviceNum

def deviceFind (devices : List Header) (q : Query) (index : ℕ) : ℕ := findLoop q index devices 1 0

/-- The ids of the devices with a property, from the id `i` on. -/
def idsOf (p : Header → Prop) [DecidablePred p] : ℕ → List Header → List ℕ
  | _, [] => []
  | i, h :: hs => if p h then i :: idsOf p (i + 1) hs else idsOf p (i + 1) hs

def Matches (q : Query) (h : Header) : Prop := ∀ c ∈ checks q h, c.2 ≠ noParameter → c.1 = c.2

instance (q : Query) : DecidablePred (Matches q) := fun h => List.decidableBAll _ (checks q h)

def matching (devices : List Header) (q : Query) : List ℕ := idsOf (Matches q) 1 devices

/-- Fields that are equal to a value that was not specified. -/
def wildcards (q : Query) (h : Header) : ℕ :=
  (checks q h).countP fun c => c.2 = noParameter ∧ c.1 = c.2

/-- Fields that differ from a specified value. -/
def misses (q : Query) (h : Header) : ℕ :=
  (checks q h).countP fun c => c.2 ≠ noParameter ∧ c.1 ≠ c.2

def Unambiguous (q : Query) (h : Header) : Prop :=
  wildcards q h = 0 ∨ misses q h ≠ 0 ∧ misses q h ≠ wildcards q h

theorem checks_count (l : List (UInt16 × UInt16)) :
    l.countP (fun c => c.2 ≠ noParameter) + l.countP (fun c => c.2 = noParameter ∧ c.1 = c.2) =
      l.countP (fun c => c.1 = c.2) + l.countP (fun c => c.2 ≠ noParameter ∧ c.1 ≠ c.2) := by
  induction l with
  | nil => rfl
  | cons c l ih =>
    simp only [countP_cons, decide_eq_true_eq]
    split_ifs <;> simp_all <;> omega

theorem unambiguous_iff {q : Query} (h : Header) :
    (Counts q h ↔ Matches q h) ↔ Unambiguous q h := by
  have hcount : checkRequired q + wildcards q h = checkNum q h + misses q h := checks_count (checks q h)
  have hmatches : Matches q h ↔ misses q h = 0 := by
    simp [Matches, misses, countP_eq_zero]
  rw [hmatches, Unambiguous]
  omega

section Ids

variable {p p' : Header → Prop} [DecidablePred p] [DecidablePred p'] {hs : List Header} {i : ℕ}

theorem le_of_mem_idsOf {x : ℕ} (hx : x ∈ idsOf p i hs) : i ≤ x := by
  induction hs generalizing i with
  | nil => cases hx
  | cons h hs ih =>
    rw [idsOf] at hx
    split_ifs at hx
    · rcases mem_cons.mp hx with rfl | hx
      · exact Nat.le_refl _
      · exact Nat.le_of_succ_le (ih hx)
    · exact Nat.le_of_succ_le (ih hx)

theorem idsOf_inj : idsOf p i hs = idsOf p' i hs ↔ ∀ h ∈ hs, (p h ↔ p' h) := by
  induction hs generalizing i with
  | nil => simp [idsOf]
  | cons h hs ih =>
    have hlater : ∀ {r : Header → Prop} [DecidablePred r], i ∉ idsOf r (i + 1) hs :=
      fun hi => Nat.not_succ_le_self _ (le_of_mem_idsOf hi)
    rw [idsOf, idsOf, forall_mem_cons, ← ih (i := i + 1)]
    by_cases hp : p h <;> by_cases hp' : p' h
    · simp [hp, hp']
    · simp only [hp, hp', if_true, if_false]
      exact iff_of_false (fun heq => hlater (heq ▸ mem_cons_self)) (by simp)
    · simp only [hp, hp', if_true, if_false]
      exact iff_of_false (fun heq => hlater (heq ▸ mem_cons_self)) (by simp)
    · simp [hp, hp']

theorem eq_of_getD_eq {l l' : List ℕ} (hlen : l.length = l'.length)
    (h : ∀ n : ℕ, l[n]?.getD 0 = l'[n]?.getD 0) : l = l' := by
  apply ext_getElem hlen
  intro n hn hn'
  simpa [getElem?_eq_getElem, hn, hn'] using h n

end Ids

variable {q : Query} {hs : List Header} {index i deviceNum : ℕ}

theorem searchLoop_eq : searchLoop q hs deviceNum = deviceNum + (idsOf (Counts q) i hs).length := by
  induction hs generalizing i deviceNum with
  | nil => rfl
  | cons h hs ih =>
    rw [searchLoop, idsOf, ih (i := i + 1)]
    split_ifs
    · rw [length_cons]
      omega
    · rfl

theorem findLoop_eq (hindex : index < 2 ^ 32) (hn : deviceNum ≤ index) :
    findLoop q index hs i deviceNum = (idsOf (Counts q) i hs)[index - deviceNum]?.getD 0 := by
  induction hs generalizing i deviceNum with
  | nil => rfl
  | cons h hs ih =>
    rw [findLoop, idsOf]
    split_ifs with hc heq
    · rw [heq, Nat.sub_self]
      rfl
    · rw [Nat.mod_eq_of_lt (by omega), ih (by omega), show index - deviceNum = index - (deviceNum + 1) + 1 by omega]
      rfl
    · exact ih hn

theorem findLoop_of_le (hindex : 2 ^ 32 ≤ index) (hn : deviceNum < 2 ^ 32) :
    findLoop q index hs i deviceNum = 0 := by
  induction hs generalizing i deviceNum with
  | nil => rfl
  | cons h hs ih =>
    rw [findLoop, if_neg (show index ≠ deviceNum by omega)]
    split_ifs
    · exact ih (Nat.mod_lt _ (by decide))
    · exact ih hn

theorem deviceFind_eq {devices : List Header} :
    deviceFind devices q index = if index < 2 ^ 32 then (idsOf (Counts q) 1 devices)[index]?.getD 0 else 0 := by
  split_ifs with h
  · exact findLoop_eq h (Nat.zero_le _)
  · exact findLoop_of_le (Nat.le_of_not_lt h) (by decide)

/-- The search returns the ids of the devices that match, exactly if no device has fields that take
values that were not specified for specified ones, and the counter does not wrap. -/
theorem device_find_iff (devices : List Header) (q : Query) :
    (deviceSearch devices q = (matching devices q).length ∧
        ∀ index : ℕ, deviceFind devices q index = (matching devices q)[index]?.getD 0) ↔
      (∀ h ∈ devices, Unambiguous q h) ∧ (matching devices q).length ≤ 2 ^ 32 := by
  simp only [← unambiguous_iff, ← idsOf_inj (i := 1), deviceFind_eq]
  rw [deviceSearch, searchLoop_eq, Nat.zero_add]
  constructor
  · rintro ⟨hlen, hfind⟩
    have hle : (matching devices q).length ≤ 2 ^ 32 := by
      by_contra hlt
      have hzero := hfind (2 ^ 32)
      rw [if_neg (Nat.lt_irrefl _), getElem?_eq_getElem (by omega), Option.getD_some] at hzero
      have := le_of_mem_idsOf (getElem_mem (l := matching devices q) (n := 2 ^ 32) (by omega))
      omega
    refine ⟨eq_of_getD_eq hlen fun n => ?_, hle⟩
    rw [← matching, ← hfind n]
    split_ifs with hn
    · rfl
    · rw [getElem?_eq_none (by omega)]
      rfl
  · rintro ⟨heq, hle⟩
    rw [heq]
    refine ⟨rfl, fun index => ?_⟩
    split_ifs with hindex
    · rfl
    · rw [getElem?_eq_none (Nat.le_trans hle (Nat.le_of_not_lt hindex))]
      rfl

/-- A device with the device id `0xffff` is found for a vendor that is not its own. -/
theorem wrong_device_is_found :
    matching [⟨0x1234, 0xffff, 0, 0, 0⟩] ⟨0x8086, noParameter, noParameter, noParameter, noParameter⟩ = [] ∧
    deviceFind [⟨0x1234, 0xffff, 0, 0, 0⟩] ⟨0x8086, noParameter, noParameter, noParameter, noParameter⟩ 0 = 1 := by
  decide

end Kot.Pci.Search
