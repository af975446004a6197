import Mathlib.Algebra.GroupWithZero.Nat

/-! What the kernel modules share: 64-bit unsigned arithmetic on natural numbers, the
page size, the ways a call can fail to return, and the contract of `malloc`. -/
namespace Kot.Kernel

/-- Addition of `uint64_t` and `size_t` values. -/
def wadd (a b : ℕ) : ℕ := (a + b) % 2 ^ 64

/-- Subtraction of `uint64_t` and `size_t` values. -/
def wsub (a b : ℕ) : ℕ := (a + 2 ^ 64 - b) % 2 ^ 64

theorem wadd_of_lt {a b : ℕ} (h : a + b < 2 ^ 64) : wadd a b = a + b := Nat.mod_eq_of_lt h

theorem wsub_of_le {a b : ℕ} (ha : a < 2 ^ 64) (h : b ≤ a) : wsub a b = a - b := by
  unfold wsub
  omega

def pageSize : ℕ := 0x1000

/-- `DIV_ROUNDUP(value, PAGE_SIZE)` on a `size_t`. -/
def divRoundupPage (value : ℕ) : ℕ := wadd value (pageSize - 1) / pageSize

/-- A call that does not return. -/
inductive Fault
  /-- a failed `assert` or a call of `panic` -/
  | panic
  /-- an access through a null pointer -/
  | nullDereference
  /-- a loop that has not ended after as many turns as the data allows -/
  | endlessLoop
  /-- an access outside the object that the code means to access -/
  | strayAccess
  /-- an attempt to acquire a lock that the caller holds -/
  | deadlock
  deriving DecidableEq, Repr

theorem bind_eq_ok {α β : Type} {x : Except Fault α} {f : α → Except Fault β} {b : β}
    (h : x >>= f = .ok b) : ∃ a, x = .ok a ∧ f a = .ok b := by
  cases x with
  | error e => cases h
  | ok a => exact ⟨a, rfl, h⟩

@[simp] theorem ok_bind {α β : Type} (a : α) (f : α → Except Fault β) :
    (Except.ok a >>= f) = f a := rfl

/-- All live blocks together are smaller than the address space of the kernel. -/
def heapLimit : ℕ := 2 ^ 47

/-- The bytes of a block that nothing has been written to yet. -/
def freshBytes (stale : ℕ → UInt8) (size : ℕ) : List UInt8 := (List.range size).map stale

@[simp] theorem freshBytes_length (stale : ℕ → UInt8) (size : ℕ) :
    (freshBytes stale size).length = size :=
  (List.length_map ..).trans List.length_range

/-- Addresses of heap blocks; a null pointer is `none`. -/
abbrev Ptr := ℕ

/-- What the modules above the heap rely on: `malloc` never returns a block that is
still live. The argument lists the blocks handed out and not yet freed. -/
structure Allocator where
  malloc : List Ptr → Ptr
  fresh : ∀ live, malloc live ∉ live

/-- An allocator that hands out the number above all live blocks. -/
def Allocator.above : Allocator where
  malloc live := live.foldr max 0 + 1
  fresh live h := by
    have hle : ∀ (l : List Ptr) (a : Ptr), a ∈ l → a ≤ l.foldr max 0 := by
      intro l
      induction l with
      | nil => simp
      | cons b l ih =>
        intro a ha
        rcases List.mem_cons.mp ha with rfl | ha
        · exact Nat.le_max_left _ _
        · exact Nat.le_trans (ih a ha) (Nat.le_max_right _ _)
    exact Nat.not_succ_le_self _ (hle live _ h)

end Kot.Kernel
