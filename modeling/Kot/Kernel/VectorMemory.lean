import Kot.Kernel.Vector
import Kot.Lib.Bytes
import Kot.Lib.Run
import Mathlib.Data.List.Basic

/-! The vectors of `lib/vector.c` in memory: blocks of 8-byte cells, the copies between them, and how
far a vector stands for a list. -/
namespace Kot.Kernel

open Kot.Lib List

variable {α : Type}

/-- `vector_t`: the cells of the block behind `items`, and the length. -/
structure VectorT (α : Type) where
  items : Option (List α)
  length : ℕ
  deriving DecidableEq

namespace VectorT

/-- `malloc` of `size` bytes; requests that no address space has room for are not answered. -/
def malloc (fresh : ℕ → α) (size : ℕ) : Except Fault (List α) :=
  if size ≤ heapLimit then .ok ((List.range (size / 8)).map fresh) else .error .panic

/-- The cells of a block from `start` on. -/
def load (cells : List α) (start count : ℕ) : Except Fault (List α) :=
  if start + count ≤ cells.length then .ok ((cells.drop start).take count) else .error .strayAccess

def store (cells : List α) (start : ℕ) (values : List α) : Except Fault (List α) :=
  if start + values.length ≤ cells.length then .ok (splice cells start values)
  else .error .strayAccess

/-- `memcpy` of `size` bytes from the cell `start` of a block to the first cells of another. -/
def memcpy (destination source : List α) (start size : ℕ) : Except Fault (List α) :=
  if size = 0 then .ok destination
  else do
    let values ← load source start (size / 8)
    store destination 0 values

section

variable (fresh : ℕ → α) (v : VectorT α)

def expand (items : List α) (len : ℕ) : Except Fault (VectorT α) := do
  let temp ← malloc fresh (wadd v.length len * 8 % 2 ^ 64)
  let temp ← memcpy temp items 0 (v.length * 8 % 2 ^ 64)
  .ok ⟨some temp, wadd v.length len⟩

/-- `vector_push`: the index of the item, and the vector. -/
def push (item : α) : Except Fault (ℕ × VectorT α) :=
  match v.items with
  | none => do
    let items ← malloc fresh 8
    let items ← store items 0 [item]
    .ok (0, ⟨some items, 1⟩)
  | some items => do
    let v ← v.expand fresh items 1
    match v.items with
    | some items =>
      let items ← store items (wsub v.length 1) [item]
      .ok (wsub v.length 1, { v with items := some items })
    | none => .error .nullDereference

/-- `vector_get`. -/
def get (index : ℕ) : Except Fault α :=
  match v.items with
  | some items =>
    match items[index]? with
    | some item => .ok item
    | none => .error .strayAccess
  | none => .error .nullDereference

/-- `vector_set`. -/
def set (index : ℕ) (item : α) : Except Fault (VectorT α) :=
  if index < v.length then
    match v.items with
    | some items => do
      let items ← store items index [item]
      .ok { v with items := some items }
    | none => .error .nullDereference
  else .ok v

def clear : VectorT α := if v.items = none then v else ⟨none, 0⟩

/-- `vector_remove`. The second copy starts at `items + index * 8`, which counts cells, and goes to
the start of the new block. -/
def remove (index : ℕ) : Except Fault (VectorT α) :=
  match v.items with
  | some items =>
    if index < v.length then
      if v.length = 1 then .ok v.clear
      else do
        let length := wsub v.length 1
        let temp ← malloc fresh (length * 8 % 2 ^ 64)
        let temp ← (if index ≠ 0 then memcpy temp items 0 (index * 8 % 2 ^ 64) else .ok temp)
        let temp ← memcpy temp items (index * 8 % 2 ^ 61) (wsub (length * 8 % 2 ^ 64) (index * 8 % 2 ^ 64))
        .ok ⟨some temp, length⟩
    else .ok v
  | none => .ok v

end

variable {fresh : ℕ → α} {v : VectorT α} {l cells out : List α}

theorem splice_zero_eq : splice cells 0 l = l ++ cells.drop l.length := by
  simp [splice]

theorem splice_all (h : out.length = cells.length) : splice cells 0 out = out := by
  rw [splice_zero_eq, drop_eq_nil_of_le (Nat.le_of_eq h.symm), append_nil]

theorem malloc_eq {n : ℕ} (h : n * 8 ≤ heapLimit) :
    ∃ cells : List α, malloc fresh (n * 8) = .ok cells ∧ cells.length = n := by
  refine ⟨_, if_pos h, ?_⟩
  rw [length_map, length_range, Nat.mul_div_cancel _ (by decide)]

theorem memcpy_eq (cells : List α) {start count : ℕ} (hle : start + count ≤ l.length) (hout : count ≤ cells.length) :
    memcpy cells l start (count * 8) = .ok (splice cells 0 ((l.drop start).take count)) := by
  rw [memcpy]
  split_ifs with hzero
  · obtain rfl : count = 0 := by omega
    rw [take_zero, splice_nil]
  · rw [Nat.mul_div_cancel _ (by decide), load, if_pos hle, ok_bind, store, if_pos]
    rw [length_take, length_drop]
    omega

/-- The vector whose items are the list. -/
def ofList : List α → VectorT α
  | [] => ⟨none, 0⟩
  | l => ⟨some l, l.length⟩

theorem ofList_length : (ofList l).length = l.length := by cases l <;> rfl

theorem ofList_of_ne (h : l ≠ []) : ofList l = ⟨some l, l.length⟩ := by
  cases l with
  | nil => exact absurd rfl h
  | cons a l => rfl

theorem get_ofList {i : ℕ} {x : α} (h : l[i]? = some x) : (ofList l).get i = .ok x := by
  cases l with
  | nil => simp at h
  | cons a l => simp only [ofList, get, h]

theorem set_ofList {i : ℕ} {x : α} : (ofList l).set i x = .ok (ofList (l.set i x)) := by
  rw [set, ofList_length]
  split_ifs with hi
  · have hne : l ≠ [] := length_pos_iff.mp (by omega)
    have hset : splice l i [x] = l.set i x := by
      rw [set_eq_take_append_cons_drop, if_pos hi]
      simp [splice]
    rw [ofList_of_ne hne, ofList_of_ne (by simpa using hne), length_set]
    simp only [store, if_pos (show i + [x].length ≤ l.length from hi), ok_bind, hset]
  · rw [set_eq_of_length_le (by omega)]

theorem push_ofList (hl : l.length * 8 ≤ heapLimit) {x : α} : (ofList l).push fresh x =
      if (l.length + 1) * 8 ≤ heapLimit then .ok (l.length, ofList (l ++ [x])) else .error .panic := by
  have hlimit : heapLimit = 2 ^ 47 := rfl
  cases l with
  | nil => rfl
  | cons a t =>
    set l := a :: t
    have hadd : wadd l.length 1 = l.length + 1 := wadd_of_lt (by omega)
    have hlast : wsub (l.length + 1) 1 = l.length := wsub_of_le (by omega) (by omega)
    have hpush : (ofList l).push fresh x = (⟨some l, l.length⟩ : VectorT α).push fresh x := rfl
    have hexpand : (⟨some l, l.length⟩ : VectorT α).expand fresh l 1 = (do
        let temp ← malloc fresh ((l.length + 1) * 8)
        let temp ← memcpy temp l 0 (l.length * 8)
        .ok ⟨some temp, l.length + 1⟩) := by
      simp only [expand, hadd, Nat.mod_eq_of_lt (show (l.length + 1) * 8 < 2 ^ 64 by omega),
        Nat.mod_eq_of_lt (show l.length * 8 < 2 ^ 64 by omega)]
    rw [hpush]
    simp only [push, hexpand]
    split_ifs with hroom
    · obtain ⟨cells, hmalloc, hcells⟩ := malloc_eq hroom
      have hcopy := memcpy_eq cells (show 0 + l.length ≤ l.length by omega) (by omega)
      rw [drop_zero, take_length, splice_zero_eq] at hcopy
      have hrest : (cells.drop l.length).length = 1 := by rw [length_drop]; omega
      have hstore : store (l ++ cells.drop l.length) l.length [x] = .ok (l ++ [x]) := by
        rw [store, if_pos (Nat.le_of_eq (by rw [length_append, hrest, length_singleton])),
          splice_append_right (Nat.le_refl _), Nat.sub_self,
          splice_all (show [x].length = _ from hrest.symm)]
      have hnew : ofList (l ++ [x]) = ⟨some (l ++ [x]), l.length + 1⟩ := by
        rw [ofList_of_ne (by simp), length_append, length_singleton]
      rw [hmalloc, ok_bind, hcopy, ok_bind, ok_bind, hnew]
      simp only [hlast, hstore, ok_bind]
    · rw [malloc, if_neg hroom]
      rfl

/-- The code in memory does what it does on the list. -/
theorem remove_ofList (hl : l.length * 8 ≤ heapLimit) {i : ℕ} :
    (ofList l).remove fresh i = (vectorRemove l i).map ofList := by
  have hlimit : heapLimit = 2 ^ 47 := rfl
  by_cases hi : i < l.length
  swap
  · rw [vectorRemove, if_neg hi]
    cases l with
    | nil => rfl
    | cons a l => exact if_neg hi
  have hne : l ≠ [] := length_pos_iff.mp (by omega)
  have hremove : (ofList l).remove fresh i = (⟨some l, l.length⟩ : VectorT α).remove fresh i := by
    rw [ofList_of_ne hne]
  rw [vectorRemove, if_pos hi, hremove]
  simp only [remove, if_pos hi]
  by_cases hone : l.length = 1
  · rw [if_pos hone, if_pos hone]
    rfl
  have hsub : wsub l.length 1 = l.length - 1 := wsub_of_le (by omega) (by omega)
  have hcount : wsub ((l.length - 1) * 8) (i * 8) = (l.length - 1 - i) * 8 := by
    rw [wsub_of_le (by omega) (by omega), ← Nat.sub_mul]
  obtain ⟨cells, hmalloc, hcells⟩ := malloc_eq (show (l.length - 1) * 8 ≤ heapLimit by omega)
  have hfirst : (if i ≠ 0 then memcpy cells l 0 (i * 8) else .ok cells) =
      .ok (splice cells 0 (l.take i)) := by
    split_ifs with hzero
    · rw [memcpy_eq cells (by omega) (by omega), drop_zero]
    · obtain rfl : i = 0 := by omega
      rw [take_zero, splice_nil]
  have hsize : (splice cells 0 (l.take i)).length = l.length - 1 := by
    rw [splice_length (by rw [length_take]; omega), hcells]
  have hnew : ∀ n, n + 1 = l.length → ofList (l.take n) = ⟨some (l.take n), l.length - 1⟩ := by
    intro n hn
    rw [ofList_of_ne (length_pos_iff.mp (by rw [length_take]; omega)), length_take,
      Nat.min_eq_left (by omega), ← hn, Nat.add_sub_cancel]
  rw [if_neg hone, if_neg hone, hsub, Nat.mod_eq_of_lt (by omega),
    Nat.mod_eq_of_lt (by omega), Nat.mod_eq_of_lt (by omega),
    hmalloc, ok_bind, hfirst, ok_bind, hcount]
  split_ifs with hzero hlast
  · subst hzero
    rw [memcpy_eq _ (by omega) (by omega), Nat.zero_mul, drop_zero, Nat.sub_zero,
      splice_all (by rw [length_take, hsize]; omega), ok_bind, ← hnew _ (by omega)]
    rfl
  · rw [splice_all (by rw [length_take]; omega), memcpy, if_pos (by omega), ok_bind,
      ← hnew i (by omega)]
    rfl
  · rw [memcpy, if_neg (by omega), Nat.mul_div_cancel _ (by decide), load, if_neg (by omega)]
    rfl

/-- Dropping the last item is dropping the first one when all items are the same. -/
theorem dropLast_eq_tail_iff : l.dropLast = l.tail ↔ ∀ x ∈ l, ∀ y ∈ l, x = y := by
  induction l with
  | nil => simp
  | cons a l ih =>
    cases l with
    | nil => simp
    | cons b l =>
      rw [tail_cons] at ih
      rw [dropLast_cons_of_ne_nil (cons_ne_nil b l), tail_cons, List.cons.injEq, ih]
      constructor
      · rintro ⟨rfl, hall⟩ x hx y hy
        have hmem : ∀ z, z ∈ a :: a :: l → z ∈ a :: l := fun z hz => by simpa using hz
        exact hall x (hmem x hx) y (hmem y hy)
      · intro hall
        refine ⟨hall a (by simp) b (by simp), fun x hx y hy => ?_⟩
        exact hall x (mem_cons_of_mem _ hx) y (mem_cons_of_mem _ hy)

def RemovesOne (l : List α) (i : ℕ) : Prop :=
  l.length ≤ i ∨ i + 1 = l.length ∨ i = 0 ∧ ∀ x ∈ l, ∀ y ∈ l, x = y

theorem vectorRemove_eq_iff {i : ℕ} : vectorRemove l i = .ok (l.eraseIdx i) ↔ RemovesOne l i := by
  rw [RemovesOne, ← dropLast_eq_tail_iff, vectorRemove]
  rcases Nat.lt_or_ge i l.length with hi | hi
  swap
  · rw [if_neg (by omega), eraseIdx_of_length_le hi]
    exact iff_of_true rfl (.inl hi)
  have herase : ∀ h : i + 1 = l.length, l.take i = l.eraseIdx i := by
    intro h
    rw [eraseIdx_eq_take_drop_succ, drop_eq_nil_of_le (by omega), append_nil]
  rw [if_pos hi]
  split_ifs with hone hzero hlast
  · obtain rfl : i = 0 := by omega
    rw [← herase hone.symm]
    exact iff_of_true rfl (.inr (.inl hone.symm))
  · rw [hzero, Except.ok.injEq, eraseIdx_zero, dropLast_eq_take]
    refine ⟨fun h => .inr (.inr ⟨rfl, h⟩), ?_⟩
    rintro (h | h | h)
    · omega
    · omega
    · exact h.2
  · rw [herase (by omega)]
    exact iff_of_true rfl (.inr (.inl (by omega)))
  · refine iff_of_false (fun h => by cases h) ?_
    rintro (h | h | h) <;> omega

inductive Call (α : Type)
  | push (item : α)
  | set (index : ℕ) (item : α)
  | remove (index : ℕ)
  | clear

/-- A call, with the index that a push returns. -/
def call (fresh : ℕ → α) (v : VectorT α) : Call α → Except Fault (Option ℕ × VectorT α)
  | .push item => (v.push fresh item).map fun r => (some r.1, r.2)
  | .set index item => (v.set index item).map fun v => (none, v)
  | .remove index => (v.remove fresh index).map fun v => (none, v)
  | .clear => .ok (none, v.clear)

def listCall (l : List α) : Call α → Option ℕ × List α
  | .push item => (some l.length, l ++ [item])
  | .set index item => (none, l.set index item)
  | .remove index => (none, l.eraseIdx index)
  | .clear => (none, [])

def Shows (v : VectorT α) (l : List α) : Prop :=
  v.length = l.length ∧ ∀ i x, l[i]? = some x → v.get i = .ok x

/-- A call returns what it returns for the list and leaves the vector to stand for it. No access is
outside the blocks, since such an access does not return. -/
def Correct (fresh : ℕ → α) (v : VectorT α) (l : List α) (c : Call α) : Prop :=
  ∃ v', v.call fresh c = .ok ((listCall l c).1, v') ∧ Shows v' (listCall l c).2

/-- A vector next to the list, through a call that returns. The second part of the label is what stands
in the cells of a new block. -/
def Step (s : VectorT α × List α) (q : Call α × (ℕ → α)) (s' : VectorT α × List α) : Prop :=
  (∃ r, s.1.call q.2 q.1 = .ok (r, s'.1)) ∧ s'.2 = (listCall s.2 q.1).2

def Meets (s : VectorT α × List α) (q : Call α × (ℕ → α)) : Prop :=
  ∀ index, q.1 = .remove index → RemovesOne s.2 index

theorem shows_ofList : Shows (ofList l) l := ⟨ofList_length, fun _ _ => get_ofList⟩

theorem Shows.unique {l' : List α} (h : Shows v l) (h' : Shows v l') : l = l' := by
  have hlen := h.1.symm.trans h'.1
  refine ext_getElem hlen fun i hi hi' => ?_
  have hx := h.2 i _ (getElem?_eq_getElem hi)
  exact Except.ok.inj (hx.symm.trans (h'.2 i _ (getElem?_eq_getElem hi')))

/-- A call on the vector of a list gives the vector of the list that it means, or it is a wrong removal. -/
theorem call_ofList (hl : l.length * 8 ≤ heapLimit) {c : Call α}
    (hanswer : (ofList l).call fresh c ≠ .error .panic)
    (hm : ∀ index, c = .remove index → RemovesOne l index) :
    (ofList l).call fresh c = .ok ((listCall l c).1, ofList (listCall l c).2) ∧
      (listCall l c).2.length * 8 ≤ heapLimit := by
  cases c with
  | push item =>
    rw [call, push_ofList hl] at *
    split_ifs at * with hroom
    · exact ⟨rfl, by simpa [listCall] using hroom⟩
    · exact absurd rfl hanswer
  | set index item =>
    rw [call, set_ofList]
    exact ⟨rfl, by simpa [listCall] using hl⟩
  | remove index =>
    rw [call, remove_ofList hl, vectorRemove_eq_iff.mpr (hm index rfl)]
    have hle := length_eraseIdx_le l index
    exact ⟨rfl, Nat.le_trans (Nat.mul_le_mul_right 8 hle) hl⟩
  | clear =>
    cases l <;> exact ⟨rfl, Nat.zero_le _⟩

theorem removesOne_of_correct (hl : l.length * 8 ≤ heapLimit) {i : ℕ}
    (h : Correct fresh (ofList l) l (.remove i)) : RemovesOne l i := by
  obtain ⟨v, hcall, hshows⟩ := h
  refine vectorRemove_eq_iff.mp ?_
  rw [call, remove_ofList hl] at hcall
  cases hlist : vectorRemove l i with
  | error f =>
    rw [hlist] at hcall
    cases hcall
  | ok l' =>
    rw [hlist] at hcall
    obtain rfl : ofList l' = v := congrArg Prod.snd (Except.ok.inj hcall)
    rw [shows_ofList.unique hshows]
    rfl

/-- A vector stands for its list through every run whose removals are right, and the next call that
`malloc` has room for is right exactly when it is of this kind too. -/
theorem vector_refines_iff {α : Type} (calls : List (Call α × (ℕ → α))) (v : VectorT α) (l : List α)
    (hrun : Run (Guarded Step Meets) (⟨none, 0⟩, []) calls (v, l)) :
    Shows v l ∧ ∀ c fresh, v.call fresh c ≠ .error .panic →
      (Correct fresh v l c ↔ Meets (v, l) (c, fresh)) := by
  obtain ⟨rfl, hl⟩ : v = ofList l ∧ l.length * 8 ≤ heapLimit := by
    refine hrun.invariant (P := fun s => s.1 = ofList s.2 ∧ s.2.length * 8 ≤ heapLimit)
      ⟨rfl, Nat.zero_le _⟩ ?_
    rintro ⟨v, l⟩ ⟨c, fresh⟩ ⟨v', l'⟩ ⟨hv, hl⟩ ⟨⟨⟨r, hcall⟩, hl'⟩, hm⟩
    obtain rfl : v = ofList l := hv
    obtain rfl : l' = (listCall l c).2 := hl'
    obtain ⟨hw, hsize⟩ := call_ofList hl (fun herror => nomatch herror.symm.trans hcall) hm
    exact ⟨congrArg Prod.snd (Except.ok.inj (hcall.symm.trans hw)), hsize⟩
  refine ⟨shows_ofList, fun c fresh hanswer => ⟨fun hc index hindex => ?_, fun hm => ?_⟩⟩
  · obtain rfl : c = .remove index := hindex
    exact removesOne_of_correct hl hc
  · exact ⟨_, (call_ofList hl hanswer hm).1, shows_ofList⟩

def callBoth (s : VectorT ℕ × List ℕ) (q : Call ℕ × (ℕ → ℕ)) : Except Fault (VectorT ℕ × List ℕ) :=
  (s.1.call q.2 q.1).map fun r => (r.2, (listCall s.2 q.1).2)

theorem step_of_callBoth {s s' : VectorT ℕ × List ℕ} {q : Call ℕ × (ℕ → ℕ)}
    (h : callBoth s q = .ok s') : Step s q s' := by
  cases hcall : s.1.call q.2 q.1 with
  | error f => rw [callBoth, hcall] at h; cases h
  | ok r =>
    rw [callBoth, hcall] at h
    cases h
    exact ⟨⟨r.1, hcall⟩, rfl⟩

/-- A call whose new block holds zeros. -/
def zeroed (c : Call ℕ) : Call ℕ × (ℕ → ℕ) := (c, fun _ => 0)

theorem step_push_one : Step (⟨none, 0⟩, []) (zeroed (.push 1)) (⟨some [1], 1⟩, [1]) :=
  step_of_callBoth (by decide)

theorem step_push_two : Step (⟨some [1], 1⟩, [1]) (zeroed (.push 2)) (⟨some [1, 2], 2⟩, [1, 2]) :=
  step_of_callBoth (by decide)

/-- Two items of which the last one is removed. -/
theorem vector_refines_last : Run (Guarded Step Meets) (⟨none, 0⟩, [])
    [zeroed (.push 1), zeroed (.push 2), zeroed (.remove 1)] (⟨some [1], 1⟩, [1]) ∧
      Shows ⟨some [1], 1⟩ [1] := by
  have hrun : Run (Guarded Step Meets) (⟨none, 0⟩, [])
      [zeroed (.push 1), zeroed (.push 2), zeroed (.remove 1)] (⟨some [1], 1⟩, [1]) := by
    have hthird : Step (⟨some [1, 2], 2⟩, [1, 2]) (zeroed (.remove 1)) (⟨some [1], 1⟩, [1]) :=
      step_of_callBoth (by decide)
    refine .cons ⟨step_push_one, nofun⟩ (.cons ⟨step_push_two, nofun⟩ (.cons ⟨hthird, ?_⟩ .nil))
    intro index hindex
    obtain rfl : 1 = index := Call.remove.inj hindex
    exact .inr (.inl rfl)
  exact ⟨hrun, (vector_refines_iff _ _ [1] hrun).1⟩

/-- Of two items the first one is removed, and the other one is gone; of three items the one in the
middle is removed, and the copy reads behind the block. -/
theorem vector_remove_wrong :
    (∃ v, Run Step (⟨none, 0⟩, []) [zeroed (.push 1), zeroed (.push 2), zeroed (.remove 0)] (v, [2]) ∧
      v.get 0 = .ok 1) ∧
    ∃ v, Run Step (⟨none, 0⟩, []) [zeroed (.push 1), zeroed (.push 2), zeroed (.push 3)]
        (v, [1, 2, 3]) ∧ v.remove (fun _ => 0) 1 = .error .strayAccess := by
  have hremove : Step (⟨some [1, 2], 2⟩, [1, 2]) (zeroed (.remove 0)) (⟨some [1], 1⟩, [2]) :=
    step_of_callBoth (by decide)
  have hthird : Step (⟨some [1, 2], 2⟩, [1, 2]) (zeroed (.push 3)) (⟨some [1, 2, 3], 3⟩, [1, 2, 3]) :=
    step_of_callBoth (by decide)
  exact ⟨⟨_, .cons step_push_one (.cons step_push_two (.cons hremove .nil)), rfl⟩,
    _, .cons step_push_one (.cons step_push_two (.cons hthird .nil)), by decide⟩

end VectorT

end Kot.Kernel
