import Mathlib.Tactic.SplitIfs
import Kot.Kernel.Machine

/-! The vectors of `lib/vector.c`, as the list of their items. -/
namespace Kot.Kernel

variable {α : Type*}

def vectorPush (v : List α) (item : α) : List α := v ++ [item]

def vectorSet (v : List α) (index : ℕ) (item : α) : List α := v.set index item

/-- The second copy starts at item `8 * index`, where the code means byte `8 * index`, and goes
to the start of the new items. It copies nothing when the last item is removed and is the only
copy when the first one is; in between it reads behind the items. -/
def vectorRemove (v : List α) (index : ℕ) : Except Fault (List α) :=
  if index < v.length then
    if v.length = 1 then .ok []
    else if index = 0 then .ok (v.take (v.length - 1))
    else if index = v.length - 1 then .ok (v.take index)
    else .error .strayAccess
  else .ok v

theorem vectorRemove_ok {v v' : List α} {index : ℕ} (hi : index < v.length)
    (h : vectorRemove v index = .ok v') : v' = v.dropLast := by
  unfold vectorRemove at h
  rw [if_pos hi] at h
  rw [List.dropLast_eq_take]
  split_ifs at h with h1 h2 h3
  · cases h
    simp [h1]
  · exact (Except.ok.inj h).symm
  · rw [← Except.ok.inj h, h3]

theorem vectorRemove_ok_last {v v' : List α} {x : α} {index : ℕ} (hi : index + 1 = v.length)
    (hx : v[index]? = some x) (h : vectorRemove v index = .ok v') : v = v' ++ [x] := by
  rw [vectorRemove_ok (by omega) h]
  have hlast : v.getLast? = some x := by
    rw [List.getLast?_eq_getElem?, ← hi]
    exact hx
  obtain ⟨l, rfl⟩ := List.getLast?_eq_some_iff.mp hlast
  rw [List.dropLast_concat]

theorem vectorRemove_last (v : List α) (x : α) : vectorRemove (v ++ [x]) v.length = .ok v := by
  unfold vectorRemove
  rcases v with _ | ⟨a, v⟩ <;> simp

end Kot.Kernel
