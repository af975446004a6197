import Mathlib.Algebra.GroupWithZero.Nat
import Mathlib.Data.List.Nodup

/-! Walks along a successor function: the places that a walk passes, where it arrives, and what
changes of the successors it does not see. -/
namespace Kot.Lib

variable {α : Type*} {next next' : α → α} {stop : α → Prop} {c d e z : α} {l m : List α}

/-- From `c` the links lead through the places `l`, none of which is a stop, and arrive at `d`. -/
def Walk (next : α → α) (stop : α → Prop) : α → List α → α → Prop
  | c, [], d => c = d
  | c, a :: l, d => c = a ∧ ¬ stop a ∧ Walk next stop (next a) l d

@[simp] theorem walk_nil : Walk next stop c [] d ↔ c = d := Iff.rfl

@[simp] theorem walk_cons {a : α} :
    Walk next stop c (a :: l) d ↔ c = a ∧ ¬ stop a ∧ Walk next stop (next a) l d := Iff.rfl

theorem walk_append :
    Walk next stop c (l ++ m) d ↔ ∃ e, Walk next stop c l e ∧ Walk next stop e m d := by
  induction l generalizing c with
  | nil => simp
  | cons a l ih => simp only [List.cons_append, walk_cons, ih]; grind

namespace Walk

theorem congr (h : Walk next stop c l d) (hn : ∀ a ∈ l, next' a = next a) :
    Walk next' stop c l d := by
  induction l generalizing c with
  | nil => exact h
  | cons a l ih =>
    obtain ⟨hc, ha, h⟩ := h
    refine ⟨hc, ha, ?_⟩
    rw [hn a (by simp)]
    exact ih h fun b hb => hn b (by simp [hb])

theorem redirect (h : Walk next stop c (l ++ [z]) d) (hn : ∀ a ∈ l, next' a = next a) :
    Walk next' stop c (l ++ [z]) (next' z) := by
  obtain ⟨e, hl, he, hz, _⟩ := walk_append.mp h
  exact walk_append.mpr ⟨e, hl.congr hn, he, hz, rfl⟩

theorem unique (h : Walk next stop c l d) (hd : stop d) (h' : Walk next stop c m e) (he : stop e) :
    l = m := by
  induction l generalizing c m with
  | nil =>
    cases m with
    | nil => rfl
    | cons b m =>
      obtain rfl : c = d := h
      obtain ⟨rfl, hb, _⟩ := h'
      exact absurd hd hb
  | cons a l ih =>
    obtain ⟨rfl, ha, h⟩ := h
    cases m with
    | nil =>
      obtain rfl : c = e := h'
      exact absurd he ha
    | cons b m =>
      obtain ⟨rfl, _, h'⟩ := h'
      rw [ih h h']

theorem nodup (h : Walk next stop c l d) (hd : stop d) : l.Nodup := by
  induction l generalizing c with
  | nil => exact List.nodup_nil
  | cons a l ih =>
    refine List.nodup_cons.mpr ⟨fun ha => ?_, ih h.2.2⟩
    obtain ⟨l1, l2, rfl⟩ := List.append_of_mem ha
    obtain ⟨e, _, he⟩ := walk_append.mp h.2.2
    obtain rfl : e = a := he.1
    have hself : Walk next stop e (e :: (l1 ++ e :: l2)) d := ⟨rfl, h.2.1, h.2.2⟩
    have := congrArg List.length (he.unique hd hself hd)
    simp at this
    omega

end Walk

end Kot.Lib
