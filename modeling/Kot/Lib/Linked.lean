import Mathlib.Algebra.GroupWithZero.Nat
import Mathlib.Data.List.Nodup
import Mathlib.Data.List.Chain

/-! Doubly linked chains of nodes, read off two link functions. A chain is described
by the list of its nodes, the node `p` that its first `last` link names and the node
`q` that its final `next` link names. Null-terminated lists have `p = q = none`;
circular lists have `q` equal to the head. -/
namespace Kot.Lib
open List

variable {α : Type*} {next last next' last' : α → Option α} {p q p' q' : Option α}

/-- Every node of the list links back to its predecessor and forward to its successor. -/
def Linked (next last : α → Option α) : Option α → List α → Option α → Prop
  | _, [], _ => True
  | p, a :: l, q => last a = p ∧ next a = l.head?.or q ∧ Linked next last (some a) l q

@[simp] theorem linked_nil : Linked next last p [] q := trivial

variable {a c : α} {l l1 l2 : List α}

@[simp] theorem linked_cons :
    Linked next last p (a :: l) q ↔
      last a = p ∧ next a = l.head?.or q ∧ Linked next last (some a) l q := Iff.rfl

theorem linked_append : Linked next last p (l1 ++ l2) q ↔
      Linked next last p l1 (l2.head?.or q) ∧ Linked next last (l1.getLast?.or p) l2 q := by
  induction l1 generalizing p with
  | nil => simp
  | cons a l ih =>
    have hh : (l ++ l2).head?.or q = l.head?.or (l2.head?.or q) := by
      cases l <;> simp
    have hl : (a :: l).getLast?.or p = l.getLast?.or (some a) := by
      rw [getLast?_cons]
      cases l.getLast? <;> rfl
    simp only [cons_append, linked_cons, ih, hh, hl, and_assoc]

section
variable (h : Linked next last p l q)
include h

theorem Linked.congr (hn : ∀ a ∈ l, next' a = next a) (hl : ∀ a ∈ l, last' a = last a) :
    Linked next' last' p l q := by
  induction l generalizing p with
  | nil => trivial
  | cons a l ih =>
    obtain ⟨ha, hx, ht⟩ := h
    refine ⟨(hl a (by simp)).trans ha, (hn a (by simp)).trans hx, ?_⟩
    exact ih ht (fun b hb => hn b (by simp [hb])) (fun b hb => hl b (by simp [hb]))

theorem Linked.relink (hd : l.Nodup) (hn : ∀ a ∈ l, l.getLast? ≠ some a → next' a = next a)
    (hz : ∀ z, l.getLast? = some z → next' z = q')
    (hl : ∀ a ∈ l, l.head? ≠ some a → last' a = last a)
    (ha : ∀ a, l.head? = some a → last' a = p') : Linked next' last' p' l q' := by
  induction l generalizing p p' with
  | nil => trivial
  | cons a l ih =>
    obtain ⟨-, hx, ht⟩ := h
    obtain ⟨hal, hd⟩ := nodup_cons.mp hd
    have hne : ∀ b ∈ l, a ≠ b := fun b hb hab => hal (hab ▸ hb)
    refine ⟨ha a rfl, ?_, ih ht hd ?_ ?_ ?_ ?_⟩
    · cases l with
      | nil => simpa using hz a rfl
      | cons b l =>
        have hlast : (a :: b :: l).getLast? ≠ some a := by
          rw [getLast?_cons_cons]
          exact fun h => hal (mem_of_getLast? h)
        simpa using (hn a (by simp) hlast).trans hx
    · intro b hb hbl
      refine hn b (by simp [hb]) fun h => hbl ?_
      obtain ⟨c, l, rfl⟩ := exists_cons_of_ne_nil (ne_nil_of_mem hb)
      rwa [getLast?_cons_cons] at h
    · intro z hzl
      refine hz z ?_
      obtain ⟨c, l, rfl⟩ := exists_cons_of_ne_nil (ne_nil_of_mem (mem_of_getLast? hzl))
      rwa [getLast?_cons_cons]
    · intro b hb _
      exact hl b (by simp [hb]) (by simpa using hne b hb)
    · intro c hc
      have hcl := mem_of_mem_head? hc
      rw [hl c (by simp [hcl]) (by simpa using hne c hcl)]
      cases l with
      | nil => simp at hc
      | cons d l =>
        obtain rfl : d = c := by simpa using hc
        exact ht.1

theorem Linked.relink_left [DecidableEq α] (hd : l.Nodup) (hn : ∀ a ∈ l, next' a = next a)
    (hl : ∀ a ∈ l, last' a = if l.head? = some a then p' else last a) :
    Linked next' last' p' l q := by
  refine h.relink hd (fun a ha _ => hn a ha) ?_ ?_ ?_
  · intro z hz
    rw [hn z (mem_of_getLast? hz)]
    obtain ⟨m, rfl⟩ := getLast?_eq_some_iff.mp hz
    exact (linked_append.mp h).2.2.1
  · intro a ha hx
    rw [hl a ha, if_neg hx]
  · intro a ha
    rw [hl a (mem_of_mem_head? ha), if_pos ha]

theorem Linked.relink_right [DecidableEq α] (hd : l.Nodup)
    (hn : ∀ a ∈ l, next' a = if l.getLast? = some a then q' else next a)
    (hl : ∀ a ∈ l, last' a = last a) : Linked next' last' p l q' := by
  refine h.relink hd ?_ ?_ (fun a ha _ => hl a ha) ?_
  · intro a ha hx
    rw [hn a ha, if_neg hx]
  · intro z hz
    rw [hn z (mem_of_getLast? hz), if_pos hz]
  · intro a ha
    rw [hl a (mem_of_mem_head? ha)]
    obtain ⟨m, rfl⟩ := head?_eq_some_iff.mp ha
    exact h.1

end

theorem Linked.reseam [DecidableEq α] {q1 p2 : Option α} (h1 : Linked next last p l1 q1)
    (h2 : Linked next last p2 l2 q) (hd : (l1 ++ l2).Nodup)
    (hn : ∀ a ∈ l1 ++ l2, next' a = if l1.getLast? = some a then q' else next a)
    (hl : ∀ a ∈ l1 ++ l2, last' a = if l2.head? = some a then p' else last a) :
    Linked next' last' p l1 q' ∧ Linked next' last' p' l2 q := by
  obtain ⟨hd1, hd2, hd12⟩ := nodup_append.mp hd
  constructor
  · apply h1.relink_right hd1
    · intro a ha
      exact hn a (mem_append_left _ ha)
    · intro a ha
      rw [hl a (mem_append_left _ ha), if_neg]
      exact fun hx => hd12 a ha a (mem_of_mem_head? hx) rfl
  · apply h2.relink_left hd2
    · intro a ha
      rw [hn a (mem_append_right _ ha), if_neg]
      exact fun hx => hd12 a (mem_of_getLast? hx) a ha rfl
    · intro a ha
      exact hl a (mem_append_right _ ha)

/-- A new node goes between two parts of a chain: it links to both neighbours, and the two
links across the seam name it. -/
theorem Linked.insert [DecidableEq α] (h : Linked next last p (l1 ++ l2) q) (hd : (l1 ++ l2).Nodup)
    (hcl : last' c = l1.getLast?.or p) (hcn : next' c = l2.head?.or q)
    (hn : ∀ a ∈ l1 ++ l2, next' a = if l1.getLast? = some a then some c else next a)
    (hl : ∀ a ∈ l1 ++ l2, last' a = if l2.head? = some a then some c else last a) :
    Linked next' last' p (l1 ++ c :: l2) q := by
  obtain ⟨h1, h2⟩ := linked_append.mp h
  obtain ⟨h1, h2⟩ := h1.reseam h2 hd hn hl
  exact linked_append.mpr ⟨h1, hcl, hcn, h2⟩

theorem Linked.remove [DecidableEq α] (h : Linked next last p (l1 ++ c :: l2) q) (hd : (l1 ++ c :: l2).Nodup)
    (hn : ∀ a ∈ l1 ++ l2, next' a = if l1.getLast? = some a then l2.head?.or q else next a)
    (hl : ∀ a ∈ l1 ++ l2, last' a = if l2.head? = some a then l1.getLast?.or p else last a) :
    Linked next' last' p (l1 ++ l2) q := by
  obtain ⟨h1, -, -, h2⟩ := linked_append.mp h
  exact linked_append.mpr (h1.reseam h2 (hd.sublist ((sublist_cons_self c l2).append_left l1)) hn hl)

theorem Linked.mid (h : Linked next last p (l1 ++ a :: l2) q) :
    last a = l1.getLast?.or p ∧ next a = l2.head?.or q := by
  rw [linked_append] at h
  exact ⟨h.2.1, h.2.2.1⟩

theorem Linked.isChain (h : Linked next last p l q) : l.IsChain (fun a b => next a = some b) := by
  induction l generalizing p with
  | nil => exact .nil
  | cons a l ih =>
    cases l with
    | nil => exact .singleton a
    | cons b l => exact .cons_cons (by simpa using h.2.1) (ih h.2.2)

end Kot.Lib
