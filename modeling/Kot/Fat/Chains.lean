import Kot.Fat.Changes
import Mathlib.Data.List.Perm.Subperm

/-! Chains of clusters: reading along one, freeing one, and writing along one with fresh clusters
behind its end. -/
namespace Kot.Fat

open Kot.Kernel Kot.Lib Kot.Lib.Program List

variable {ctx : Context} {v v' : Volume} {c d : ℕ} {l : List ℕ}

/-- The links from `c` lead through the data clusters `l` to an end mark. -/
def Chain (ctx : Context) (next : ℕ → ℕ) (c : ℕ) (l : List ℕ) : Prop :=
  (∃ d, Walk next IsEnd c l d ∧ 0xFFFFFF8 ≤ d) ∧ ∀ a ∈ l, ctx.IsData a

def Volume.content (v : Volume) (ctx : Context) (l : List ℕ) : List UInt8 :=
  l.flatMap (v.clusterBytes ctx)

@[simp] theorem content_nil : v.content ctx [] = [] := rfl

@[simp] theorem content_cons (a : ℕ) : v.content ctx (a :: l) = v.clusterBytes ctx a ++ v.content ctx l :=
  flatMap_cons

theorem content_append (l m : List ℕ) :
    v.content ctx (l ++ m) = v.content ctx l ++ v.content ctx m := flatMap_append

theorem content_congr (h : ∀ a ∈ l, v'.clusterBytes ctx a = v.clusterBytes ctx a) :
    v'.content ctx l = v.content ctx l := flatMap_congr h

theorem content_length (h : ∀ a ∈ l, ctx.IsData a) :
    (v.content ctx l).length = l.length * ctx.clusterSize := by
  induction l with
  | nil => simp
  | cons a l ih =>
    rw [content_cons, length_append, Volume.clusterBytes_length (h a (by simp)),
      ih fun b hb => h b (by simp [hb]), length_cons, Nat.add_mul]
    omega

theorem isEnd_of_le {d : ℕ} (h : 0xFFFFFF8 ≤ d) : IsEnd d := .inl h

namespace Chain

variable {next next' : ℕ → ℕ}

section
variable (h : Chain ctx next c l)
include h

theorem nodup : l.Nodup := by
  obtain ⟨⟨d, hw, hd⟩, _⟩ := h
  exact hw.nodup (isEnd_of_le hd)

theorem next_ne_zero : ∀ a ∈ l, next a ≠ 0 := by
  obtain ⟨⟨d, hw, hd⟩, hdata⟩ := h
  intro a ha
  obtain ⟨l1, l2, rfl⟩ := append_of_mem ha
  obtain ⟨e, _, he⟩ := walk_append.mp hw
  cases l2 with
  | nil =>
    obtain rfl : next a = d := he.2.2
    omega
  | cons b l2 =>
    rw [he.2.2.1]
    have := (hdata b (by simp)).1
    omega

theorem congr (hn : ∀ a ∈ l, next' a = next a) : Chain ctx next' c l := by
  obtain ⟨⟨d, hw, hd⟩, hdata⟩ := h
  exact ⟨⟨d, hw.congr hn, hd⟩, hdata⟩

theorem unique {l' : List ℕ} (h' : Chain ctx next c l') : l = l' := by
  obtain ⟨⟨d, hw, hd⟩, _⟩ := h
  obtain ⟨⟨d', hw', hd'⟩, _⟩ := h'
  exact hw.unique (isEnd_of_le hd) hw' (isEnd_of_le hd')

end

theorem tail {b : ℕ} (h : Chain ctx next c (b :: l)) : Chain ctx next (next b) l := by
  obtain ⟨⟨d, hw, hd⟩, hdata⟩ := h
  exact ⟨⟨d, hw.2.2, hd⟩, fun a ha => hdata a (by simp [ha])⟩

theorem length_lt (h : Chain ctx next c l) (hs : ctx.Sound) : l.length < loopBound := by
  have hsub : l ⊆ List.range' 2 ctx.dataClusters := fun a ha => mem_dataClusters.mpr (h.2 a ha)
  have hle := (subperm_of_subset h.nodup hsub).length_le
  have hlt := hs.entries_lt
  rw [length_range'] at hle
  unfold loopBound
  omega

end Chain

theorem getNextCluster_eq (h : c < ctx.fatEntryCount) :
    fatGetNextCluster ctx c v = .ok (v.next c, v) := by
  rw [fatGetNextCluster, if_pos h]
  rfl

/-- The links after the clusters of a list are freed. -/
def release (next : ℕ → ℕ) (l : List ℕ) : ℕ → ℕ := fun c => if c ∈ l then 0 else next c

theorem release_cons {next : ℕ → ℕ} {a : ℕ} :
    release (Function.update next a 0) l = release next (a :: l) := by
  funext x
  simp only [release, mem_cons]
  by_cases hx : x = a
  · subst hx
    simp
  · simp [hx]

theorem freeLoop_eq (hs : ctx.Sound) {turns : ℕ} (h : Chain ctx v.next c l) (ht : l.length < turns) :
    ∃ v', freeLoop ctx turns c v = .ok ((), v') ∧
      Becomes ctx v v' (release v.next l) (v.clusterBytes ctx) v.nextFreeCluster := by
  induction turns generalizing c l v with
  | zero => omega
  | succ turns ih =>
    rw [freeLoop]
    cases l with
    | nil =>
      obtain ⟨⟨d, hw, hd⟩, _⟩ := h
      obtain rfl : c = d := hw
      rw [if_pos (isEnd_of_le hd)]
      have hrel : release v.next [] = v.next := by funext x; simp [release]
      rw [hrel]
      exact ⟨v, rfl, .refl ctx v⟩
    | cons b l =>
      obtain ⟨rfl, hb⟩ : c = b ∧ ctx.IsData b := ⟨h.1.choose_spec.1.1, h.2 b (by simp)⟩
      have hnd := nodup_cons.mp h.nodup
      obtain ⟨v1, h1, hv1⟩ := freeCluster_becomes hs hb (h.next_ne_zero c (by simp))
      have hrest : Chain ctx v1.next (v.next c) l := by
        refine h.tail.congr fun a ha => ?_
        rw [hv1.next, Function.update_of_ne (ne_of_mem_of_not_mem ha hnd.1)]
      obtain ⟨v2, h2, hv2⟩ := ih hrest (by simpa using ht)
      refine ⟨v2, ?_, ?_⟩
      · rw [if_neg (hs.not_isEnd hb), bind_of_ok (getNextCluster_eq (hs.lt_fatEntryCount hb)),
          bind_of_ok h1, h2]
      · have := hv1.trans hv2
        rwa [hv1.next, hv1.data, hv1.hint, release_cons] at this

theorem freeAllFollowingClusters_eq (hs : ctx.Sound) (h : Chain ctx v.next c l) :
    ∃ v', fatFreeAllFollowingClusters ctx c v = .ok ((), v') ∧
      Becomes ctx v v' (release v.next l) (v.clusterBytes ctx) v.nextFreeCluster :=
  freeLoop_eq hs h (h.length_lt hs)

end Kot.Fat
