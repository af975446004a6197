import Mathlib.Algebra.GroupWithZero.Nat
import Mathlib.Data.List.Pairwise
import Mathlib.Order.Nat

/-! The maximal runs of a predicate on the natural numbers, as a list of intervals with a
gap between any two. Growing or shrinking the predicate by an interval rewrites one or two
entries of the list. -/
namespace Kot.Lib

/-- The numbers `start, …, start + count - 1`. -/
structure Interval where
  start : ℕ
  count : ℕ
  deriving DecidableEq, Repr

namespace Interval

def stop (r : Interval) : ℕ := r.start + r.count

instance : Membership ℕ Interval := ⟨fun r i => r.start ≤ i ∧ i < r.stop⟩

theorem mem_iff {r : Interval} {i : ℕ} : i ∈ r ↔ r.start ≤ i ∧ i < r.stop := Iff.rfl

instance (r : Interval) (i : ℕ) : Decidable (i ∈ r) :=
  inferInstanceAs (Decidable (r.start ≤ i ∧ i < r.stop))

/-- Neither overlapping nor touching. -/
def Apart (r q : Interval) : Prop := r.stop < q.start ∨ q.stop < r.start

theorem Apart.symm {r q : Interval} (h : Apart r q) : Apart q r := Or.symm h

end Interval

/-- An interval on which `P` holds and which cannot be extended. -/
structure MaximalRun (P : ℕ → Prop) (r : Interval) : Prop where
  pos : 0 < r.count
  all : ∀ i ∈ r, P i
  before : ∀ i, i + 1 = r.start → ¬ P i
  after : ¬ P r.stop

/-- The list holds the runs of `P`, with a gap between any two. -/
structure Runs (P : ℕ → Prop) (rs : List Interval) : Prop where
  pos : ∀ r ∈ rs, 0 < r.count
  apart : rs.Pairwise Interval.Apart
  covers : ∀ i, P i ↔ ∃ r ∈ rs, i ∈ r

variable {P P' : ℕ → Prop} {rs l1 l2 : List Interval} {r q r' : Interval} {i n : ℕ}

open Interval

section
variable (h : Runs P rs)
include h

theorem Runs.apart_of_ne (hr : r ∈ rs) (hq : q ∈ rs) (hne : r ≠ q) : Apart r q := by
  have : Std.Symm Apart := ⟨fun _ _ => Apart.symm⟩
  exact h.apart.forall hr hq hne

theorem Runs.eq_of_mem (hr : r ∈ rs) (hq : q ∈ rs) (hir : i ∈ r) (hiq : i ∈ q) : r = q := by
  by_contra hne
  have := h.apart_of_ne hr hq hne
  simp only [Apart, mem_iff] at *
  omega

theorem Runs.all (hr : r ∈ rs) (hi : i ∈ r) : P i := (h.covers i).mpr ⟨r, hr, hi⟩

theorem Runs.start_mem (hr : r ∈ rs) : r.start ∈ r := by
  have := h.pos r hr
  simp only [mem_iff, stop]
  omega

theorem Runs.starts_nodup : (rs.map start).Nodup := by
  refine List.pairwise_map.mpr (h.apart.imp_of_mem ?_)
  intro a b ha hb hab
  simp only [Apart, stop] at hab
  omega

theorem Runs.after (hr : r ∈ rs) : ¬ P r.stop := by
  intro hp
  obtain ⟨q, hq, hm⟩ := (h.covers _).mp hp
  by_cases he : r = q
  · subst he
    exact absurd hm.2 (lt_irrefl _)
  · have := h.apart_of_ne hr hq he
    simp only [Apart, mem_iff, stop] at *
    omega

theorem Runs.before (hr : r ∈ rs) (hi : i + 1 = r.start) : ¬ P i := by
  intro hp
  obtain ⟨q, hq, hm⟩ := (h.covers _).mp hp
  by_cases he : r = q
  · subst he
    have := hm.1
    omega
  · have := h.apart_of_ne hr hq he
    simp only [Apart, mem_iff, stop] at *
    omega

end

theorem MaximalRun.apart (hr : MaximalRun P r) (hq : MaximalRun P q) (hne : r ≠ q) : Apart r q := by
  obtain ⟨hr0, hr, hrb, hra⟩ := hr
  obtain ⟨hq0, hq, hqb, hqa⟩ := hq
  simp only [mem_iff] at hr hq
  by_contra hap
  simp only [Apart, not_or, not_lt] at hap
  have hstart : r.start = q.start := by
    rcases lt_trichotomy r.start q.start with hlt | heq | hgt
    · exact absurd (hr (q.start - 1) (by omega)) (hqb _ (by omega))
    · exact heq
    · exact absurd (hq (r.start - 1) (by omega)) (hrb _ (by omega))
  have hstop : r.stop = q.stop := by
    rcases lt_trichotomy r.stop q.stop with hlt | heq | hgt
    · exact absurd (hq r.stop (by omega)) hra
    · exact heq
    · exact absurd (hr q.stop (by omega)) hqa
  apply hne
  cases r
  cases q
  simp only [stop, mk.injEq] at *
  omega

theorem Runs.mem_iff_maximalRun (h : Runs P rs) : r ∈ rs ↔ MaximalRun P r := by
  have hmax : ∀ q ∈ rs, MaximalRun P q := fun q hq =>
    ⟨h.pos q hq, fun i => h.all hq, fun i => h.before hq, h.after hq⟩
  constructor
  · exact hmax r
  · intro hr
    have hpos := hr.pos
    have hs : r.start ∈ r := by
      simp only [mem_iff, stop]
      omega
    obtain ⟨q, hq, hsq⟩ := (h.covers r.start).mp (hr.all _ hs)
    by_cases he : r = q
    · exact he ▸ hq
    · have := hr.apart (hmax q hq) he
      simp only [Apart, mem_iff, stop] at *
      omega

theorem Runs.perm (h : Runs P l1) (hp : l1.Perm l2) : Runs P l2 where
  pos r hr := h.pos r (hp.mem_iff.mpr hr)
  apart := (hp.pairwise_iff Apart.symm).mp h.apart
  covers i := by simp only [h.covers, hp.mem_iff]

theorem exists_maximalRun {N : ℕ} (hN : ∀ i, P i → i < N) (hi : P i) :
    ∃ r, i ∈ r ∧ MaximalRun P r := by
  have hlow : ∀ j, P j → ∃ a ≤ j, (∀ x, a ≤ x → x ≤ j → P x) ∧ ∀ y, y + 1 = a → ¬ P y := by
    intro j
    induction j with
    | zero => exact fun h0 => ⟨0, le_rfl, fun x _ hx => by rwa [Nat.le_zero.mp hx], by omega⟩
    | succ j ih =>
      intro hj
      by_cases hp : P j
      · obtain ⟨a, haj, hall, hbef⟩ := ih hp
        refine ⟨a, by omega, fun x hax hx => ?_, hbef⟩
        rcases Nat.eq_or_lt_of_le hx with rfl | hx
        · exact hj
        · exact hall x hax (by omega)
      · refine ⟨j + 1, le_rfl, fun x hax hx => ?_, fun y hy => ?_⟩
        · rwa [show x = j + 1 by omega]
        · rwa [show y = j by omega]
  have hhigh : ∀ d j, N ≤ j + d → P j → ∃ e, j < e ∧ (∀ x, j ≤ x → x < e → P x) ∧ ¬ P e := by
    intro d
    induction d with
    | zero => exact fun j hd hj => absurd (hN j hj) (by omega)
    | succ d ih =>
      intro j hd hj
      by_cases hp : P (j + 1)
      · obtain ⟨e, hje, hall, he⟩ := ih (j + 1) (by omega) hp
        refine ⟨e, by omega, fun x hx hxe => ?_, he⟩
        rcases Nat.eq_or_lt_of_le hx with rfl | hx
        · exact hj
        · exact hall x hx hxe
      · refine ⟨j + 1, by omega, fun x hx hxe => ?_, hp⟩
        rwa [show x = j by omega]
  obtain ⟨a, hai, hlo, hbef⟩ := hlow i hi
  obtain ⟨e, hie, hhi, he⟩ := hhigh N i (by omega) hi
  have hstop : (⟨a, e - a⟩ : Interval).stop = e := by
    simp only [stop]
    omega
  refine ⟨⟨a, e - a⟩, ?_, ?_, fun x hx => ?_, hbef, ?_⟩
  · simp only [mem_iff, hstop]
    omega
  · dsimp only
    omega
  · simp only [mem_iff, hstop] at hx
    by_cases hxi : x ≤ i
    · exact hlo x hx.1 hxi
    · exact hhi x (by omega) hx.2
  · rwa [hstop]

theorem runs_of_maximal {N : ℕ} (hN : ∀ i, P i → i < N) (hd : rs.Nodup)
    (hrs : ∀ r, r ∈ rs ↔ MaximalRun P r) : Runs P rs where
  pos r hr := ((hrs r).mp hr).pos
  apart := hd.imp_of_mem fun ha hb hne => ((hrs _).mp ha).apart ((hrs _).mp hb) hne
  covers i := by
    constructor
    · intro hi
      obtain ⟨r, hir, hr⟩ := exists_maximalRun hN hi
      exact ⟨r, (hrs r).mpr hr, hir⟩
    · rintro ⟨r, hr, hir⟩
      exact ((hrs r).mp hr).all i hir

theorem runs_nil (h : ∀ i, ¬ P i) : Runs P [] := ⟨by simp, .nil, by simpa using h⟩

theorem Runs.tail (h : Runs P (r :: rs)) (hp : ∀ i, P' i ↔ P i ∧ i ∉ r) : Runs P' rs where
  pos q hq := h.pos q (by simp [hq])
  apart := h.apart.of_cons
  covers i := by
    rw [hp, h.covers]
    constructor
    · rintro ⟨⟨q, hq, hi⟩, hr⟩
      rcases List.mem_cons.mp hq with rfl | hq
      · exact absurd hi hr
      · exact ⟨q, hq, hi⟩
    · rintro ⟨q, hq, hi⟩
      refine ⟨⟨q, by simp [hq], hi⟩, fun hir => ?_⟩
      have := List.rel_of_pairwise_cons h.apart hq
      simp only [Apart, mem_iff] at *
      omega

theorem Runs.cons (h : Runs P rs) (hr : 0 < r.count) (hnot : ∀ i ∈ r, ¬ P i)
    (hbefore : ∀ i, i + 1 = r.start → ¬ P i) (hafter : ¬ P r.stop)
    (hp : ∀ i, P' i ↔ P i ∨ i ∈ r) : Runs P' (r :: rs) where
  pos q hq := by
    rcases List.mem_cons.mp hq with rfl | hq
    · exact hr
    · exact h.pos q hq
  apart := by
    refine List.pairwise_cons.mpr ⟨fun q hq => ?_, h.apart⟩
    by_contra hap
    simp only [Apart, stop, not_or, not_lt] at hap
    -- otherwise `q` holds a number of `r` or one right beside it
    by_cases hs : q.start < r.start
    · by_cases ht : q.stop = r.start
      · refine hbefore (q.stop - 1) (by simp only [stop] at *; omega) (h.all hq ?_)
        simp only [mem_iff, stop] at *
        omega
      · refine hnot r.start ?_ (h.all hq ?_) <;> simp only [mem_iff, stop] at * <;> omega
    · by_cases ht : q.start = r.stop
      · exact hafter (ht ▸ h.all hq (h.start_mem hq))
      · refine hnot q.start ?_ (h.all hq (h.start_mem hq))
        simp only [mem_iff, stop] at *
        omega
  covers i := by
    rw [hp, h.covers]
    constructor
    · rintro (⟨q, hq, hi⟩ | hi)
      · exact ⟨q, by simp [hq], hi⟩
      · exact ⟨r, by simp, hi⟩
    · rintro ⟨q, hq, hi⟩
      rcases List.mem_cons.mp hq with rfl | hq
      · exact .inr hi
      · exact .inl ⟨q, hq, hi⟩

theorem Runs.replace (h : Runs P (q :: rs)) (hr : 0 < r.count) (hin : ∀ i ∈ r, P i → i ∈ q)
    (hbefore : ∀ i, i + 1 = r.start → P i → i ∈ q) (hafter : P r.stop → r.stop ∈ q)
    (hp : ∀ i, P' i ↔ (P i ∧ i ∉ q) ∨ i ∈ r) : Runs P' (r :: rs) := by
  have ht := h.tail fun _ => Iff.rfl
  refine ht.cons hr ?_ ?_ ?_ hp
  · exact fun i hi hpi => hpi.2 (hin i hi hpi.1)
  · exact fun i hi hpi => hpi.2 (hbefore i hi hpi.1)
  · exact fun hpi => hpi.2 (hafter hpi.1)

theorem Runs.grow (h : Runs P (q :: rs)) (hq : ∀ i ∈ q, i ∈ r) (hin : ∀ i ∈ r, P i → i ∈ q)
    (hbefore : ∀ i, i + 1 = r.start → ¬ P i) (hafter : ¬ P r.stop)
    (hp : ∀ i, P' i ↔ P i ∨ i ∈ r) : Runs P' (r :: rs) := by
  have hr : 0 < r.count := by
    have := hq _ (h.start_mem (by simp))
    simp only [mem_iff, stop] at this
    omega
  refine h.replace hr hin (fun i hi hpi => absurd hpi (hbefore i hi)) (fun hpi => absurd hpi hafter) ?_
  intro i
  rw [hp]
  constructor
  · rintro (hpi | hi)
    · by_cases hiq : i ∈ q
      · exact .inr (hq i hiq)
      · exact .inl ⟨hpi, hiq⟩
    · exact .inr hi
  · rintro (⟨hpi, -⟩ | hi)
    · exact .inl hpi
    · exact .inr hi

end Kot.Lib
