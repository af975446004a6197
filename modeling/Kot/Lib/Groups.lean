import Kot.Lib.Run
import Mathlib.Logic.Function.Basic

/-! Threads that take groups of actions on one shared state. Where nobody acts while another thread
is inside a group, every run is one whose groups are taken in one piece. -/
namespace Kot.Lib
open List Function

variable {ι σ α β : Type*}

/-- The rest of the group a thread is in, its later groups, and what its actions returned. -/
structure Thread (α β : Type*) where
  current : List α
  later : List (List α)
  out : List β

def Thread.next : Thread α β → Option (α × Thread α β)
  | ⟨a :: as, later, out⟩ => some (a, ⟨as, later, out⟩)
  | ⟨[], (a :: as) :: later, out⟩ => some (a, ⟨as, later, out⟩)
  | _ => none

def Thread.Finished (t : Thread α β) : Prop := t.current = [] ∧ t.later = []

structure Threads (ι σ α β : Type*) where
  state : σ
  thread : ι → Thread α β

def actAll (act : σ → α → σ × List β) (s : σ) : List α → σ × List β
  | [] => (s, [])
  | a :: as =>
    let (s, out) := act s a
    let (s, outs) := actAll act s as
    (s, out ++ outs)

theorem actAll_append {act : σ → α → σ × List β} {s : σ} {as bs : List α} :
    actAll act s (as ++ bs) = ((actAll act (actAll act s as).1 bs).1,
      (actAll act s as).2 ++ (actAll act (actAll act s as).1 bs).2) := by
  induction as generalizing s with
  | nil => rfl
  | cons a as ih =>
    simp only [cons_append, actAll]
    rw [ih, append_assoc]

section

variable [DecidableEq ι] (act : σ → α → σ × List β)

/-- Thread `i` takes its next action. -/
def Threads.step (s : Threads ι σ α β) (i : ι) : Option (Threads ι σ α β) :=
  (s.thread i).next.map fun (a, t) =>
    let (state, out) := act s.state a
    { state, thread := update s.thread i { t with out := t.out ++ out } }

/-- A step by a thread while no other one is inside a group. -/
def Threads.Alone (s : Threads ι σ α β) (i : ι) : Prop := ∀ j ≠ i, (s.thread j).current = []

/-- Thread `i` takes a whole group. -/
def Threads.group (s : Threads ι σ α β) (i : ι) (t : Threads ι σ α β) : Prop :=
  ∃ g later out, s.thread i = ⟨[], g :: later, out⟩ ∧
    t = ⟨(actAll act s.state g).1,
      update s.thread i ⟨[], later, out ++ (actAll act s.state g).2⟩⟩

/-- Thread `i` has taken the actions `pre` of its group since `s`. -/
def Threads.Inside (s : Threads ι σ α β) (i : ι) (t : Threads ι σ α β) : Prop :=
  ∃ pre cur later out, pre ≠ [] ∧ cur ≠ [] ∧ s.thread i = ⟨[], (pre ++ cur) :: later, out⟩ ∧
    t = ⟨(actAll act s.state pre).1,
      update s.thread i ⟨cur, later, out ++ (actAll act s.state pre).2⟩⟩

variable {act} {s a t u : Threads ι σ α β} {i : ι} {is : List ι}

theorem Threads.group_idle (h : ∀ j, (a.thread j).current = []) (hg : a.group act i t) (j : ι) :
    (t.thread j).current = [] := by
  obtain ⟨g, later, out, _, rfl⟩ := hg
  by_cases hj : j = i
  · subst hj
    simp
  · simpa [hj] using h j

theorem Threads.inside_or_group (pre cur : List α) {later : List (List α)} {out : List β}
    (hi : a.thread i = ⟨[], (pre ++ cur) :: later, out⟩) (hpre : pre ≠ []) :
    a.group act i ⟨(actAll act a.state pre).1,
        update a.thread i ⟨cur, later, out ++ (actAll act a.state pre).2⟩⟩ ∨
      a.Inside act i ⟨(actAll act a.state pre).1,
        update a.thread i ⟨cur, later, out ++ (actAll act a.state pre).2⟩⟩ := by
  by_cases hcur : cur = []
  · subst hcur
    rw [append_nil] at hi
    exact .inl ⟨pre, later, out, hi, rfl⟩
  · exact .inr ⟨pre, cur, later, out, hpre, hcur, hi, rfl⟩

theorem Threads.step_idle (h : ∀ j, (a.thread j).current = []) (hs : a.step act i = some t) :
    a.group act i t ∨ a.Inside act i t := by
  obtain ⟨⟨x, th⟩, hnext, rfl⟩ := Option.map_eq_some_iff.mp hs
  have hidle := h i
  rcases hthread : a.thread i with ⟨cur, later, out⟩
  rw [hthread] at hidle hnext
  obtain rfl : cur = [] := hidle
  match later, hnext with
  | (y :: ys) :: later, hnext =>
    obtain ⟨rfl, rfl⟩ : y = x ∧ (⟨ys, later, out⟩ : Thread α β) = th := by
      simpa [Thread.next] using hnext
    simpa [actAll] using inside_or_group [y] ys hthread (by simp)

theorem Threads.step_inside (h : a.Inside act i s) (hs : s.step act i = some t) :
    a.group act i t ∨ a.Inside act i t := by
  obtain ⟨pre, cur, later, out, hpre, hcur, hi, rfl⟩ := h
  obtain ⟨⟨x, th⟩, hnext, rfl⟩ := Option.map_eq_some_iff.mp hs
  obtain ⟨y, ys, rfl⟩ := exists_cons_of_ne_nil hcur
  obtain ⟨rfl, rfl⟩ : y = x ∧
      (⟨ys, later, out ++ (actAll act a.state pre).2⟩ : Thread α β) = th := by
    simpa [Thread.next] using hnext
  have hthread : a.thread i = ⟨[], (pre ++ [y] ++ ys) :: later, out⟩ := by simpa using hi
  simpa [actAll_append, actAll] using inside_or_group (pre ++ [y]) ys hthread (by simp)

/-- A run in which nobody acts while another thread is inside a group takes whole groups, up to the
one a thread may still be inside. -/
theorem Threads.run_groups (h0 : ∀ j, (s.thread j).current = [])
    (h : Run (Guarded (fun s i t => s.step act i = some t) Threads.Alone) s is t) :
    ∃ js a, Run (Threads.group act) s js a ∧ (∀ j, (a.thread j).current = []) ∧
      (t = a ∨ ∃ i, a.Inside act i t) := by
  induction h with
  | nil => exact ⟨[], s, .nil, h0, .inl rfl⟩
  | @snoc is i t u _ hi ih =>
    obtain ⟨js, a, hrun, hidle, hta⟩ := ih
    have hnext : a.group act i u ∨ a.Inside act i u := by
      rcases hta with rfl | ⟨j, hin⟩
      · exact step_idle hidle hi.1
      · obtain rfl : j = i := by
          by_contra hne
          obtain ⟨pre, cur, later, out, _, hcur, _, rfl⟩ := hin
          exact hcur (by simpa using hi.2 j hne)
        exact step_inside hin hi.1
    rcases hnext with hg | hin
    · exact ⟨js ++ [i], u, .snoc hrun hg, group_idle hidle hg, .inl rfl⟩
    · exact ⟨js, a, hrun, hidle, .inr ⟨i, hin⟩⟩

theorem Threads.run_alone (h0 : ∀ j, (s.thread j).current = [] ∧ ∀ g ∈ (s.thread j).later, ∃ x, g = [x])
    (h : Run (fun s i t => s.step act i = some t) s is t) :
    Run (Guarded (fun s i t => s.step act i = some t) Threads.Alone) s is t ∧
      ∀ j, (t.thread j).current = [] ∧ ∀ g ∈ (t.thread j).later, ∃ x, g = [x] := by
  induction h with
  | nil => exact ⟨.nil, h0⟩
  | @snoc is i t u _ hi ih =>
    obtain ⟨hrun, hsingle⟩ := ih
    refine ⟨.snoc hrun ⟨hi, fun j _ => (hsingle j).1⟩, fun j => ?_⟩
    rcases step_idle (fun j => (hsingle j).1) hi with ⟨g, later, out, hthread, rfl⟩ | hin
    · by_cases hj : j = i
      · subst hj
        have := (hsingle j).2
        rw [hthread] at this
        simpa using fun g hg => this g (mem_cons_of_mem _ hg)
      · simpa [hj] using hsingle j
    · obtain ⟨pre, cur, later, out, hpre, hcur, hthread, _⟩ := hin
      obtain ⟨x, hx⟩ := (hsingle i).2 (pre ++ cur) (by rw [hthread]; exact mem_cons_self)
      have hlen := congrArg List.length hx
      have h1 := length_pos_iff.mpr hpre
      have h2 := length_pos_iff.mpr hcur
      simp at hlen
      omega

end

end Kot.Lib
