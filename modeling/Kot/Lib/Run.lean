import Mathlib.Algebra.GroupWithZero.Nat
import Mathlib.Data.List.Induction
import Mathlib.Tactic.SplitIfs

/-! Finite runs of a labelled transition relation and the invariant rule for them. -/
namespace Kot.Lib

variable {σ ι : Type*} {step step' : σ → ι → σ → Prop} {s t u : σ} {is : List ι}

/-- `t` is reached from `s` by the listed steps, oldest first. -/
inductive Run (step : σ → ι → σ → Prop) (s : σ) : List ι → σ → Prop
  | nil : Run step s [] s
  | snoc {is : List ι} {i : ι} {t u : σ} :
      Run step s is t → step t i u → Run step s (is ++ [i]) u

theorem Run.invariant {P : σ → Prop} (h : Run step s is t) (h0 : P s)
    (hstep : ∀ t i u, P t → step t i u → P u) : P t := by
  induction h with
  | nil => exact h0
  | snoc _ hi ih => exact hstep _ _ _ ih hi

theorem Run.of_foldlM {f : σ → ι → Option σ} (hf : ∀ s i s', f s i = some s' → step s i s') :
    ∀ {is : List ι} {t : σ}, is.foldlM f s = some t → Run step s is t := by
  intro is
  induction is using List.reverseRecOn with
  | nil =>
    rintro t h
    obtain rfl : s = t := by simpa using h
    exact .nil
  | append_singleton is i ih =>
    intro t h
    rw [List.foldlM_append] at h
    obtain ⟨u, hu, ht⟩ := Option.bind_eq_some_iff.mp h
    exact .snoc (ih hu) (hf _ _ _ (by simpa using ht))

theorem exists_run_of_foldlM {f : σ → ι → Option σ} {s : σ} {is : List ι} (Q : σ → Bool)
    (hf : ∀ s i s', f s i = some s' → step s i s') (h : (is.foldlM f s).any Q = true) :
    ∃ t, Run step s is t ∧ Q t = true := by
  obtain ⟨t, ht, hq⟩ := (Option.any_eq_true ..).mp h
  exact ⟨t, .of_foldlM hf ht, hq⟩

theorem Run.cons {i : ι} (hi : step s i t) (h : Run step t is u) : Run step s (i :: is) u := by
  induction h with
  | nil => exact (.snoc .nil hi : Run step s ([] ++ [i]) t)
  | snoc _ hj ih => exact .snoc ih hj

theorem Run.last {i : ι} (h : Run step s (is ++ [i]) u) : ∃ t, Run step s is t ∧ step t i u := by
  generalize hl : is ++ [i] = l at h
  cases h with
  | nil => simp at hl
  | snoc h hi =>
    obtain ⟨rfl, hij⟩ := List.append_inj' hl rfl
    obtain rfl := List.singleton_inj.mp hij
    exact ⟨_, h, hi⟩

theorem Run.singleton {i : ι} (h : Run step s [i] u) : step s i u := by
  have h : Run step s ([] ++ [i]) u := h
  obtain ⟨t, h, hi⟩ := h.last
  generalize hl : ([] : List ι) = l at h
  cases h with
  | nil => exact hi
  | snoc _ _ => simp at hl

/-- The steps that start where a condition on state and label holds. -/
def Guarded (step : σ → ι → σ → Prop) (G : σ → ι → Prop) (s : σ) (i : ι) (t : σ) : Prop :=
  step s i t ∧ G s i

theorem Run.of_guarded {G : σ → ι → Prop} (h : Run (Guarded step G) s is t) : Run step s is t := by
  induction h with
  | nil => exact .nil
  | snoc _ hi ih => exact .snoc ih hi.1

/-- Where a property of the end holds all along the run, and a step that keeps it meets the
condition, all steps meet it. -/
theorem Run.guarded {G : σ → ι → Prop} {P : σ → Prop} (h : Run step s is t) (ht : P t)
    (hback : ∀ t i u, step t i u → P u → P t)
    (hG : ∀ is t i u, Run step s is t → step t i u → P u → G t i) : Run (Guarded step G) s is t := by
  induction h with
  | nil => exact .nil
  | snoc hr hi ih => exact .snoc (ih (hback _ _ _ hi ht)) ⟨hi, hG _ _ _ _ hr hi ht⟩

/-- Runs an executable step function as long as every step passes a check. -/
def runChecked {ε : Type*} (f : σ → ι → Except ε σ) (check : σ → ι → σ → Bool) :
    σ → List ι → Option σ
  | s, [] => some s
  | s, i :: is =>
    match f s i with
    | .ok t => if check s i t then runChecked f check t is else none
    | .error _ => none

theorem Run.of_runChecked {ε : Type*} {f : σ → ι → Except ε σ} {check : σ → ι → σ → Bool}
    (hf : ∀ s i t, f s i = .ok t → check s i t = true → step s i t) :
    ∀ {is : List ι} {s t : σ}, runChecked f check s is = some t → Run step s is t := by
  intro is
  induction is with
  | nil =>
    intro s t h
    obtain rfl : s = t := Option.some.inj h
    exact .nil
  | cons i is ih =>
    intro s t h
    unfold runChecked at h
    split at h
    · rename_i u hu
      split_ifs at h with hc
      exact (ih h).cons (hf s i u hu hc)
    · cases h

theorem exists_run_of_check {ε : Type*} {f : σ → ι → Except ε σ} (C : σ → ι → σ → Prop)
    [∀ s i t, Decidable (C s i t)] {Q : σ → Prop} [DecidablePred Q]
    (hf : ∀ s i t, f s i = .ok t → C s i t → step s i t)
    (h : (runChecked f (fun s i t => C s i t) s is).any (Q ·) = true) :
    ∃ t, Run step s is t ∧ Q t := by
  obtain ⟨t, ht, hq⟩ := (Option.any_eq_true ..).mp h
  exact ⟨t, .of_runChecked (fun s i t h hc => hf s i t h (of_decide_eq_true hc)) ht,
    of_decide_eq_true hq⟩

/-- Every step of the run returns, with a state as wanted. -/
def Succeeds {ε : Type*} (f : σ → ι → Except ε σ) (C : σ → ι → σ → Prop) : σ → List ι → Prop
  | _, [] => True
  | s, i :: is => ∃ t, f s i = .ok t ∧ C s i t ∧ Succeeds f C t is

/-- Every step of the run starts where the condition holds. -/
def MeetsAll {ε : Type*} (f : σ → ι → Except ε σ) (G : σ → ι → Prop) : σ → List ι → Prop
  | _, [] => True
  | s, i :: is => G s i ∧ ∀ t, f s i = .ok t → MeetsAll f G t is

/-- A condition that is exact for one step, where an invariant holds, is exact for runs. -/
theorem succeeds_iff {ε : Type*} {f : σ → ι → Except ε σ} {C : σ → ι → σ → Prop} {G : σ → ι → Prop}
    {P : σ → Prop} (hstep : ∀ s i, P s → ((∃ t, f s i = .ok t ∧ C s i t) ↔ G s i))
    (hP : ∀ s i t, P s → f s i = .ok t → C s i t → P t) {s : σ} (hs : P s) (is : List ι) :
    Succeeds f C s is ↔ MeetsAll f G s is := by
  induction is generalizing s with
  | nil => rfl
  | cons i is ih =>
    constructor
    · rintro ⟨t, ht, hc, hrest⟩
      refine ⟨(hstep s i hs).mp ⟨t, ht, hc⟩, fun u hu => ?_⟩
      cases ht.symm.trans hu
      exact (ih (hP s i t hs ht hc)).mp hrest
    · rintro ⟨hg, hrest⟩
      obtain ⟨t, ht, hc⟩ := (hstep s i hs).mpr hg
      exact ⟨t, ht, hc, (ih (hP s i t hs ht hc)).mpr (hrest t ht)⟩

end Kot.Lib
