import Mathlib.Algebra.GroupWithZero.Nat
import Mathlib.Logic.Function.Iterate

/-! Fallible steps with an exact condition: when it holds they succeed and keep an invariant, and
otherwise they fail or break it. -/
namespace Kot.Lib

variable {σ ε : Type} {I : σ → Prop} {f f' : σ → Except ε σ} {C C' : σ → Prop} {g g' : σ → σ}

/-- From a state of `I` the step `f` ends in a state of `I` if and only if `C` holds, and then that
state is `g s`. -/
def Exact (I : σ → Prop) (f : σ → Except ε σ) (C : σ → Prop) (g : σ → σ) : Prop :=
  ∀ s, I s → ∀ t, f s = .ok t ∧ I t ↔ C s ∧ t = g s

namespace Exact

theorem ok (h : Exact I f C g) {s : σ} (hs : I s) (hc : C s) : f s = .ok (g s) ∧ I (g s) :=
  (h s hs (g s)).mpr ⟨hc, rfl⟩

theorem exists_iff (h : Exact I f C g) {s : σ} (hs : I s) : (∃ t, f s = .ok t ∧ I t) ↔ C s := by
  constructor
  · rintro ⟨t, ht⟩
    exact ((h s hs t).mp ht).1
  · intro hc
    exact ⟨g s, h.ok hs hc⟩

theorem congr (h : Exact I f C g) (hc : ∀ s, I s → (C s ↔ C' s)) : Exact I f C' g := by
  intro s hs t
  rw [h s hs t, hc s hs]

theorem congr_step (h : Exact I f C g) (hf : ∀ s, I s → f' s = f s) : Exact I f' C g := by
  intro s hs t
  rw [hf s hs]
  exact h s hs t

theorem pure (hg : ∀ s, I s → (I (g s) ↔ C s)) : Exact I (fun s => (.ok (g s) : Except ε σ)) C g := by
  intro s hs t
  constructor
  · rintro ⟨ht, hI⟩
    cases ht
    exact ⟨(hg s hs).mp hI, rfl⟩
  · rintro ⟨hc, rfl⟩
    exact ⟨rfl, (hg s hs).mpr hc⟩

theorem andThen (h : Exact I f C g) (h' : Exact I f' C' g')
    (hback : ∀ s t u, I s → f s = .ok t → f' t = .ok u → I u → I t) :
    Exact I (fun s => f s >>= f') (fun s => C s ∧ C' (g s)) fun s => g' (g s) := by
  intro s hs u
  constructor
  · rintro ⟨hu, hI⟩
    cases hf : f s with
    | error e =>
      simp only [hf] at hu
      cases hu
    | ok t =>
      simp only [hf] at hu
      have ht := hback s t u hs hf hu hI
      obtain ⟨hc, rfl⟩ := (h s hs t).mp ⟨hf, ht⟩
      obtain ⟨hc', hgu⟩ := (h' (g s) ht u).mp ⟨hu, hI⟩
      exact ⟨⟨hc, hc'⟩, hgu⟩
  · rintro ⟨⟨hc, hc'⟩, rfl⟩
    obtain ⟨hf, hI⟩ := h.ok hs hc
    obtain ⟨hf', hI'⟩ := h'.ok hI hc'
    refine ⟨?_, hI'⟩
    simp only [hf]
    exact hf'

theorem ite {P : σ → Prop} [DecidablePred P] (h : Exact I f C g) (h' : Exact I f' C' g') :
    Exact I (fun s => if P s then f s else f' s) (fun s => if P s then C s else C' s)
      fun s => if P s then g s else g' s := by
  intro s hs t
  by_cases hP : P s
  · simpa only [hP, if_true] using h s hs t
  · simpa only [hP, if_false] using h' s hs t

end Exact

def iterateStep (f : σ → Except ε σ) : ℕ → σ → Except ε σ
  | 0, s => .ok s
  | n + 1, s => f s >>= iterateStep f n

theorem Exact.iterate (h : Exact I f C g)
    (hback : ∀ n s t u, I s → f s = .ok t → iterateStep f n t = .ok u → I u → I t) (n : ℕ) :
    Exact I (iterateStep f n) (fun s => ∀ i < n, C (g^[i] s)) g^[n] := by
  induction n with
  | zero =>
    refine (Exact.pure (fun s hs => iff_of_true hs trivial)).congr ?_
    intro s _
    simp
  | succ n ih =>
    refine (h.andThen ih (hback n)).congr ?_
    intro s _
    constructor
    · rintro ⟨h0, hn⟩ i hi
      cases i with
      | zero => exact h0
      | succ i => exact hn i (by omega)
    · intro hn
      exact ⟨hn 0 (by omega), fun i hi => hn (i + 1) (by omega)⟩

end Kot.Lib
