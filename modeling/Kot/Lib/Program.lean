import Mathlib.Algebra.GroupWithZero.Nat
import Mathlib.Logic.Relation

/-! State-passing programs that can fail: how they compose, and which steps they are made of. -/
namespace Kot.Lib

variable {σ ε α β : Type}

/-- A program over the states `σ` that ends with a value or fails. -/
abbrev Program (σ ε α : Type) := StateT σ (Except ε) α

namespace Program

variable {m : Program σ ε α} {f : α → Program σ ε β} {s t u : σ} {a : α} {b : β}

theorem bind_of_ok (h : m s = .ok (a, t)) : (m >>= f) s = f a t := by
  change (m s >>= fun p => f p.1 p.2) = f a t
  rw [h]
  rfl

theorem bind_eq_ok : (m >>= f) s = .ok (b, u) ↔ ∃ a t, m s = .ok (a, t) ∧ f a t = .ok (b, u) := by
  constructor
  · intro h
    change (m s >>= fun p => f p.1 p.2) = .ok (b, u) at h
    cases hm : m s with
    | error e => rw [hm] at h; cases h
    | ok p => rw [hm] at h; exact ⟨p.1, p.2, rfl, h⟩
  · rintro ⟨a, t, hm, hf⟩
    exact (bind_of_ok hm).trans hf

theorem bind_of_error {e : ε} (h : m s = .error e) : (m >>= f) s = .error e := by
  change (m s >>= fun p => f p.1 p.2) = .error e
  rw [h]
  rfl

theorem pure_eq_ok : (pure a : Program σ ε α) s = .ok (a, s) := rfl

theorem get_eq_ok : (get : Program σ ε σ) s = .ok (s, s) := rfl

theorem modify_eq_ok (f : σ → σ) : (modify f : Program σ ε PUnit) s = .ok (⟨⟩, f s) := rfl

/-- Every run of the program that ends is a sequence of steps of `R`. -/
def Keeps (R : σ → σ → Prop) (m : Program σ ε α) : Prop :=
  ∀ s a t, m s = .ok (a, t) → Relation.ReflTransGen R s t

namespace Keeps

variable {R : σ → σ → Prop}

theorem pure (a : α) : Keeps R (Pure.pure a : Program σ ε α) := by
  intro s b t h
  cases h
  exact .refl

theorem get : Keeps R (MonadState.get : Program σ ε σ) := by
  intro s b t h
  cases h
  exact .refl

theorem throw (e : ε) : Keeps R (throw e : Program σ ε α) := by
  intro s b t h
  cases h

theorem bind (hm : Keeps R m) (hf : ∀ a, Keeps R (f a)) : Keeps R (m >>= f) := by
  intro s b u h
  obtain ⟨a, t, hma, hfa⟩ := bind_eq_ok.mp h
  exact (hm s a t hma).trans (hf a t b u hfa)

theorem step (h : ∀ s a t, m s = .ok (a, t) → R s t) : Keeps R m := fun s a t hm =>
  .single (h s a t hm)

theorem of_unchanged (h : ∀ s a t, m s = .ok (a, t) → t = s) : Keeps R m := by
  intro s a t hm
  rw [h s a t hm]

theorem ite {c : Prop} [Decidable c] {m n : Program σ ε α} (hm : Keeps R m) (hn : Keeps R n) :
    Keeps R (if c then m else n) := by
  split
  · exact hm
  · exact hn

theorem option {f : Option β → Program σ ε α} (hnone : Keeps R (f none))
    (hsome : ∀ b, Keeps R (f (some b))) (o : Option β) : Keeps R (f o) := by
  cases o with
  | none => exact hnone
  | some b => exact hsome b

theorem invariant {P : σ → Prop} (hm : Keeps R m) (hR : ∀ s t, R s t → P s → P t)
    (h : m s = .ok (a, t)) (hs : P s) : P t := by
  have hsteps := hm s a t h
  clear h
  induction hsteps with
  | refl => exact hs
  | tail _ hstep ih => exact hR _ _ hstep ih

end Keeps

end Program

end Kot.Lib
