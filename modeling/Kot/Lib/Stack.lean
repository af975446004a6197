import Kot.Lib.Bytes

/-! A store used as a stack that grows downwards: the values between the stack pointer and the top
as a list, and little-endian words among them. -/
namespace Kot.Lib
open List

variable {α : Type*} {m m' : ℕ → α} {sp top p : ℕ} {l d e : List α}

/-- The values from `sp` to `top` are those of `l`. -/
structure Stacked (m : ℕ → α) (sp : ℕ) (l : List α) (top : ℕ) : Prop where
  values : readAt m sp l.length = l
  length : sp + l.length = top

theorem stacked_nil : Stacked m top [] top := ⟨rfl, rfl⟩

theorem Stacked.push (h : Stacked m sp l top) (hd : d.length ≤ sp)
    (hnew : readAt m' (sp - d.length) d.length = d) (hold : ∀ x, sp ≤ x → x < top → m' x = m x) :
    Stacked m' (sp - d.length) (d ++ l) top := by
  have hlen := h.length
  refine ⟨?_, by rw [length_append]; omega⟩
  rw [length_append, readAt_append, hnew, Nat.sub_add_cancel hd]
  congr 1
  have hkept : readAt m' sp l.length = readAt m sp l.length :=
    readAt_congr fun x h1 h2 => hold x h1 (by omega)
  rw [hkept, h.values]

theorem Stacked.skip (h : Stacked m sp l top) {n : ℕ} (hn : n ≤ sp) :
    Stacked m (sp - n) (readAt m (sp - n) n ++ l) top := by
  have h := h.push (d := readAt m (sp - n) n) (by rwa [readAt_length]) (by simp) fun _ _ _ => rfl
  rwa [readAt_length] at h

/-- The values `d` are at the address `p` of a stack that holds `l`. -/
def Points (l : List α) (top p : ℕ) (d : List α) : Prop :=
  ∃ front back, l = front ++ (d ++ back) ∧ p + (d.length + back.length) = top

theorem Points.push (h : Points l top p d) (e : List α) : Points (e ++ l) top p d := by
  obtain ⟨front, back, rfl, hp⟩ := h
  exact ⟨e ++ front, back, by rw [append_assoc], hp⟩

theorem Stacked.points (h : Stacked m sp (d ++ l) top) : Points (d ++ l) top sp d := by
  have hlen := h.length
  rw [length_append] at hlen
  exact ⟨[], l, rfl, hlen⟩

theorem Stacked.read (h : Stacked m sp l top) (hp : Points l top p d) : readAt m p d.length = d := by
  obtain ⟨front, back, rfl, htop⟩ := hp
  have hlen := h.length
  have hval := h.values
  simp only [length_append] at hlen hval
  obtain rfl : p = sp + front.length := by omega
  rw [readAt_append, readAt_append] at hval
  have hback := (append_inj hval (by simp)).2
  exact (append_inj hback (by simp)).1

def wordAt (m : ℕ → UInt8) (a : ℕ) : ℕ := fromLe (readAt m a 8)

/-- The `n` words from an address on. -/
def wordsAt (m : ℕ → UInt8) (a : ℕ) : ℕ → List ℕ
  | 0 => []
  | n + 1 => wordAt m a :: wordsAt m (a + 8) n

def wordBytes (ws : List ℕ) : List UInt8 := ws.flatMap (toLe 8)

@[simp] theorem wordBytes_length (ws : List ℕ) : (wordBytes ws).length = 8 * ws.length := by
  induction ws with
  | nil => rfl
  | cons w ws ih =>
    rw [wordBytes, flatMap_cons, length_append, toLe_length, length_cons]
    change 8 + (wordBytes ws).length = _
    rw [ih]
    omega

theorem wordBytes_append (ws vs : List ℕ) : wordBytes (ws ++ vs) = wordBytes ws ++ wordBytes vs :=
  flatMap_append

theorem wordsAt_of_bytes {m : ℕ → UInt8} {ws : List ℕ} (hw : ∀ w ∈ ws, w < 2 ^ 64) {a : ℕ}
    (h : readAt m a (8 * ws.length) = wordBytes ws) : wordsAt m a ws.length = ws := by
  induction ws generalizing a with
  | nil => rfl
  | cons w ws ih =>
    have hlen : 8 * (w :: ws).length = 8 + 8 * ws.length := by rw [length_cons]; omega
    rw [hlen, readAt_append] at h
    obtain ⟨hfirst, hrest⟩ := append_inj (h : _ ++ _ = toLe 8 w ++ wordBytes ws) (by simp)
    have hword : wordAt m a = w := by
      rw [wordAt, hfirst, fromLe_toLe]
      exact Nat.mod_eq_of_lt (hw w mem_cons_self)
    rw [length_cons, wordsAt, hword, ih (fun v hv => hw v (mem_cons_of_mem w hv)) hrest]

end Kot.Lib
