import Kot.Kernel.Machine
import Kot.Lib.Bytes
import Kot.Lib.Run

/-! The receive ring of the e1000: the device fills descriptors up to its tail register, and
`e1000_controller_on_interrupt` passes on those that are complete. -/
namespace Kot.E1000

open List Function
open Kot.Kernel (Fault bind_eq_ok ok_bind)
open Kot.Lib (readAt readAt_eq_iff Succeeds MeetsAll succeeds_iff)

/-- A ring and its registers. The packets have numbers, which the code does not see: `rxDesc` says
which one is in a descriptor, `complete` lists those that are complete and not passed on. -/
structure Ring where
  head : ℕ
  tail : ℕ
  rxDesc : ℕ → ℕ
  complete : List ℕ
  passed : List ℕ

/-- `controller_init_rx` for a ring of `n + 1` descriptors. -/
def initRx (n : ℕ) : Ring := ⟨0, n, fun _ => 0, [], []⟩

def countRxDescriptor (rxDescCount head tail : Int) : Int :=
  if tail ≤ head then head - tail else if head < tail then rxDescCount + head - tail else 0

def Ring.filled (r : Ring) : ℕ := r.passed.length + r.complete.length

/-- The device fills the descriptor at its head, unless that is the tail. -/
def fill (n : ℕ) (r : Ring) : Ring :=
  if r.head = r.tail then r
  else { r with
    head := (r.head + 1) % (n + 1)
    rxDesc := update r.rxDesc r.head r.filled
    complete := r.complete ++ [r.filled] }

/-- The loop of the handler, from the descriptor `index` on. -/
def rxPackets (n : ℕ) (rxDesc : ℕ → ℕ) : ℕ → ℕ → Except Fault (List ℕ)
  | _, 0 => .ok []
  | index, count + 1 =>
    if index < n + 1 then do
      let rest ← rxPackets n rxDesc (index + 1) count
      .ok (rxDesc index :: rest)
    else .error .strayAccess

def toHandle (n head tail : ℕ) : ℕ := (countRxDescriptor (n + 1) (head - 1) tail).toNat

def tailCurrent (n tail : ℕ) : ℕ := (tail + 1) % (n + 1)

/-- `e1000_controller_on_interrupt` with `E1000_ICR_RXQ0`. -/
def onInterrupt (n : ℕ) (r : Ring) : Except Fault Ring := do
  let packets ← rxPackets n r.rxDesc (tailCurrent n r.tail) (toHandle n r.head r.tail)
  .ok { r with
    tail := (r.tail + toHandle n r.head r.tail) % (n + 1)
    complete := r.complete.drop (toHandle n r.head r.tail)
    passed := r.passed ++ packets }

inductive Event
  | fill
  | interrupt
  deriving DecidableEq, Repr

def step (n : ℕ) (r : Ring) : Event → Except Fault Ring
  | .fill => .ok (fill n r)
  | .interrupt => onInterrupt n r

/-- After an interrupt all packets have been passed on, each once and in their order, and the tail is
right behind the head. -/
def Correct (n : ℕ) (r : Ring) (e : Event) (r' : Ring) : Prop :=
  e = .interrupt → r'.passed = range r.filled ∧ toHandle n r'.head r'.tail = 0

/-- The complete descriptors do not go around the end of the ring. -/
def Meets (n : ℕ) (r : Ring) (e : Event) : Prop :=
  e = .interrupt → tailCurrent n r.tail + toHandle n r.head r.tail ≤ n + 1

/-- An index below twice the size of the ring. -/
def around (n k : ℕ) : ℕ := if k < n + 1 then k else k - (n + 1)

structure Inv (n : ℕ) (r : Ring) : Prop where
  head_le : r.head ≤ n
  tail_le : r.tail ≤ n
  size : r.complete.length = toHandle n r.head r.tail
  numbered : r.passed ++ r.complete = range r.filled
  stored : ∀ i k, r.complete[i]? = some k → r.rxDesc (around n (r.tail + 1 + i)) = k

variable {n : ℕ} {r r' : Ring}

theorem mod_eq_around {k : ℕ} (hk : k < 2 * (n + 1)) : k % (n + 1) = around n k := by
  unfold around
  split_ifs with h
  · exact Nat.mod_eq_of_lt h
  · rw [Nat.mod_eq_sub_mod (by omega), Nat.mod_eq_of_lt (by omega)]

theorem toHandle_eq (head : ℕ) {tail : ℕ} (ht : tail ≤ n) :
    toHandle n head tail = if tail < head then head - 1 - tail else n + head - tail := by
  unfold toHandle countRxDescriptor
  split_ifs <;> omega

theorem rxPackets_eq {d : ℕ → ℕ} {index : ℕ} (h : index ≤ n + 1) {count : ℕ} :
    rxPackets n d index count =
      if index + count ≤ n + 1 then .ok (readAt d index count) else .error .strayAccess := by
  induction count generalizing index with
  | zero => exact (if_pos h).symm
  | succ count ih =>
    rw [rxPackets]
    split_ifs with hlt hle hle
    · rw [ih hlt, if_pos (by omega), ok_bind, Nat.add_comm count 1, Kot.Lib.readAt_append]
      rfl
    · rw [ih hlt, if_neg (by omega)]
      rfl
    · omega
    · rfl

theorem Inv.fill (h : Inv n r) : Inv n (fill n r) := by
  obtain ⟨hh, ht, hsize, hnumbered, hstored⟩ := h
  unfold E1000.fill
  split_ifs with hfull
  · exact ⟨hh, ht, hsize, hnumbered, hstored⟩
  rw [toHandle_eq _ ht] at hsize
  have hhead := mod_eq_around (n := n) (k := r.head + 1) (by omega)
  have hnext : around n (r.head + 1) ≤ n := by
    unfold around
    split_ifs <;> omega
  rw [hhead]
  refine ⟨hnext, ht, ?_, ?_, fun i k hi => ?_⟩
  · rw [toHandle_eq _ ht, length_append, hsize]
    simp only [around, length_singleton]
    split_ifs at * <;> omega
  · simp only [Ring.filled, length_append, length_singleton] at hnumbered ⊢
    rw [← append_assoc, hnumbered, ← Nat.add_assoc, range_succ]
  · rcases Nat.lt_trichotomy i r.complete.length with hlt | rfl | hgt
    · rw [getElem?_append_left hlt] at hi
      rw [← hstored i k hi]
      apply update_of_ne
      dsimp only [around]
      split_ifs at * <;> omega
    · rw [getElem?_concat_length] at hi
      cases hi
      have hat : around n (r.tail + 1 + r.complete.length) = r.head := by
        unfold around
        split_ifs at * <;> omega
      rw [hat]
      exact update_self ..
    · rw [getElem?_eq_none (by simp; omega)] at hi
      cases hi

theorem Inv.onInterrupt (h : Inv n r) (hmeets : tailCurrent n r.tail + toHandle n r.head r.tail ≤ n + 1) :
    ∃ r', onInterrupt n r = .ok r' ∧ Inv n r' ∧ Correct n r .interrupt r' := by
  obtain ⟨hh, ht, hsize, hnumbered, hstored⟩ := h
  have hcount := toHandle_eq r.head ht
  have hcurrent : tailCurrent n r.tail = around n (r.tail + 1) := mod_eq_around (by omega)
  have htail := mod_eq_around (n := n) (k := r.tail + toHandle n r.head r.tail) (by split_ifs at hcount <;> omega)
  have hpackets : readAt r.rxDesc (tailCurrent n r.tail) (toHandle n r.head r.tail) = r.complete := by
    refine (readAt_eq_iff hsize).mpr fun i hi => ?_
    rw [getElem?_eq_getElem (hsize ▸ hi), ← hstored i _ (getElem?_eq_getElem (hsize ▸ hi)), hcurrent]
    congr 2
    rw [hcurrent] at hmeets
    unfold around at *
    split_ifs at * <;> omega
  have hle : around n (r.tail + toHandle n r.head r.tail) ≤ n := by
    unfold around
    split_ifs at * <;> omega
  unfold E1000.onInterrupt
  rw [rxPackets_eq (by omega), if_pos hmeets, ok_bind, hpackets, htail, drop_of_length_le (Nat.le_of_eq hsize)]
  have hzero : toHandle n r.head (around n (r.tail + toHandle n r.head r.tail)) = 0 := by
    rw [toHandle_eq _ hle]
    unfold around
    split_ifs at * <;> omega
  refine ⟨_, rfl, ⟨hh, hle, hzero.symm, ?_, by simp⟩, fun _ => ⟨hnumbered, hzero⟩⟩
  rw [append_nil, hnumbered]
  simp [Ring.filled]

theorem step_iff (h : Inv n r) (e : Event) : (∃ r', step n r e = .ok r' ∧ Correct n r e r') ↔ Meets n r e := by
  cases e with
  | fill => exact iff_of_true ⟨_, rfl, nofun⟩ nofun
  | interrupt =>
    constructor
    · rintro ⟨r', hstep, -⟩ -
      obtain ⟨packets, hpackets, -⟩ := bind_eq_ok hstep
      have hle : tailCurrent n r.tail ≤ n + 1 := Nat.le_of_lt (Nat.mod_lt _ (Nat.succ_pos n))
      by_contra hmeets
      rw [rxPackets_eq hle, if_neg hmeets] at hpackets
      cases hpackets
    · intro hmeets
      obtain ⟨r', hr', -, hcorrect⟩ := h.onInterrupt (hmeets rfl)
      exact ⟨r', hr', hcorrect⟩

theorem inv_step (h : Inv n r) (e : Event) (hstep : step n r e = .ok r') (hc : Correct n r e r') : Inv n r' := by
  cases e with
  | fill =>
    cases hstep
    exact h.fill
  | interrupt =>
    obtain ⟨r1, hr1, hinv, -⟩ := h.onInterrupt ((step_iff h .interrupt).mp ⟨r', hstep, hc⟩ rfl)
    cases hr1.symm.trans hstep
    exact hinv

/-- The interrupts of a run pass on what is complete, exactly if at every interrupt the complete
descriptors do not go around the end of the ring. -/
theorem receive_iff (n : ℕ) (events : List Event) :
    Succeeds (step n) (Correct n) (initRx n) events ↔ MeetsAll (step n) (Meets n) (initRx n) events := by
  have hinit : Inv n (initRx n) := by
    have hzero : toHandle n 0 n = 0 := by
      rw [toHandle_eq 0 (Nat.le_refl n)]
      simp
    exact ⟨Nat.zero_le _, Nat.le_refl _, hzero.symm, rfl, nofun⟩
  exact succeeds_iff (fun _ e h => step_iff h e) (fun _ e _ h hs hc => inv_step h e hs hc) hinit events

/-- In a ring of four descriptors, three packets and then two more. -/
theorem descriptor_beyond_ring :
    [Event.fill, .fill, .fill, .interrupt, .fill, .fill, .interrupt].foldlM (step 3) (initRx 3) =
      .error .strayAccess := by
  rfl

end Kot.E1000
