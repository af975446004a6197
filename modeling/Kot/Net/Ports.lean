import Kot.Net.Checksums
import Kot.Net.Listen

/-! The local ports of TCP connections (`allocate_port` in `socket.c`): the counter wraps around and
does not look at the connections that are still open. -/
namespace Kot.Net.Ports

open Kot.Lib List

/-- A connection: which allocation it was, and its local port in network byte order. -/
structure Connection where
  number : ℕ
  sourcePort : UInt16

/-- The counter of the module, the number of ports that have been allocated, and the connections that
are still open. -/
structure State where
  lastAllocatedPort : UInt16
  allocations : ℕ
  connections : List Connection

inductive Event
  /-- `socket_connect_handler`; the other side may refuse -/
  | connect (accepted : Bool)
  /-- a SYN segment that a listening socket takes -/
  | passiveOpen
  | close (number : ℕ)

def State.newPort (s : State) : UInt16 := htons (allocatePort s.lastAllocatedPort).1

def State.allocate (s : State) (isOpen : Bool) : State where
  lastAllocatedPort := (allocatePort s.lastAllocatedPort).2
  allocations := s.allocations + 1
  connections := if isOpen then ⟨s.allocations, s.newPort⟩ :: s.connections else s.connections

def State.step (s : State) : Event → State
  | .connect accepted => s.allocate accepted
  | .passiveOpen => s.allocate true
  | .close number => { s with connections := s.connections.filter (·.number ≠ number) }

def Step (s : State) (e : Event) (s' : State) : Prop := s' = s.step e

def start : State := ⟨minListeningPort, 0, []⟩

/-- The port of a new connection differs from those of all open ones. -/
def NewPort (s : State) : Event → Prop
  | .close _ => True
  | _ => ∀ c ∈ s.connections, s.newPort ≠ c.sourcePort

/-- No open connection is a multiple of 64512 allocations old. -/
def Meets (s : State) : Event → Prop
  | .close _ => True
  | _ => ∀ c ∈ s.connections, ¬ 64512 ∣ s.allocations - c.number

def portOf (number : ℕ) : UInt16 := UInt16.ofNat (1024 + number % 64512)

theorem portOf_toNat (n : ℕ) : (portOf n).toNat = 1024 + n % 64512 := by
  rw [portOf, UInt16.toNat_ofNat']
  omega

theorem allocatePort_portOf (n : ℕ) : allocatePort (portOf n) = (portOf n, portOf (n + 1)) := by
  refine Prod.ext rfl (UInt16.toNat_inj.mp ?_)
  have hn := portOf_toNat n
  have hmax : maxListeningPort.toNat = 65535 := rfl
  rw [allocatePort, portOf_toNat]
  split_ifs with h
  · rw [h] at hn
    change 1024 = _
    omega
  · have hne : (portOf n).toNat ≠ maxListeningPort.toNat := fun h' => h (UInt16.toNat_inj.mp h')
    rw [UInt16.toNat_add, hn]
    change (1024 + n % 64512 + 1) % 2 ^ 16 = _
    omega

/-- What the counter and the ports of the connections are. -/
structure Numbered (s : State) : Prop where
  last : s.lastAllocatedPort = portOf s.allocations
  old : ∀ c ∈ s.connections, c.number < s.allocations ∧ c.sourcePort = htons (portOf c.number)

theorem Numbered.newPort {s : State} (h : Numbered s) : s.newPort = htons (portOf s.allocations) := by
  rw [State.newPort, h.last, allocatePort_portOf]

theorem Numbered.step {s : State} (h : Numbered s) (e : Event) : Numbered (s.step e) := by
  have hlast : (allocatePort s.lastAllocatedPort).2 = portOf (s.allocations + 1) := by
    rw [h.last, allocatePort_portOf]
  have halloc : ∀ isOpen, Numbered (s.allocate isOpen) := by
    refine fun isOpen => ⟨hlast, fun c hc => ?_⟩
    have hold : c ∈ s.connections → c.number < s.allocations + 1 ∧
        c.sourcePort = htons (portOf c.number) :=
      fun hc => ⟨Nat.lt_succ_of_lt (h.old c hc).1, (h.old c hc).2⟩
    cases isOpen with
    | false => exact hold hc
    | true =>
      obtain rfl | hc := mem_cons.mp hc
      · exact ⟨Nat.lt_succ_self _, h.newPort⟩
      · exact hold hc
  cases e with
  | connect accepted => exact halloc accepted
  | passiveOpen => exact halloc true
  | close number => exact ⟨h.last, fun c hc => h.old c (mem_of_mem_filter hc)⟩

theorem numbered_of_run {es : List Event} {s : State} (h : Run Step start es s) : Numbered s := by
  refine h.invariant ⟨rfl, fun c hc => absurd hc not_mem_nil⟩ ?_
  rintro s e _ hs rfl
  exact hs.step e

theorem Numbered.newPort_iff {s : State} (h : Numbered s) (e : Event) : NewPort s e ↔ Meets s e := by
  have hport : ∀ c ∈ s.connections, s.newPort ≠ c.sourcePort ↔ ¬ 64512 ∣ s.allocations - c.number := by
    intro c hc
    obtain ⟨hlt, hc⟩ := h.old c hc
    have hsame : htons (portOf s.allocations) = htons (portOf c.number) ↔
        portOf s.allocations = portOf c.number :=
      ⟨fun heq => by rw [← htons_htons (portOf s.allocations), heq, htons_htons], congrArg htons⟩
    rw [h.newPort, hc, Ne, hsame, ← UInt16.toNat_inj, portOf_toNat, portOf_toNat]
    omega
  cases e with
  | close _ => exact Iff.rfl
  | _ => exact forall₂_congr hport

/-- Whatever has happened, the next connection gets a port of its own exactly when it meets the
condition; and as long as all meet it, the ports of the open connections are distinct. -/
theorem newPort_distinct_iff (es : List Event) (s : State) (hrun : Run Step start es s) :
    (∀ e, NewPort s e ↔ Meets s e) ∧
      (Run (Guarded Step Meets) start es s → (s.connections.map Connection.sourcePort).Nodup) := by
  refine ⟨(numbered_of_run hrun).newPort_iff, fun hmeets => ?_⟩
  have hinv : Numbered s ∧ (s.connections.map Connection.sourcePort).Nodup := by
    refine hmeets.invariant (P := fun s => Numbered s ∧ (s.connections.map Connection.sourcePort).Nodup)
      ⟨numbered_of_run .nil, nodup_nil⟩ ?_
    rintro s e _ ⟨hs, hnodup⟩ ⟨rfl, hm⟩
    refine ⟨hs.step e, ?_⟩
    have hnew := (hs.newPort_iff e).mpr hm
    have hopen : (∀ c ∈ s.connections, s.newPort ≠ c.sourcePort) →
        ((s.allocate true).connections.map Connection.sourcePort).Nodup := by
      refine fun hnew => nodup_cons.mpr ⟨fun hmem => ?_, hnodup⟩
      obtain ⟨c, hc, heq⟩ := mem_map.mp hmem
      exact hnew c hc heq.symm
    cases e with
    | connect accepted => cases accepted <;> [exact hnodup; exact hopen hnew]
    | passiveOpen => exact hopen hnew
    | close number => exact (filter_sublist.map _).nodup hnodup
  exact hinv.2

theorem newPort_second : Run Step start [.connect true] (start.step (.connect true)) ∧
    NewPort (start.step (.connect true)) .passiveOpen := by
  have hrun : Run Step start [.connect true] (start.step (.connect true)) := .cons rfl .nil
  refine ⟨hrun, ((newPort_distinct_iff _ _ hrun).1 .passiveOpen).mpr fun c hc => ?_⟩
  obtain rfl := mem_singleton.mp hc
  decide

theorem run_connects {n : ℕ} : ∃ s, Run Step start (.connect true :: List.replicate n (.connect false)) s ∧
    s.allocations = n + 1 ∧ ⟨0, htons 1024⟩ ∈ s.connections := by
  induction n with
  | zero => exact ⟨start.step (.connect true), .cons rfl .nil, rfl, mem_cons_self⟩
  | succ n ih =>
    obtain ⟨s, hrun, hn, hmem⟩ := ih
    refine ⟨s.step (.connect false), ?_, congrArg (· + 1) hn, hmem⟩
    rw [replicate_succ', ← cons_append]
    exact .snoc hrun rfl

/-- A connection stays open while 64511 others are refused; the next one gets its port. -/
theorem port_is_taken_twice : ∃ s, Run Step start
    (.connect true :: List.replicate 64511 (.connect false)) s ∧
      ∃ c ∈ s.connections, s.newPort = c.sourcePort := by
  obtain ⟨s, hrun, hn, hmem⟩ := run_connects
  refine ⟨s, hrun, _, hmem, ?_⟩
  rw [(numbered_of_run hrun).newPort, hn]
  exact congrArg htons (UInt16.toNat_inj.mp (portOf_toNat _))

end Kot.Net.Ports
