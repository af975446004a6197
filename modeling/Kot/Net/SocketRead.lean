import Kot.Lib.Run
import Kot.Net.Tcp

/-! Reading from a TCP socket (`socket_general_receive_handler`). The packet handler queues buffers
while the reader polls; a step is one turn of the reader or one event of the handler. -/
namespace Kot.Net.SocketRead

open Kot.Lib List

def timeoutReceive : ℕ := 5000

/-- What the socket is. For an accepted one `beyond` is the byte behind its `socket_tcp_child_data_t`,
at the offset of `is_connect` in `socket_tcp_data_t`. -/
inductive Kind
  | connected
  | accepted (beyond : Bool)
  deriving DecidableEq

/-- Where the reader is: before the condition of its outer loop, in the inner loop, or in
`kernel_sleep_us`. -/
inductive Phase
  | top
  | copy
  | sleep
  deriving DecidableEq

/-- A call in progress; `buffer` is what it has stored so far. -/
structure Reader where
  size : ℕ
  sizeToRead : ℕ
  timeout : ℕ
  buffer : List UInt8
  phase : Phase

/-- A call that has ended: what it stored, `*size_receive` unless the call went astray, and whether
the FIN of the peer had arrived. -/
structure Result where
  size : ℕ
  stored : List UInt8
  sizeReceive : Option ℕ
  isFin : Bool
  deriving DecidableEq

/-- The connection of a socket, with all bytes ever queued, how many of them had been queued when
the FIN arrived, and the calls that have ended, oldest first. -/
structure State where
  kind : Kind
  queue : List (List UInt8)
  isFin : Bool
  isReceivingData : Bool
  reader : Option Reader
  queued : List UInt8
  atFin : ℕ
  results : List Result

inductive Event
  /-- `tcp_send_buffer` by the packet handler -/
  | queue (buffer : List UInt8)
  /-- a segment whose data is kept back -/
  | receiving
  | fin
  /-- a call with a buffer of this size -/
  | read (size : ℕ)
  /-- the reader goes on -/
  | turn

/-- The end of the loop. A socket that was accepted falls through into the case of the other kind,
which takes its record for a `socket_tcp_data_t`. -/
def State.finish (s : State) (r : Reader) : State :=
  let sizeReceive := match s.kind with
    | .connected => some (r.size - r.sizeToRead)
    | .accepted false => some 0
    | .accepted true => none
  { s with
    reader := none
    results := s.results ++ [⟨r.size, r.buffer, sizeReceive, s.isFin⟩] }

def State.goesOn (s : State) (r : Reader) : Bool :=
  r.sizeToRead == r.size && !s.isFin && decide (0 < r.timeout)

/-- One turn of the inner loop. -/
def State.copy (s : State) (r : Reader) : State :=
  match s.queue with
  | b :: q =>
    if b ≠ [] ∧ 0 < r.sizeToRead then
      let n := min r.sizeToRead b.length
      { s with
        reader := some { r with buffer := r.buffer ++ b.take n, sizeToRead := r.sizeToRead - n }
        queue := if n < b.length then b.drop n :: q else q }
    else { s with reader := some { r with phase := .sleep } }
  | [] => { s with reader := some { r with phase := .sleep } }

def State.turn (s : State) (r : Reader) : State :=
  match r.phase with
  | .top =>
    if s.goesOn r then { s with reader := some { r with phase := .copy, buffer := [] } }
    else s.finish r
  | .copy => s.copy r
  | .sleep =>
    { s with
      reader := some { r with
        timeout := if s.isReceivingData then timeoutReceive else r.timeout - 1
        phase := .top }
      isReceivingData := false }

def State.step (s : State) : Event → Option State
  | .queue b =>
    some { s with queue := s.queue ++ [b], queued := s.queued ++ b, isReceivingData := true }
  | .receiving => some { s with isReceivingData := true }
  | .fin => some { s with isFin := true, atFin := if s.isFin then s.atFin else s.queued.length }
  | .read size =>
    match s.reader with
    | none => some { s with
        reader := some ⟨size, size, timeoutReceive, [], .top⟩, isReceivingData := false }
    | some _ => none
  | .turn => s.reader.map s.turn

def Step (s : State) (e : Event) (t : State) : Prop := s.step e = some t

def State.start (kind : Kind) : State := ⟨kind, [], false, false, none, [], 0, []⟩

def bytesOf (rs : List Result) : List UInt8 := (rs.map Result.stored).flatten

/-- A call that reports the end of the stream. -/
def Result.IsEnd (r : Result) : Prop := r.isFin = true ∧ r.size ≠ 0 ∧ r.sizeReceive = some 0

/-- What reads owe to their callers. -/
structure Delivered (s : State) : Prop where
  inOrder : bytesOf s.results <+: s.queued
  reported : ∀ r ∈ s.results, r.sizeReceive = some r.stored.length ∧ r.stored.length ≤ r.size
  complete : ∀ pre r post, s.results = pre ++ r :: post → r.IsEnd → s.atFin ≤ (bytesOf pre).length

/-- A call ends only on a connected socket, or on an accepted one without bytes and with a clear
byte behind its record; and where it ends without bytes because of the FIN, all bytes queued before
that have been read. -/
def Harmless (s : State) : Event → Prop
  | .turn => ∀ r ∈ s.reader, r.phase = .top → s.goesOn r = false →
      (s.kind = .connected ∨ s.kind = .accepted false ∧ r.buffer = []) ∧
      (s.isFin = true → r.size ≠ 0 → r.buffer = [] → s.atFin ≤ (bytesOf s.results).length)
  | _ => True

instance (s : State) : (e : Event) → Decidable (Harmless s e)
  | .turn => inferInstanceAs (Decidable (∀ r ∈ s.reader, r.phase = .top → s.goesOn r = false →
      (s.kind = .connected ∨ s.kind = .accepted false ∧ r.buffer = []) ∧
      (s.isFin = true → r.size ≠ 0 → r.buffer = [] → s.atFin ≤ (bytesOf s.results).length)))
  | .queue _ => .isTrue trivial
  | .receiving => .isTrue trivial
  | .fin => .isTrue trivial
  | .read _ => .isTrue trivial

/-! Nothing is lost or doubled between the queue and the buffers. -/

variable {s t : State} {r : Reader} {e : Event}

/-- The bytes that a call in progress has stored. -/
def State.pending (s : State) : List UInt8 := (s.reader.map Reader.buffer).getD []

structure Whole (s : State) : Prop where
  bytes : bytesOf s.results ++ s.pending ++ s.queue.flatten = s.queued
  sizes : ∀ r ∈ s.reader, r.buffer.length + r.sizeToRead = r.size
  atFin : s.atFin ≤ s.queued.length

theorem whole_start {kind : Kind} : Whole (State.start kind) := ⟨rfl, by simp [State.start], Nat.le_refl _⟩

theorem Whole.copy (h : Whole s) (hr : s.reader = some r) : Whole (s.copy r) := by
  have hbytes := h.bytes
  have hsize := h.sizes r hr
  simp only [State.pending, hr, Option.map_some, Option.getD_some] at hbytes
  unfold State.copy
  split
  · rename_i b q hq
    split_ifs with hcopy
    · refine ⟨?_, ?_, h.atFin⟩
      · rw [hq] at hbytes
        rw [← hbytes]
        simp only [State.pending, Option.map_some, Option.getD_some]
        split_ifs with hpart
        · simp only [flatten_cons, append_assoc]
          rw [← append_assoc (b.take _), take_append_drop]
        · have hall : min r.sizeToRead b.length = b.length := by omega
          simp [hall]
      · rintro r' ⟨⟩
        simp only [length_append, length_take]
        omega
    · refine ⟨?_, ?_, h.atFin⟩
      · simpa [State.pending] using hbytes
      · rintro r' ⟨⟩
        exact hsize
  · refine ⟨?_, ?_, h.atFin⟩
    · simpa [State.pending] using hbytes
    · rintro r' ⟨⟩
      exact hsize

theorem Whole.turn (h : Whole s) (hr : s.reader = some r) : Whole (s.turn r) := by
  have hbytes := h.bytes
  have hsize := h.sizes r hr
  simp only [State.pending, hr, Option.map_some, Option.getD_some] at hbytes
  unfold State.turn
  split
  · split_ifs with hgo
    · -- the loop starts again only as long as nothing has been stored
      have hnil : r.buffer = [] := by
        simp only [State.goesOn, Bool.and_eq_true, beq_iff_eq] at hgo
        exact eq_nil_of_length_eq_zero (by omega)
      refine ⟨?_, ?_, h.atFin⟩
      · simpa [State.pending, hnil] using hbytes
      · rintro r' ⟨⟩
        simpa [hnil] using hsize
    · refine ⟨?_, by simp [State.finish], h.atFin⟩
      simpa [State.finish, State.pending, bytesOf] using hbytes
  · exact h.copy hr
  · refine ⟨?_, ?_, h.atFin⟩
    · simpa [State.pending] using hbytes
    · rintro r' ⟨⟩
      exact hsize

theorem Whole.step (h : Whole s) (hs : Step s e t) : Whole t := by
  cases e with
  | queue b =>
    cases hs
    refine ⟨?_, h.sizes, ?_⟩
    · have := h.bytes
      simp only [State.pending] at this ⊢
      simp [← this]
    · have := h.atFin
      simp only [length_append]
      omega
  | receiving =>
    cases hs
    exact ⟨h.bytes, h.sizes, h.atFin⟩
  | fin =>
    cases hs
    refine ⟨h.bytes, h.sizes, ?_⟩
    have := h.atFin
    simp only
    split_ifs <;> omega
  | read size =>
    simp only [Step, State.step] at hs
    split at hs
    · rename_i hnone
      cases hs
      refine ⟨?_, ?_, h.atFin⟩
      · have := h.bytes
        simpa [State.pending, hnone] using this
      · rintro r' ⟨⟩
        exact Nat.zero_add _
    · cases hs
  | turn =>
    obtain ⟨r, hr, rfl⟩ := Option.map_eq_some_iff.mp hs
    exact h.turn hr

theorem step_cases (hs : Step s e t) :
    t.results = s.results ∧ (s.isFin = true → t.isFin = true ∧ t.atFin = s.atFin) ∧ Harmless s e ∨
      ∃ r, e = .turn ∧ s.reader = some r ∧ r.phase = .top ∧ s.goesOn r = false ∧ t = s.finish r := by
  cases e with
  | queue b | receiving =>
    cases hs
    exact .inl ⟨rfl, fun h => ⟨h, rfl⟩, trivial⟩
  | fin =>
    cases hs
    exact .inl ⟨rfl, fun h => ⟨rfl, if_pos h⟩, trivial⟩
  | read size =>
    simp only [Step, State.step] at hs
    split at hs
    · cases hs
      exact .inl ⟨rfl, fun h => ⟨h, rfl⟩, trivial⟩
    · cases hs
  | turn =>
    obtain ⟨r, hr, rfl⟩ := Option.map_eq_some_iff.mp hs
    have hlater : r.phase ≠ .top ∨ s.goesOn r = true → Harmless s .turn := by
      rintro h r' hr' htop hgo
      obtain rfl := Option.some.inj (hr.symm.trans hr')
      rcases h with h | h
      · exact absurd htop h
      · rw [hgo] at h
        cases h
    unfold State.turn
    split
    · rename_i htop
      cases hgo : s.goesOn r
      · exact .inr ⟨r, rfl, hr, htop, hgo, rfl⟩
      · exact .inl ⟨rfl, fun h => ⟨h, rfl⟩, hlater (.inr hgo)⟩
    · rename_i hphase
      refine .inl ⟨?_, ?_, hlater (.inl (by rw [hphase]; decide))⟩
      · unfold State.copy
        split
        · split_ifs <;> rfl
        · rfl
      · intro h
        unfold State.copy
        split
        · split_ifs <;> exact ⟨h, rfl⟩
        · exact ⟨h, rfl⟩
    · rename_i hphase
      exact .inl ⟨rfl, fun h => ⟨h, rfl⟩, hlater (.inl (by rw [hphase]; decide))⟩

/-- What holds of ended calls in every run. -/
structure Bounded (s : State) : Prop where
  length : ∀ r ∈ s.results, r.stored.length ≤ r.size
  fin : ∀ r ∈ s.results, r.isFin = true → s.isFin = true

structure Kept (s : State) : Prop where
  reported : ∀ r ∈ s.results, r.sizeReceive = some r.stored.length
  complete : ∀ pre r post, s.results = pre ++ r :: post → r.IsEnd → s.atFin ≤ (bytesOf pre).length

theorem delivered_iff (hw : Whole s) (hb : Bounded s) : Delivered s ↔ Kept s := by
  constructor
  · exact fun h => ⟨fun r hr => (h.reported r hr).1, h.complete⟩
  · refine fun h => ⟨?_, fun r hr => ⟨h.reported r hr, hb.length r hr⟩, h.complete⟩
    exact ⟨s.pending ++ s.queue.flatten, by rw [← append_assoc, hw.bytes]⟩

theorem Bounded.step (h : Bounded s) (hw : Whole s) (hs : Step s e t) : Bounded t := by
  rcases step_cases hs with ⟨hres, hfin, _⟩ | ⟨r, rfl, hr, _, _, rfl⟩
  · exact ⟨hres ▸ h.length, fun r hr hf => (hfin (h.fin r (hres ▸ hr) hf)).1⟩
  · have hsize := hw.sizes r hr
    refine ⟨fun q hq => ?_, fun q hq hf => ?_⟩ <;> rcases mem_append.mp hq with hq | hq
    · exact h.length q hq
    · obtain rfl := mem_singleton.mp hq
      simp only
      omega
    · exact h.fin q hq hf
    · obtain rfl := mem_singleton.mp hq
      exact hf

theorem end_of_snoc {α : Type} {l pre post : List α} {a b : α} (h : l ++ [a] = pre ++ b :: post) :
    (∃ post', l = pre ++ b :: post') ∨ l = pre ∧ a = b := by
  rcases eq_nil_or_concat post with rfl | ⟨post', c, rfl⟩
  · obtain ⟨rfl, hab⟩ := append_inj' h rfl
    exact .inr ⟨rfl, by simpa using hab⟩
  · have h' : l ++ [a] = (pre ++ b :: post') ++ [c] := by simpa using h
    exact .inl ⟨post', (append_inj' h' rfl).1⟩

theorem Kept.step (h : Kept s) (hw : Whole s) (hb : Bounded s) (hs : Step s e t) (hc : Harmless s e) :
    Kept t := by
  rcases step_cases hs with ⟨hres, hfin, _⟩ | ⟨r, rfl, hr, htop, hgo, rfl⟩
  · refine ⟨hres ▸ h.reported, fun pre r post hsplit hend => ?_⟩
    rw [hres] at hsplit
    have hmem : r ∈ s.results := by rw [hsplit]; simp
    rw [(hfin (hb.fin r hmem hend.1)).2]
    exact h.complete pre r post hsplit hend
  · have hsize := hw.sizes r hr
    obtain ⟨hkind, hempty⟩ := hc r hr htop hgo
    have hreport : (match s.kind with
        | .connected => some (r.size - r.sizeToRead)
        | .accepted false => some 0
        | .accepted true => none) = some r.buffer.length := by
      rcases hkind with hk | ⟨hk, hnil⟩
      · rw [hk]
        simp only [Option.some.injEq]
        omega
      · rw [hk, hnil]
        rfl
    refine ⟨fun q hq => ?_, fun pre q post hsplit hend => ?_⟩
    · rcases mem_append.mp hq with hq | hq
      · exact h.reported q hq
      · obtain rfl := mem_singleton.mp hq
        exact hreport
    · rcases end_of_snoc hsplit with ⟨post', hold⟩ | ⟨rfl, rfl⟩
      · exact h.complete pre q post' hold hend
      · refine hempty hend.1 hend.2.1 (eq_nil_of_length_eq_zero ?_)
        exact Option.some.inj (hreport.symm.trans hend.2.2)

theorem Kept.of_step (h : Kept t) (hb : Bounded s) (hs : Step s e t) : Kept s := by
  rcases step_cases hs with ⟨hres, hfin, _⟩ | ⟨r, rfl, _, _, _, rfl⟩
  · refine ⟨hres ▸ h.reported, fun pre r post hsplit hend => ?_⟩
    have hmem : r ∈ s.results := by rw [hsplit]; simp
    rw [← (hfin (hb.fin r hmem hend.1)).2]
    exact h.complete pre r post (hres.trans hsplit) hend
  · refine ⟨fun q hq => h.reported q (mem_append_left _ hq), fun pre q post hsplit hend => ?_⟩
    exact h.complete pre q (post ++ [_]) (by simp [State.finish, hsplit]; rfl) hend

theorem Kept.harmless (h : Kept t) (hw : Whole s) (hs : Step s e t) : Harmless s e := by
  rcases step_cases hs with ⟨_, _, hc⟩ | ⟨r, rfl, hr, htop, hgo, rfl⟩
  · exact hc
  · intro r' hr' _ _
    obtain rfl := Option.some.inj (hr.symm.trans hr')
    have hreport := h.reported _ (mem_append_right _ (mem_singleton.mpr rfl))
    refine ⟨?_, fun hfin hne hnil => h.complete s.results _ [] rfl ⟨hfin, hne, ?_⟩⟩
    · split at hreport
      · exact .inl ‹_›
      · exact .inr ⟨‹_›, eq_nil_of_length_eq_zero (Option.some.inj hreport).symm⟩
      · cases hreport
    · rw [hreport, hnil]
      rfl

/-- Three bytes are queued and a call reads two of them. -/
def readTwo : List Event := [.queue [1, 2, 3], .read 2, .turn, .turn, .turn, .turn, .turn]

end Kot.Net.SocketRead
