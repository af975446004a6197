import Kot.Kernel.Resources.Descriptors

/-! Files and sockets behind descriptors that processes share: creation, `socket_pair`, fork and
close (`global/syscall.c`). -/
namespace Kot.Kernel.Resources

open Function
open Kot.Lib (Run Guarded exists_run_of_check)

/-- `descriptor_t`; the flag `is_parent` is kept with the tables. -/
structure Record where
  isSocket : Bool
  object : ℕ
  deriving DecidableEq, Repr

/-- `record` is `none` where nothing is allocated, or no longer. `closes` counts the calls of `close`
that the driver of an object answered without an error. -/
structure State where
  tables : Tables ℕ
  record : ℕ → Option Record
  closes : ℕ → ℕ
  nextRecord : ℕ
  nextObject : ℕ
  nextProcess : ℕ

def State.slot (s : State) (p : ℕ) (i : Index) : Option ℕ := (s.tables.ctx p).descriptors i

def ebadf : ℤ := 9

/-- A new record for the object, which `add_descriptor` puts into the table. -/
def addRecord (s : State) (p : ℕ) (x : Record) : Except Fault (ℤ × State) := do
  let (fd, t) ← addDescriptor s.tables p s.nextRecord
  .ok (fd, { s with
    tables := t
    record := update s.record s.nextRecord (some x)
    nextRecord := s.nextRecord + 1 })

/-- `syscall_handler_open` for a file and `syscall_handler_socket`. -/
def create (s : State) (p : ℕ) (isSocket : Bool) : Except Fault (ℤ × State) :=
  addRecord { s with nextObject := s.nextObject + 1 } p ⟨isSocket, s.nextObject⟩

/-- `syscall_handler_socket_pair` with two new sockets: both records get the first. -/
def socketPair (s : State) (p : ℕ) : Except Fault ((ℤ × ℤ) × State) := do
  let first := s.nextObject
  let (fd0, s) ← addRecord { s with nextObject := s.nextObject + 2 } p ⟨true, first⟩
  let (fd1, s) ← addRecord s p ⟨true, first⟩
  .ok ((fd0, fd1), s)

/-- The descriptors in `scheduler_fork_syscall`. -/
def fork (s : State) (p : ℕ) : Except Fault State := do
  let (_, t) ← copyProcessDescriptors s.tables s.nextProcess p
  .ok { s with tables := t, nextProcess := s.nextProcess + 1 }

def getDescriptor (s : State) (p : ℕ) (fd : ℤ) : Option ℕ := (checkIndex fd).bind (s.slot p)

/-- `syscall_handler_close`, where `error` is what the object's driver answers. -/
def close (s : State) (p : ℕ) (fd : ℤ) (error : ℕ) : Except Fault (ℤ × State) :=
  match getDescriptor s p fd with
  | none => .ok (-ebadf, s)
  | some r =>
    match s.record r with
    | none => .error .strayAccess
    | some x =>
      if s.tables.isParent r then
        if error ≠ 0 then .ok (-(error : ℤ), s)
        else .ok (0, { s with
          tables := (removeDescriptor s.tables p fd).2
          closes := update s.closes x.object (s.closes x.object + 1)
          record := update s.record r none })
      else .ok (0, { s with tables := (removeDescriptor s.tables p fd).2 })

inductive Event
  | create (p : ℕ) (isSocket : Bool)
  | socketPair (p : ℕ) (error : ℕ)
  | fork (p : ℕ)
  | close (p : ℕ) (fd : ℤ) (error : ℕ)
  deriving DecidableEq, Repr

def Event.process : Event → ℕ
  | .create p _ => p
  | .socketPair p _ => p
  | .fork p => p
  | .close p _ _ => p

/-- What a call returns: a number, or the two descriptors of a pair. -/
inductive Answer
  | value (v : ℤ)
  | pair (fd0 fd1 : ℤ)
  deriving DecidableEq, Repr

/-- A call of a process; there is none of a process that does not exist. -/
def handle (s : State) (e : Event) : Except Fault (Answer × State) :=
  if e.process < s.nextProcess then
    match e with
    | .create p isSocket => do
      let (fd, s) ← create s p isSocket
      .ok (.value fd, s)
    | .socketPair p error =>
      if error ≠ 0 then .ok (.value (-(error : ℤ)), s)
      else do
        let ((fd0, fd1), s) ← socketPair s p
        .ok (.pair fd0 fd1, s)
    | .fork p => do
      let s' ← fork s p
      .ok (.value s.nextProcess, s')
    | .close p fd error => do
      let (r, s) ← close s p fd error
      .ok (.value r, s)
  else .ok (.value 0, s)

def Moves (s : State) (e : Event) (s' : State) : Prop := ∃ a, handle s e = .ok (a, s')

def boot : State where
  tables := start fun _ => false
  record _ := none
  closes _ := 0
  nextRecord := 0
  nextObject := 0
  nextProcess := 1

def Refers (s : State) (p : ℕ) (i : Index) (o : ℕ) : Prop :=
  ∃ r x, s.slot p i = some r ∧ s.record r = some x ∧ x.object = o

structure Sound (s : State) : Prop where
  /-- no slot refers to something freed or closed -/
  live : ∀ p i r, s.slot p i = some r → ∃ x, s.record r = some x ∧ s.closes x.object = 0
  once : ∀ o, s.closes o ≤ 1
  /-- an object without a slot is closed -/
  last : ∀ o < s.nextObject, s.closes o = 0 → ∃ p i, Refers s p i o

def Achieves (s : State) (e : Event) (a : Answer) (s' : State) : Prop :=
  Sound s' ∧
  match e, a with
  | .socketPair p _, .pair fd0 fd1 =>
    ∃ i j : Index, fd0 = (i.val : ℤ) ∧ fd1 = (j.val : ℤ) ∧
      Refers s' p i s.nextObject ∧ Refers s' p j (s.nextObject + 1)
  | .close p fd _, .value v => p < s.nextProcess → v = 0 →
    ∃ i, checkIndex fd = some i ∧ s'.slot p i = none ∧
      ∀ q j, (q, j) ≠ (p, i) → s'.slot q j = s.slot q j
  | _, _ => True

/-- The calls after which the above holds. -/
def Keeps (s : State) : Event → Prop
  | .create p _ => p < s.nextProcess → ∃ i, s.slot p i = none
  | .socketPair p error => p < s.nextProcess → error ≠ 0
  | .fork _ => True
  | .close p fd _ => p < s.nextProcess → ∀ i r x, checkIndex fd = some i → s.slot p i = some r →
      s.record r = some x → s.tables.isParent r = true ∨ ∃ q j, (q, j) ≠ (p, i) ∧ Refers s q j x.object

/-- A record with the flag has one slot, and every object one record. -/
structure Owned (s : State) : Prop where
  sound : Sound s
  single : ∀ r, s.tables.isParent r = true → ∀ p i q j, s.slot p i = some r → s.slot q j = some r →
    (p, i) = (q, j)
  inj : ∀ r r' x x', s.record r = some x → s.record r' = some x' → x.object = x'.object → r = r'
  recordFresh : ∀ r, s.nextRecord ≤ r → s.record r = none
  objectFresh : ∀ r x, s.record r = some x → x.object < s.nextObject
  closesFresh : ∀ o, s.nextObject ≤ o → s.closes o = 0
  searched : AllSearched s.tables
  unborn : ∀ p, s.nextProcess ≤ p → s.tables.ctx p = Ctx.empty ℕ

variable {s s' : State} {p r q error : ℕ} {i j k : Index} {x : Record} {fd : ℤ} {e : Event}

theorem Owned.slot_lt (h : Owned s) (hr : s.slot p i = some r) : r < s.nextRecord := by
  obtain ⟨x, hx, -⟩ := h.sound.live p i r hr
  by_contra hlt
  rw [h.recordFresh r (by omega)] at hx
  cases hx

theorem Owned.process_lt (h : Owned s) (hr : s.slot p i = some r) : p < s.nextProcess := by
  by_contra hlt
  rw [State.slot, h.unborn p (by omega)] at hr
  cases hr

/-- The state with a new record in the slot `j`. -/
def added (s : State) (p : ℕ) (j : Index) (x : Record) : State :=
  { s with
    tables :=
      { ctx := update s.tables.ctx p
          ⟨update (s.tables.ctx p).descriptors j (some s.nextRecord), j⟩
        isParent := update s.tables.isParent s.nextRecord true }
    record := update s.record s.nextRecord (some x)
    nextRecord := s.nextRecord + 1 }

theorem addRecord_eq (h : AllSearched s.tables) (x : Record)
    (hj : s.slot p j = none) (hlow : ∀ i < j, s.slot p i ≠ none) :
    addRecord s p x = .ok ((j.val : ℤ), added s p j x) := by
  simp only [addRecord, addDescriptor_eq h hj hlow, ok_bind, added]

section Added

variable {s : State} {p : ℕ} {j : Index} {x : Record}

theorem added_slot_self : (added s p j x).slot p j = some s.nextRecord := by
  simp [added, State.slot]

theorem added_slot_of_ne {q : ℕ} {k : Index} (hne : (q, k) ≠ (p, j)) :
    (added s p j x).slot q k = s.slot q k := by
  simp only [added, State.slot]
  by_cases hq : q = p
  · subst hq
    have hk : k ≠ j := fun hk => hne (by rw [hk])
    simp only [update_self, update_of_ne hk]
  · rw [update_of_ne hq]

theorem added_record_self : (added s p j x).record s.nextRecord = some x := update_self ..

theorem added_record_cases {r : ℕ} {y : Record} (hy : (added s p j x).record r = some y) :
    (r = s.nextRecord ∧ y = x) ∨ (r ≠ s.nextRecord ∧ s.record r = some y) := by
  by_cases hr : r = s.nextRecord
  · subst hr
    rw [added_record_self] at hy
    exact .inl ⟨rfl, (Option.some.inj hy).symm⟩
  · rw [show (added s p j x).record r = _ from update_of_ne hr ..] at hy
    exact .inr ⟨hr, hy⟩

theorem added_slot_cases {q r : ℕ} {k : Index} (hr : (added s p j x).slot q k = some r) :
    ((q, k) = (p, j) ∧ r = s.nextRecord) ∨ ((q, k) ≠ (p, j) ∧ s.slot q k = some r) := by
  by_cases hqk : (q, k) = (p, j)
  · obtain ⟨rfl, rfl⟩ := Prod.mk.inj hqk
    rw [added_slot_self] at hr
    exact .inl ⟨rfl, (Option.some.inj hr).symm⟩
  · rw [added_slot_of_ne hqk] at hr
    exact .inr ⟨hqk, hr⟩

end Added

def newObject (s : State) (p : ℕ) (j : Index) (isSocket : Bool) : State :=
  added { s with nextObject := s.nextObject + 1 } p j ⟨isSocket, s.nextObject⟩

theorem Owned.newObject (h : Owned s) (hp : p < s.nextProcess)
    (hj : s.slot p j = none) (hlow : ∀ i < j, s.slot p i ≠ none) (isSocket : Bool) :
    Owned (newObject s p j isSocket) := by
  have hrecord : ∀ {r x}, s.record r = some x →
      (Resources.newObject s p j isSocket).record r = some x := by
    intro r x hx
    have hne : r ≠ s.nextRecord := by
      rintro rfl
      rw [h.recordFresh _ (Nat.le_refl _)] at hx
      cases hx
    exact (update_of_ne hne ..).trans hx
  have hslot : ∀ {q k r}, s.slot q k = some r →
      (Resources.newObject s p j isSocket).slot q k = some r := by
    intro q k r hr
    have hne : (q, k) ≠ (p, j) := by
      intro heq
      obtain ⟨rfl, rfl⟩ := Prod.mk.inj heq
      rw [hj] at hr
      cases hr
    exact (added_slot_of_ne hne).trans hr
  refine ⟨⟨?_, h.sound.once, ?_⟩, ?_, ?_, ?_, ?_, ?_, ?_, ?_⟩
  · intro q k r hr
    rcases added_slot_cases hr with ⟨-, rfl⟩ | ⟨-, hr⟩
    · exact ⟨_, added_record_self, h.closesFresh _ (Nat.le_refl _)⟩
    · obtain ⟨x, hx, hopen⟩ := h.sound.live q k r hr
      exact ⟨x, hrecord hx, hopen⟩
  · intro o ho hopen
    rcases Nat.lt_succ_iff_lt_or_eq.mp ho with ho | rfl
    · obtain ⟨q, k, r, x, hr, hx, hxo⟩ := h.sound.last o ho hopen
      exact ⟨q, k, r, x, hslot hr, hrecord hx, hxo⟩
    · exact ⟨p, j, _, _, added_slot_self, added_record_self, rfl⟩
  · intro r hparent q k q' k' hr hr'
    rcases added_slot_cases hr with ⟨hqk, rfl⟩ | ⟨-, hr⟩
    · rcases added_slot_cases hr' with ⟨hqk', -⟩ | ⟨-, hr'⟩
      · rw [hqk, hqk']
      · exact absurd rfl (Nat.ne_of_lt (h.slot_lt hr'))
    · rcases added_slot_cases hr' with ⟨-, rfl⟩ | ⟨-, hr'⟩
      · exact absurd rfl (Nat.ne_of_lt (h.slot_lt hr))
      · have hne := Nat.ne_of_lt (h.slot_lt hr)
        have hold := (update_of_ne hne ..).symm.trans hparent
        exact h.single r hold q k q' k' hr hr'
  · intro r r' y y' hy hy' hobject
    rcases added_record_cases hy with ⟨rfl, rfl⟩ | ⟨-, hy⟩
    · rcases added_record_cases hy' with ⟨rfl, -⟩ | ⟨-, hy'⟩
      · rfl
      · exact absurd hobject.symm (Nat.ne_of_lt (h.objectFresh r' y' hy'))
    · rcases added_record_cases hy' with ⟨rfl, rfl⟩ | ⟨-, hy'⟩
      · exact absurd hobject (Nat.ne_of_lt (h.objectFresh r y hy))
      · exact h.inj r r' y y' hy hy' hobject
  · intro r hr
    have hr' : s.nextRecord + 1 ≤ r := hr
    have hne : r ≠ s.nextRecord := by omega
    exact (update_of_ne hne ..).trans (h.recordFresh r (by omega))
  · intro r y hy
    rcases added_record_cases hy with ⟨-, rfl⟩ | ⟨-, hy⟩
    · exact Nat.lt_succ_self _
    · exact Nat.lt_succ_of_lt (h.objectFresh r y hy)
  · intro o ho
    have ho' : s.nextObject + 1 ≤ o := ho
    exact h.closesFresh o (by omega)
  · exact h.searched.step (c := .add p s.nextRecord) ⟨_, addDescriptor_eq h.searched hj hlow⟩
  · intro q hq
    have hne : q ≠ p := by
      have hq' : s.nextProcess ≤ q := hq
      omega
    exact (update_of_ne hne ..).trans (h.unborn q hq)

theorem addRecord_ok (h : addRecord s p x = .ok (fd, s')) :
    (∀ r y, s'.record r = some y → y = x ∨ s.record r = some y) ∧ s'.closes = s.closes ∧
      s'.nextObject = s.nextObject := by
  obtain ⟨⟨i, t⟩, -, h⟩ := bind_eq_ok h
  cases h
  refine ⟨?_, rfl, rfl⟩
  intro r y hy
  change update s.record s.nextRecord (some x) r = some y at hy
  by_cases hr : r = s.nextRecord
  · rw [hr, update_self] at hy
    exact .inl (Option.some.inj hy).symm
  · rw [update_of_ne hr] at hy
    exact .inr hy

theorem not_sound_of_socketPair (h : Owned s) {fds : ℤ × ℤ}
    (hpair : socketPair s p = .ok (fds, s')) : ¬ Sound s' := by
  intro hsound
  obtain ⟨⟨fd0, s1⟩, hfirst, hpair⟩ := bind_eq_ok hpair
  obtain ⟨⟨fd1, s2⟩, hsecond, hpair⟩ := bind_eq_ok hpair
  obtain ⟨-, rfl⟩ := Prod.mk.inj (Except.ok.inj hpair)
  obtain ⟨hrecord1, hcloses1, hnext1⟩ := addRecord_ok hfirst
  obtain ⟨hrecord2, hcloses2, hnext2⟩ := addRecord_ok hsecond
  have hopen : s2.closes (s.nextObject + 1) = 0 := by
    rw [hcloses2, hcloses1]
    exact h.closesFresh _ (Nat.le_succ _)
  have hlt : s.nextObject + 1 < s2.nextObject := by
    rw [hnext2, hnext1]
    exact Nat.lt_succ_self _
  obtain ⟨q, k, r, x, -, hx, hobject⟩ := hsound.last _ hlt hopen
  rcases hrecord2 r x hx with rfl | hx
  · exact absurd hobject (Nat.ne_of_lt (Nat.lt_succ_self _))
  · rcases hrecord1 r x hx with rfl | hx
    · exact absurd hobject (Nat.ne_of_lt (Nat.lt_succ_self _))
    · have hold := h.objectFresh r x hx
      omega

theorem fork_eq (h : Owned s) (p : ℕ) : ∃ s', fork s p = .ok s' ∧ Owned s' := by
  have hbegin : (s.tables.ctx s.nextProcess).indexSearchBegin = 0 := by
    rw [h.unborn _ (Nat.le_refl _)]
    rfl
  obtain ⟨t, ht⟩ : ∃ t : Tables ℕ, t =
      { ctx := update s.tables.ctx s.nextProcess
          { s.tables.ctx s.nextProcess with descriptors := (s.tables.ctx p).descriptors }
        isParent := fun r =>
          if ∃ i, (s.tables.ctx p).descriptors i = some r then false else s.tables.isParent r } := ⟨_, rfl⟩
  have hcopy : copyProcessDescriptors s.tables s.nextProcess p = .ok (0, t) := by
    simp [copyProcessDescriptors, hbegin, ht]
  have hfork : fork s p = .ok { s with tables := t, nextProcess := s.nextProcess + 1 } := by
    simp only [fork, hcopy, ok_bind]
  have hchild : ∀ i, (t.ctx s.nextProcess).descriptors i = s.slot p i := by
    intro i
    rw [ht]
    simp [State.slot]
  have hother : ∀ q i, q ≠ s.nextProcess → (t.ctx q).descriptors i = s.slot q i := by
    intro q i hq
    rw [ht]
    simp [State.slot, update_of_ne hq]
  have hfrom : ∀ q i r, (t.ctx q).descriptors i = some r → ∃ q', s.slot q' i = some r ∧
      (q = s.nextProcess → q' = p) ∧ (q ≠ s.nextProcess → q' = q) := by
    intro q i r hr
    by_cases hq : q = s.nextProcess
    · subst hq
      rw [hchild] at hr
      exact ⟨p, hr, fun _ => rfl, fun hne => absurd rfl hne⟩
    · rw [hother q i hq] at hr
      exact ⟨q, hr, fun heq => absurd heq hq, fun _ => rfl⟩
  have hto : ∀ {q i r}, s.slot q i = some r → (t.ctx q).descriptors i = some r := by
    intro q i r hr
    rw [hother q i (Nat.ne_of_lt (h.process_lt hr))]
    exact hr
  refine ⟨_, hfork, ⟨?_, h.sound.once, ?_⟩, ?_, h.inj, h.recordFresh, h.objectFresh, h.closesFresh, ?_, ?_⟩
  · intro q i r hr
    obtain ⟨q', hr', -⟩ := hfrom q i r hr
    exact h.sound.live q' i r hr'
  · intro o ho hopen
    obtain ⟨q, i, r, x, hr, hx, hxo⟩ := h.sound.last o ho hopen
    exact ⟨q, i, r, x, hto hr, hx, hxo⟩
  · -- a record that keeps the flag is in no slot of the parent
    intro r hparent q i q' i' hr hr'
    have hflag : (¬ ∃ k, s.slot p k = some r) ∧ s.tables.isParent r = true := by
      rw [ht] at hparent
      simp only at hparent
      split_ifs at hparent with hin
      exact ⟨hin, hparent⟩
    have hne : ∀ q i, (t.ctx q).descriptors i = some r → q ≠ s.nextProcess := by
      rintro q i hr rfl
      rw [hchild] at hr
      exact hflag.1 ⟨i, hr⟩
    have h1 := (hother q i (hne q i hr)).symm.trans hr
    have h2 := (hother q' i' (hne q' i' hr')).symm.trans hr'
    exact h.single r hflag.2 q i q' i' h1 h2
  · exact h.searched.step (c := .copy s.nextProcess p) ⟨_, hcopy⟩
  · intro q hq
    have hq' : s.nextProcess + 1 ≤ q := hq
    have hne : q ≠ s.nextProcess := by omega
    have hctx : t.ctx q = s.tables.ctx q := by
      rw [ht]
      exact update_of_ne hne ..
    exact hctx.trans (h.unborn q (by omega))

def emptied (s : State) (p : ℕ) (i : Index) : Tables ℕ :=
  { s.tables with ctx := update s.tables.ctx p (freeIndex (s.tables.ctx p) i) }

theorem removeDescriptor_eq (hi : checkIndex fd = some i) :
    (removeDescriptor s.tables p fd).2 = emptied s p i := by
  simp only [removeDescriptor, hi, emptied]

theorem emptied_self : ((emptied s p i).ctx p).descriptors i = none := by
  simp [emptied, freeIndex]

theorem emptied_of_ne (hne : (q, k) ≠ (p, i)) :
    ((emptied s p i).ctx q).descriptors k = s.slot q k := by
  simp only [emptied, State.slot]
  by_cases hq : q = p
  · subst hq
    have hk : k ≠ i := fun hk => hne (by rw [hk])
    simp only [update_self, freeIndex, update_of_ne hk]
  · rw [update_of_ne hq]

theorem emptied_some (hr : ((emptied s p i).ctx q).descriptors k = some r) : (q, k) ≠ (p, i) ∧ s.slot q k = some r := by
  have hne : (q, k) ≠ (p, i) := by
    intro heq
    obtain ⟨rfl, rfl⟩ := Prod.mk.inj heq
    rw [emptied_self] at hr
    cases hr
  exact ⟨hne, (emptied_of_ne hne).symm.trans hr⟩

section
variable (h : Owned s) (hp : p < s.nextProcess)
include h hp

theorem Owned.emptied_unborn (i : Index) (q : ℕ)
    (hq : s.nextProcess ≤ q) : (emptied s p i).ctx q = Ctx.empty ℕ :=
  (update_of_ne (by omega) ..).trans (h.unborn q hq)

theorem Owned.closeObject (hr : s.slot p i = some r) (hx : s.record r = some x)
    (hparent : s.tables.isParent r = true) :
    Owned { s with
      tables := emptied s p i
      closes := update s.closes x.object (s.closes x.object + 1)
      record := update s.record r none } := by
  have hopen : s.closes x.object = 0 := by
    obtain ⟨y, hy, hopen⟩ := h.sound.live p i r hr
    rw [hx] at hy
    cases hy
    exact hopen
  -- no other slot has the record, and no other record the object
  have hrecord : ∀ {q k r'}, (q, k) ≠ (p, i) → s.slot q k = some r' → r' ≠ r := by
    rintro q k r' hne hr' rfl
    exact hne (h.single r' hparent q k p i hr' hr)
  have hobject : ∀ {r' y}, r' ≠ r → s.record r' = some y → y.object ≠ x.object :=
    fun hne hy heq => hne (h.inj _ _ _ _ hy hx heq)
  have hold : ∀ {r' y}, update s.record r none r' = some y → r' ≠ r ∧ s.record r' = some y := by
    intro r' y hy
    by_cases hne : r' = r
    · subst hne
      rw [update_self] at hy
      cases hy
    · rw [update_of_ne hne] at hy
      exact ⟨hne, hy⟩
  refine ⟨⟨?_, ?_, ?_⟩, ?_, ?_, ?_, ?_, ?_, ?_, ?_⟩
  · intro q k r' hr'
    obtain ⟨hne, hr'⟩ := emptied_some hr'
    obtain ⟨y, hy, hyo⟩ := h.sound.live q k r' hr'
    have hrr := hrecord hne hr'
    refine ⟨y, (update_of_ne hrr ..).trans hy, ?_⟩
    exact (update_of_ne (hobject hrr hy) ..).trans hyo
  · intro o
    by_cases ho : o = x.object
    · subst ho
      simp [hopen]
    · simp only [update_of_ne ho]
      exact h.sound.once o
  · intro o ho hoopen
    have hne : o ≠ x.object := by
      rintro rfl
      simp [hopen] at hoopen
    simp only [update_of_ne hne] at hoopen
    obtain ⟨q, k, r', y, hr', hy, rfl⟩ := h.sound.last o ho hoopen
    have hrr : r' ≠ r := by
      rintro rfl
      rw [hx] at hy
      exact hne (by rw [Option.some.inj hy])
    have hqk : (q, k) ≠ (p, i) := by
      intro heq
      obtain ⟨rfl, rfl⟩ := Prod.mk.inj heq
      rw [hr] at hr'
      exact hrr (Option.some.inj hr').symm
    exact ⟨q, k, r', y, (emptied_of_ne hqk).trans hr', (update_of_ne hrr ..).trans hy, rfl⟩
  · intro r' hp' q k q' k' hr1 hr2
    exact h.single r' hp' q k q' k' (emptied_some hr1).2 (emptied_some hr2).2
  · intro r1 r2 y1 y2 hy1 hy2
    exact h.inj r1 r2 y1 y2 (hold hy1).2 (hold hy2).2
  · intro r' hr'
    by_cases hne : r' = r
    · subst hne
      exact update_self ..
    · exact (update_of_ne hne ..).trans (h.recordFresh r' hr')
  · intro r' y hy
    exact h.objectFresh r' y (hold hy).2
  · intro o ho
    have hne := Nat.ne_of_gt (Nat.lt_of_lt_of_le (h.objectFresh r x hx) ho)
    exact (update_of_ne hne ..).trans (h.closesFresh o ho)
  · exact h.searched.update ((h.searched p).freeIndex i)
  · exact h.emptied_unborn hp i

theorem Owned.closeSlot (hr : s.slot p i = some r) (hx : s.record r = some x)
    (hother : ∃ q j, (q, j) ≠ (p, i) ∧ Refers s q j x.object) :
    Owned { s with tables := emptied s p i } := by
  refine ⟨⟨?_, h.sound.once, ?_⟩, ?_, h.inj, h.recordFresh, h.objectFresh, h.closesFresh, ?_, ?_⟩
  · intro q k r' hr'
    exact h.sound.live q k r' (emptied_some hr').2
  · intro o ho hopen
    obtain ⟨q, k, r', y, hr', hy, rfl⟩ := h.sound.last o ho hopen
    by_cases hqk : (q, k) = (p, i)
    · obtain ⟨rfl, rfl⟩ := Prod.mk.inj hqk
      rw [hr] at hr'
      cases hr'
      rw [hx] at hy
      cases hy
      obtain ⟨q', k', hne, r'', z, hr'', hz, hzo⟩ := hother
      exact ⟨q', k', r'', z, (emptied_of_ne hne).trans hr'', hz, hzo⟩
    · exact ⟨q, k, r', y, (emptied_of_ne hqk).trans hr', hy, rfl⟩
  · intro r' hp' q k q' k' hr1 hr2
    exact h.single r' hp' q k q' k' (emptied_some hr1).2 (emptied_some hr2).2
  · exact h.searched.update ((h.searched p).freeIndex i)
  · exact h.emptied_unborn hp i

end

theorem close_of_keeps (h : Owned s) (hp : p < s.nextProcess) (hkeeps : Keeps s (.close p fd error)) :
    ∃ v s', close s p fd error = .ok (v, s') ∧ Owned s' ∧
      Achieves s (.close p fd error) (.value v) s' := by
  cases hget : getDescriptor s p fd with
  | none =>
    refine ⟨_, _, by simp only [close, hget]; rfl, h, h.sound, ?_⟩
    intro _ hv
    cases hv
  | some r =>
    obtain ⟨i, hi, hr⟩ := Option.bind_eq_some_iff.mp hget
    obtain ⟨x, hx, -⟩ := h.sound.live p i r hr
    have hslots : ∃ i, checkIndex fd = some i ∧ ((emptied s p i).ctx p).descriptors i = none ∧
        ∀ q j, (q, j) ≠ (p, i) → ((emptied s p i).ctx q).descriptors j = s.slot q j :=
      ⟨i, hi, emptied_self, fun q j hne => emptied_of_ne hne⟩
    cases hparent : s.tables.isParent r with
    | true =>
      by_cases herror : error = 0
      · have hclose : close s p fd error = .ok (0, { s with
            tables := emptied s p i
            closes := update s.closes x.object (s.closes x.object + 1)
            record := update s.record r none }) := by
          simp only [close, hget, hx, hparent, herror, removeDescriptor_eq hi]
          rfl
        have howned := h.closeObject hp hr hx hparent
        obtain ⟨i', hi', hslots⟩ := hslots
        obtain rfl := Option.some.inj (hi.symm.trans hi')
        exact ⟨_, _, hclose, howned, howned.sound, fun _ _ => ⟨i, hi, hslots⟩⟩
      · refine ⟨-(error : ℤ), s, by simp [close, hget, hx, hparent, herror], h, h.sound, ?_⟩
        intro _ hv
        omega
    | false =>
      have hclose : close s p fd error = .ok (0, { s with tables := emptied s p i }) := by
        simp only [close, hget, hx, hparent, removeDescriptor_eq hi]
        rfl
      have hother := (hkeeps hp i r x hi hr hx).resolve_left (by rw [hparent]; exact Bool.false_ne_true)
      have howned := h.closeSlot hp hr hx hother
      obtain ⟨i', hi', hslots⟩ := hslots
      obtain rfl := Option.some.inj (hi.symm.trans hi')
      exact ⟨_, _, hclose, howned, howned.sound, fun _ _ => ⟨i, hi, hslots⟩⟩

theorem keeps_of_close (h : Owned s) {fd v : ℤ}
    (hclose : close s p fd error = .ok (v, s')) (hsound : Sound s') : Keeps s (.close p fd error) := by
  intro hp i r x hi hr hx
  cases hparent : s.tables.isParent r with
  | true => exact .inl rfl
  | false =>
    have hget : getDescriptor s p fd = some r := by
      simp only [getDescriptor, hi, Option.bind_some, hr]
    simp only [close, hget, hx, hparent, removeDescriptor_eq hi] at hclose
    cases hclose
    have hopen : s.closes x.object = 0 := by
      obtain ⟨y, hy, hopen⟩ := h.sound.live p i r hr
      rw [hx] at hy
      cases hy
      exact hopen
    obtain ⟨q, k, r', y, hr', hy, hobject⟩ := hsound.last x.object (h.objectFresh r x hx) hopen
    obtain ⟨hne, hr'⟩ := emptied_some hr'
    exact .inr ⟨q, k, hne, r', y, hr', hy, hobject⟩

theorem owned_boot : Owned boot := by
  refine ⟨⟨?_, ?_, ?_⟩, ?_, ?_, ?_, ?_, ?_, ?_, ?_⟩
  · intro p i r hr
    cases hr
  · exact fun o => Nat.zero_le 1
  · exact fun o ho => absurd ho (Nat.not_lt_zero o)
  · intro r hr
    cases hr
  · intro r r' x x' hx
    cases hx
  · exact fun r _ => rfl
  · intro r x hx
    cases hx
  · exact fun o _ => rfl
  · exact allSearched_start
  · exact fun p _ => rfl

theorem handle_of_keeps (h : Owned s) (hkeeps : Keeps s e) :
    ∃ a s', handle s e = .ok (a, s') ∧ Owned s' ∧ Achieves s e a s' := by
  unfold handle
  split_ifs with hp
  · cases e with
    | create p isSocket =>
      change p < s.nextProcess at hp
      obtain ⟨j, hj, hlow⟩ := exists_lowest (hkeeps hp)
      have hcreate := addRecord_eq (s := { s with nextObject := s.nextObject + 1 }) h.searched
        ⟨isSocket, s.nextObject⟩ hj hlow
      have howned := h.newObject hp hj hlow isSocket
      refine ⟨.value j.val, _, ?_, howned, howned.sound, trivial⟩
      simp only [create, hcreate, ok_bind]
      rfl
    | socketPair p error =>
      have herror := hkeeps hp
      exact ⟨_, s, if_pos herror, h, h.sound, trivial⟩
    | fork p =>
      obtain ⟨s', hfork, howned⟩ := fork_eq h p
      exact ⟨.value s.nextProcess, s', by simp only [hfork, ok_bind], howned, howned.sound, trivial⟩
    | close p fd error =>
      change p < s.nextProcess at hp
      obtain ⟨v, s', hclose, howned, hachieves⟩ := close_of_keeps h hp hkeeps
      exact ⟨.value v, s', by simp only [hclose, ok_bind], howned, hachieves⟩
  · refine ⟨_, s, rfl, h, h.sound, ?_⟩
    cases e with
    | close p fd error => exact fun hlt => absurd hlt hp
    | _ => trivial

theorem keeps_of_achieves (h : Owned s) {a : Answer}
    (hhandle : handle s e = .ok (a, s')) (hachieves : Achieves s e a s') : Keeps s e := by
  have hsound := hachieves.1
  cases e with
  | create p isSocket =>
    intro hp
    by_contra hfull
    have hadd : addDescriptor s.tables p s.nextRecord = .error .endlessLoop :=
      addDescriptor_full fun i hi => hfull ⟨i, hi⟩
    simp only [handle, Event.process, hp, if_true, create, addRecord, hadd] at hhandle
    cases hhandle
  | socketPair p error =>
    rintro hp rfl
    simp only [handle, Event.process, hp, if_true] at hhandle
    obtain ⟨⟨fds, s1⟩, hpair, hhandle⟩ := bind_eq_ok hhandle
    cases hhandle
    exact not_sound_of_socketPair h hpair hsound
  | fork p => trivial
  | close p fd error =>
    intro hp
    simp only [handle, Event.process, hp, if_true] at hhandle
    obtain ⟨⟨v, s1⟩, hclose, hhandle⟩ := bind_eq_ok hhandle
    cases hhandle
    exact keeps_of_close h hclose hsound hp

theorem owned_of_run {events : List Event} (hrun : Run (Guarded Moves Keeps) boot events s) :
    Owned s := by
  apply hrun.invariant owned_boot
  rintro s e s' hs ⟨⟨a, hhandle⟩, hkeeps⟩
  obtain ⟨a', t, ht, howned, -⟩ := handle_of_keeps hs hkeeps
  rw [hhandle] at ht
  cases ht
  exact howned

/-- As long as every call keeps to the condition, slots refer to open objects only and objects
without a slot are closed, once. The next call keeps this and does what it should exactly if it keeps
to the condition too. -/
theorem lifetime_iff {events : List Event} {s : State} (hrun : Run (Guarded Moves Keeps) boot events s)
    (e : Event) :
    Sound s ∧ ((∃ a s', handle s e = .ok (a, s') ∧ Achieves s e a s') ↔ Keeps s e) := by
  have hs := owned_of_run hrun
  refine ⟨hs.sound, ?_, ?_⟩
  · rintro ⟨a, s', hhandle, hachieves⟩
    exact keeps_of_achieves hs hhandle hachieves
  · intro hkeeps
    obtain ⟨a, s', hhandle, -, hachieves⟩ := handle_of_keeps hs hkeeps
    exact ⟨a, s', hhandle, hachieves⟩

/-- A file is opened and its process forks; the child closes its descriptor. -/
theorem lifetime_child_closes : ∃ s, Run (Guarded Moves Keeps) boot [.create 0 false, .fork 0] s ∧
      ∃ a s', handle s (.close 1 0 0) = .ok (a, s') ∧ Achieves s (.close 1 0 0) a s' := by
  have hcreate : Guarded Moves Keeps boot (.create 0 false) _ := ⟨⟨_, rfl⟩, fun _ => ⟨0, rfl⟩⟩
  have hrun := Run.nil.snoc hcreate
  have hrun := hrun.snoc ⟨⟨_, rfl⟩, show Keeps _ (.fork 0) from trivial⟩
  refine ⟨_, hrun, (lifetime_iff hrun (.close 1 0 0)).2.mpr ?_⟩
  intro _ i r x hi hr hx
  cases hi
  cases hr
  cases hx
  exact .inr ⟨0, 0, by decide, 0, _, rfl, rfl, rfl⟩

/-- The two descriptors of a pair refer to one socket; when the first is closed the second refers to
a closed one. A file is never closed once its process has forked. -/
theorem pair_shares_socket :
    (∃ s, Run Moves boot [.socketPair 0 0, .close 0 0 0] s ∧ s.slot 0 1 = some 1 ∧
      s.record 1 = some ⟨true, 0⟩ ∧ s.closes 0 = 1) ∧
    ∃ s, Run Moves boot [.create 0 false, .fork 0, .close 1 0 0, .close 0 0 0] s ∧ s.closes 0 = 0 ∧
      s.nextObject = 1 := by
  have hmoves : ∀ s e t, (handle s e).map Prod.snd = .ok t → True → Moves s e t := by
    intro s e t ht _
    cases hs : handle s e with
    | error f =>
      rw [hs] at ht
      cases ht
    | ok result =>
      rw [hs] at ht
      cases ht
      exact ⟨result.1, hs⟩
  exact ⟨exists_run_of_check (fun _ _ _ => True) hmoves (by decide +kernel),
    exists_run_of_check (fun _ _ _ => True) hmoves (by decide +kernel)⟩

end Kot.Kernel.Resources
