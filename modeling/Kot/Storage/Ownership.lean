import Kot.Lib.Lists
import Kot.Lib.Run
import Mathlib.Data.List.Nodup
import Mathlib.Data.Nat.Notation

/-! Who owns a partition (`modules/storage/source/partition.c`): partitions and potential owners
are put into two lists under two locks, and each side then looks for its partner in the other
list. The sections under a lock are the steps. -/
namespace Kot.Storage

open Kot.Lib List

/-- `partition_t`. The device is known by its number. -/
structure Partition where
  device : ℕ
  start : UInt64
  size : UInt64
  partitionTypeGuid : BitVec 128
  isOwned : Bool
  deriving DecidableEq

/-- The lists, the calls between their two sections, and the partitions for which `get_ownership`
has succeeded, oldest first. Partitions and owners are known by their place in their list. -/
structure State (ω : Type) where
  partitionList : List Partition
  potentialOwnerList : List ω
  /-- partitions of calls of `new_partition` that have not looked for an owner yet -/
  searching : List ℕ
  /-- owners of calls of `add_potential_owner_storage` that have not looked for partitions yet -/
  offering : List ℕ
  granted : List ℕ

inductive Section (ω : Type)
  | addPartitionToList (device : ℕ) (start size : UInt64) (partitionTypeGuid : BitVec 128)
  | findPartitionOwner (partition : ℕ)
  | addPotentialOwnerToList (owner : ω)
  | findOwnerPartitions (owner : ℕ)

section

variable {ω : Type} (getOwnership : ω → ℕ → UInt64 → UInt64 → BitVec 128 → Bool)

/-- Whether an owner answers a partition with success. -/
def Partition.wantedBy (p : Partition) (o : ω) : Bool :=
  getOwnership o p.device p.start p.size p.partitionTypeGuid

/-- The loop of `find_partition_owner`: every answer is stored, and the first success ends it. -/
def ownerLoop (p : Partition) : List ω → Partition
  | [] => p
  | o :: os =>
    let p := { p with isOwned := p.wantedBy getOwnership o }
    if p.isOwned then p else ownerLoop p os

/-- A partition that `find_owner_partitions` looks at. -/
def offer (o : ω) (p : Partition) : Partition :=
  if p.isOwned then p else { p with isOwned := p.wantedBy getOwnership o }

/-- One section; `none` when no call is at that point. -/
def perform (s : State ω) : Section ω → Option (State ω)
  | .addPartitionToList device start size guid =>
    some { s with
      partitionList := s.partitionList ++ [⟨device, start, size, guid, false⟩]
      searching := s.partitionList.length :: s.searching }
  | .findPartitionOwner i =>
    if i ∈ s.searching then
      s.partitionList[i]?.map fun p => { s with
        partitionList := s.partitionList.set i (ownerLoop getOwnership p s.potentialOwnerList)
        searching := s.searching.erase i
        granted := s.granted ++
          if s.potentialOwnerList.any (p.wantedBy getOwnership) then [i] else [] }
    else none
  | .addPotentialOwnerToList o =>
    some { s with
      potentialOwnerList := s.potentialOwnerList ++ [o]
      offering := s.potentialOwnerList.length :: s.offering }
  | .findOwnerPartitions j =>
    if j ∈ s.offering then
      s.potentialOwnerList[j]?.map fun o => { s with
        partitionList := s.partitionList.map (offer getOwnership o)
        offering := s.offering.erase j
        granted := s.granted ++ (List.range s.partitionList.length).filter fun i =>
          s.partitionList[i]?.any fun p => !p.isOwned && p.wantedBy getOwnership o }
    else none

def sectionStep (s : State ω) (c : Section ω) (t : State ω) : Prop :=
  perform getOwnership s c = some t

end

def State.init {ω : Type} : State ω := ⟨[], [], [], [], []⟩

def State.Quiet {ω : Type} (s : State ω) : Prop := s.searching = [] ∧ s.offering = []

/-- A partition looks for an owner only as long as it has none. -/
def Unowned {ω : Type} (s : State ω) : Section ω → Prop
  | .findPartitionOwner i => ∀ p, s.partitionList[i]? = some p → p.isOwned = false
  | _ => True

section

variable {ω : Type} {getOwnership : ω → ℕ → UInt64 → UInt64 → BitVec 128 → Bool} {s t u : State ω}
  {c : Section ω} {p : Partition} {o : ω} {os : List ω}

@[simp] theorem wantedBy_isOwned (b : Bool) :
    ({ p with isOwned := b } : Partition).wantedBy getOwnership = p.wantedBy getOwnership := rfl

theorem ownerLoop_eq (h : os = [] → p.isOwned = false) : ownerLoop getOwnership p os =
    { p with isOwned := os.any (p.wantedBy getOwnership) } := by
  induction os generalizing p with
  | nil => simp [ownerLoop, ← h rfl]
  | cons o os ih =>
    rw [ownerLoop, any_cons]
    by_cases ho : p.wantedBy getOwnership o = true
    · simp [ho]
    · rw [Bool.not_eq_true] at ho
      simp only [ho, Bool.false_eq_true, if_false, Bool.false_or]
      exact ih fun _ => rfl

@[simp] theorem offer_isOwned :
    (offer getOwnership o p).isOwned = (p.isOwned || p.wantedBy getOwnership o) := by
  obtain ⟨d, a, n, g, b⟩ := p
  cases b <;> rfl

@[simp] theorem offer_wantedBy :
    (offer getOwnership o p).wantedBy getOwnership = p.wantedBy getOwnership := by
  obtain ⟨d, a, n, g, b⟩ := p
  cases b <;> rfl

/-- What holds in every state: an owned partition has been granted to a listed owner, and one that
a listed owner wants is owned or still waits for one of the two searches. -/
structure Invariant (getOwnership : ω → ℕ → UInt64 → UInt64 → BitVec 128 → Bool) (s : State ω) :
    Prop where
  owned : ∀ i p, s.partitionList[i]? = some p → p.isOwned = true →
    i ∈ s.granted ∧ ∃ o ∈ s.potentialOwnerList, p.wantedBy getOwnership o = true
  granted : ∀ i ∈ s.granted, ∃ p, s.partitionList[i]? = some p ∧ p.isOwned = true
  wanted : ∀ i p j o, s.partitionList[i]? = some p → s.potentialOwnerList[j]? = some o →
    p.wantedBy getOwnership o = true → p.isOwned = true ∨ i ∈ s.searching ∨ j ∈ s.offering

theorem Invariant.init : Invariant getOwnership .init where
  owned := by simp [State.init]
  granted := by simp [State.init]
  wanted := by simp [State.init]

namespace Invariant

section
variable (h : Invariant getOwnership s)
include h

theorem addPartitionToList {device : ℕ} {start size : UInt64} {guid : BitVec 128}
    (ht : perform getOwnership s (.addPartitionToList device start size guid) = some t) :
    Invariant getOwnership t := by
  cases ht
  refine ⟨?_, ?_, ?_⟩
  · intro i p hp howned
    rcases getElem?_concat_eq_some.mp hp with hp | ⟨rfl, rfl⟩
    · exact h.owned i p hp howned
    · cases howned
  · intro i hi
    obtain ⟨p, hp, howned⟩ := h.granted i hi
    exact ⟨p, getElem?_concat_eq_some.mpr (.inl hp), howned⟩
  · intro i p j o hp ho hw
    rcases getElem?_concat_eq_some.mp hp with hp | ⟨rfl, rfl⟩
    · exact (h.wanted i p j o hp ho hw).imp_right (.imp_left (mem_cons_of_mem _))
    · exact .inr (.inl mem_cons_self)

theorem addPotentialOwnerToList
    (ht : perform getOwnership s (.addPotentialOwnerToList o) = some t) :
    Invariant getOwnership t := by
  cases ht
  refine ⟨?_, h.granted, ?_⟩
  · intro i p hp howned
    obtain ⟨hi, o', ho', hw⟩ := h.owned i p hp howned
    exact ⟨hi, o', mem_append_left _ ho', hw⟩
  · intro i p j o' hp ho hw
    rcases getElem?_concat_eq_some.mp ho with ho | ⟨rfl, rfl⟩
    · exact (h.wanted i p j o' hp ho hw).imp_right (.imp_right (mem_cons_of_mem _))
    · exact .inr (.inr mem_cons_self)

theorem findPartitionOwner_cases {i : ℕ}
    (ht : perform getOwnership s (.findPartitionOwner i) = some t) :
    ∃ p, s.partitionList[i]? = some p ∧ t = { s with
      partitionList := s.partitionList.set i
        { p with isOwned := s.potentialOwnerList.any (p.wantedBy getOwnership) }
      searching := s.searching.erase i
      granted := s.granted ++
        if s.potentialOwnerList.any (p.wantedBy getOwnership) then [i] else [] } := by
  simp only [perform] at ht
  split_ifs at ht with hi
  obtain ⟨p, hp, rfl⟩ := Option.map_eq_some_iff.mp ht
  refine ⟨p, hp, ?_⟩
  rw [ownerLoop_eq]
  intro hnil
  by_contra howned
  obtain ⟨_, o, ho, _⟩ := h.owned i p hp (by simpa using howned)
  simp [hnil] at ho

theorem findPartitionOwner {i : ℕ} (ht : perform getOwnership s (.findPartitionOwner i) = some t) :
    Invariant getOwnership t := by
  obtain ⟨q, hq, rfl⟩ := findPartitionOwner_cases h ht
  have hlt := (List.getElem?_eq_some_iff.mp hq).1
  refine ⟨?_, ?_, ?_⟩
  · intro k p hp howned
    by_cases hk : i = k
    · subst hk
      simp only [getElem?_set_self hlt, Option.some.injEq] at hp
      subst hp
      simp only at howned
      refine ⟨by simp [howned], ?_⟩
      obtain ⟨o, ho, hw⟩ := any_eq_true.mp howned
      exact ⟨o, ho, hw⟩
    · simp only [getElem?_set_ne hk] at hp
      obtain ⟨hg, ho⟩ := h.owned k p hp howned
      exact ⟨mem_append_left _ hg, ho⟩
  · intro k hk
    by_cases hik : i = k
    · subst hik
      refine ⟨_, getElem?_set_self hlt, ?_⟩
      rcases mem_append.mp hk with hk | hk
      · obtain ⟨p, hp, howned⟩ := h.granted i hk
        obtain rfl : q = p := by rw [hq] at hp; exact Option.some.inj hp
        obtain ⟨_, o, ho, hw⟩ := h.owned i q hq howned
        exact any_eq_true.mpr ⟨o, ho, hw⟩
      · by_contra hno
        simp [hno] at hk
    · have hk' : k ∈ s.granted := by
        rcases mem_append.mp hk with hk | hk
        · exact hk
        · split_ifs at hk
          · exact absurd (mem_singleton.mp hk).symm hik
          · cases hk
      obtain ⟨p, hp, howned⟩ := h.granted k hk'
      exact ⟨p, by simp only [getElem?_set_ne hik]; exact hp, howned⟩
  · intro k p j o hp ho hw
    by_cases hk : i = k
    · subst hk
      simp only [getElem?_set_self hlt, Option.some.injEq] at hp
      subst hp
      exact .inl (any_eq_true.mpr ⟨o, mem_of_getElem? ho, hw⟩)
    · simp only [getElem?_set_ne hk] at hp
      refine (h.wanted k p j o hp ho hw).imp_right (.imp_left fun hs => ?_)
      exact (mem_erase_of_ne (Ne.symm hk)).mpr hs

end

theorem findOwnerPartitions_cases {j : ℕ}
    (ht : perform getOwnership s (.findOwnerPartitions j) = some t) :
    ∃ o, s.potentialOwnerList[j]? = some o ∧ t = { s with
      partitionList := s.partitionList.map (offer getOwnership o)
      offering := s.offering.erase j
      granted := s.granted ++ (List.range s.partitionList.length).filter fun i =>
        s.partitionList[i]?.any fun p => !p.isOwned && p.wantedBy getOwnership o } := by
  simp only [perform] at ht
  split_ifs at ht with hj
  obtain ⟨o, ho, rfl⟩ := Option.map_eq_some_iff.mp ht
  exact ⟨o, ho, rfl⟩

theorem mem_granted_by {i : ℕ} : i ∈ (List.range s.partitionList.length).filter (fun i =>
    s.partitionList[i]?.any fun p => !p.isOwned && p.wantedBy getOwnership o) ↔
    ∃ p, s.partitionList[i]? = some p ∧ p.isOwned = false ∧ p.wantedBy getOwnership o = true := by
  rw [mem_filter, mem_range, Option.any_eq_true]
  constructor
  · rintro ⟨_, p, hp, hw⟩
    exact ⟨p, hp, by simpa using hw⟩
  · rintro ⟨p, hp, hw⟩
    exact ⟨(List.getElem?_eq_some_iff.mp hp).1, p, hp, by simpa using hw⟩

theorem findOwnerPartitions {j : ℕ} (h : Invariant getOwnership s)
    (ht : perform getOwnership s (.findOwnerPartitions j) = some t) :
    Invariant getOwnership t := by
  obtain ⟨o, ho, rfl⟩ := findOwnerPartitions_cases ht
  have hmap : ∀ {i : ℕ} {p}, s.partitionList[i]? = some p →
      (s.partitionList.map (offer getOwnership o))[i]? = some (offer getOwnership o p) := by
    intro i p hp
    rw [getElem?_map, hp]
    rfl
  have hback : ∀ {i : ℕ} {p}, (s.partitionList.map (offer getOwnership o))[i]? = some p →
      ∃ q, s.partitionList[i]? = some q ∧ offer getOwnership o q = p := by
    intro i p hp
    rwa [getElem?_map, Option.map_eq_some_iff] at hp
  refine ⟨?_, ?_, ?_⟩
  · intro i p hp howned
    obtain ⟨q, hq, rfl⟩ := hback hp
    rw [offer_wantedBy]
    cases hqo : q.isOwned with
    | true =>
      obtain ⟨hi, hw⟩ := h.owned i q hq hqo
      exact ⟨mem_append_left _ hi, hw⟩
    | false =>
      have hw : q.wantedBy getOwnership o = true := by simpa [hqo] using howned
      exact ⟨mem_append_right _ (mem_granted_by.mpr ⟨q, hq, hqo, hw⟩), o,
        mem_of_getElem? ho, hw⟩
  · intro i hi
    rcases mem_append.mp hi with hi | hi
    · obtain ⟨p, hp, howned⟩ := h.granted i hi
      exact ⟨_, hmap hp, by simp [howned]⟩
    · obtain ⟨p, hp, _, hw⟩ := mem_granted_by.mp hi
      exact ⟨_, hmap hp, by simp [hw]⟩
  · intro i p k o' hp ho' hw
    obtain ⟨q, hq, rfl⟩ := hback hp
    rw [offer_wantedBy] at hw
    rw [offer_isOwned, Bool.or_eq_true]
    by_cases hk : k = j
    · subst hk
      obtain rfl : o = o' := Option.some.inj (ho.symm.trans ho')
      exact .inl (.inr hw)
    · rcases h.wanted i q k o' hq ho' hw with howned | hs | hoff
      · exact .inl (.inl howned)
      · exact .inr (.inl hs)
      · exact .inr (.inr ((mem_erase_of_ne hk).mpr hoff))

theorem step (h : Invariant getOwnership s) (ht : sectionStep getOwnership s c t) :
    Invariant getOwnership t := by
  cases c with
  | addPartitionToList => exact h.addPartitionToList ht
  | findPartitionOwner => exact h.findPartitionOwner ht
  | addPotentialOwnerToList => exact h.addPotentialOwnerToList ht
  | findOwnerPartitions => exact h.findOwnerPartitions ht

end Invariant

section
variable (h : Invariant getOwnership s) (ht : sectionStep getOwnership s c t)
include h ht

theorem granted_append : ∃ l, t.granted = s.granted ++ l := by
  cases c with
  | addPartitionToList | addPotentialOwnerToList =>
    exact ⟨[], by obtain rfl := Option.some.inj ht; simp⟩
  | findPartitionOwner i =>
    obtain ⟨p, _, rfl⟩ := h.findPartitionOwner_cases ht
    exact ⟨_, rfl⟩
  | findOwnerPartitions j =>
    obtain ⟨o, _, rfl⟩ := Invariant.findOwnerPartitions_cases ht
    exact ⟨_, rfl⟩

theorem granted_nodup_step (hnd : s.granted.Nodup) (hc : Unowned s c) : t.granted.Nodup := by
  cases c with
  | addPartitionToList | addPotentialOwnerToList => obtain rfl := Option.some.inj ht; exact hnd
  | findPartitionOwner i =>
    obtain ⟨p, hp, rfl⟩ := h.findPartitionOwner_cases ht
    refine nodup_append.mpr ⟨hnd, by split_ifs <;> simp, ?_⟩
    rintro a ha b hb rfl
    obtain ⟨q, hq, howned⟩ := h.granted a ha
    split_ifs at hb
    · obtain rfl := mem_singleton.mp hb
      have := hc q hq
      simp [howned] at this
    · cases hb
  | findOwnerPartitions j =>
    obtain ⟨o, _, rfl⟩ := Invariant.findOwnerPartitions_cases ht
    refine nodup_append.mpr ⟨hnd, nodup_range.filter _, ?_⟩
    rintro a ha b hb rfl
    obtain ⟨q, hq, howned⟩ := h.granted a ha
    obtain ⟨p, hp, hfree, _⟩ := Invariant.mem_granted_by.mp hb
    obtain rfl : q = p := by rw [hq] at hp; exact Option.some.inj hp
    simp [howned] at hfree

theorem unowned_of_granted_nodup (hnd : t.granted.Nodup) : Unowned s c := by
  cases c with
  | findPartitionOwner i =>
    intro p hp
    by_contra howned
    obtain ⟨hi, o, ho, hw⟩ := h.owned i p hp (by simpa using howned)
    obtain ⟨q, hq, rfl⟩ := h.findPartitionOwner_cases ht
    obtain rfl : q = p := by rw [hq] at hp; exact Option.some.inj hp
    rw [if_pos (any_eq_true.mpr ⟨o, ho, hw⟩)] at hnd
    exact (nodup_append.mp hnd).2.2 i hi i (by simp) rfl
  | addPartitionToList => trivial
  | addPotentialOwnerToList => trivial
  | findOwnerPartitions => trivial

end

theorem run_invariant {cs : List (Section ω)} (h : Run (sectionStep getOwnership) .init cs s) :
    Invariant getOwnership s :=
  h.invariant .init fun _ _ _ ht hstep => ht.step hstep

/-- In a run of the sections no partition is granted twice exactly if no partition looks for an
owner that it already has; and in every run, once all calls have returned, a partition that some
listed owner wants is owned. -/
theorem ownership_iff_unowned {cs : List (Section ω)}
    (h : Run (sectionStep getOwnership) .init cs s) :
    (s.granted.Nodup ∧ (s.Quiet → ∀ p ∈ s.partitionList, ∀ o ∈ s.potentialOwnerList,
      p.wantedBy getOwnership o = true → p.isOwned = true)) ↔
    Run (Guarded (sectionStep getOwnership) Unowned) .init cs s := by
  constructor
  · rintro ⟨hnd, _⟩
    refine h.guarded (P := fun s => Invariant getOwnership s → s.granted.Nodup) (fun _ => hnd) ?_ ?_
    · intro t c u hstep hu ht
      obtain ⟨l, hl⟩ := granted_append ht hstep
      have := hu (ht.step hstep)
      rw [hl] at this
      exact (nodup_append.mp this).1
    · intro cs t c u hrun hstep hu
      exact unowned_of_granted_nodup (run_invariant hrun) hstep (hu ((run_invariant hrun).step hstep))
  · intro hg
    have hinv := run_invariant h
    refine ⟨?_, ?_⟩
    · refine (hg.invariant (P := fun s => Invariant getOwnership s ∧ s.granted.Nodup)
        ⟨.init, nodup_nil⟩ ?_).2
      rintro t c u ⟨ht, hnd⟩ ⟨hstep, hc⟩
      exact ⟨ht.step hstep, granted_nodup_step ht hstep hnd hc⟩
    · rintro ⟨hs, ho⟩ p hp o hmem hw
      obtain ⟨i, hi⟩ := mem_iff_getElem?.mp hp
      obtain ⟨j, hj⟩ := mem_iff_getElem?.mp hmem
      rcases hinv.wanted i p j o hi hj hw with h | h | h
      · exact h
      · simp [hs] at h
      · simp [ho] at h

/-- A partition and an owner that wants it, added one after the other without interruption. -/
theorem ownership_of_uninterrupted : ∃ s, Run (sectionStep fun (_ : Unit) _ _ _ _ => true) .init
      [.addPartitionToList 0 0 512 0, .findPartitionOwner 0, .addPotentialOwnerToList (),
        .findOwnerPartitions 0] s ∧ s.granted.Nodup ∧ s.Quiet ∧ ∀ p ∈ s.partitionList, p.isOwned := by
  have hrun : Run (Guarded (sectionStep fun (_ : Unit) _ _ _ _ => true) Unowned) .init
      [.addPartitionToList 0 0 512 0, .findPartitionOwner 0, .addPotentialOwnerToList (),
        .findOwnerPartitions 0] ⟨[⟨0, 0, 512, 0, true⟩], [()], [], [], [0]⟩ :=
    .cons ⟨rfl, trivial⟩ (.cons ⟨rfl, fun p hp => by cases hp; rfl⟩
      (.cons ⟨rfl, trivial⟩ (.cons ⟨rfl, trivial⟩ .nil)))
  obtain ⟨hnd, howned⟩ := (ownership_iff_unowned hrun.of_guarded).mpr hrun
  exact ⟨_, hrun.of_guarded, hnd, ⟨rfl, rfl⟩,
    fun p hp => howned ⟨rfl, rfl⟩ p hp () (by simp) rfl⟩

/-- The owner looks for partitions between the two sections of `new_partition`: the partition is
granted by the owner's search and once more by its own. -/
theorem partition_granted_twice : ∃ s, Run (sectionStep fun (_ : Unit) _ _ _ _ => true) .init
      [.addPartitionToList 0 0 512 0, .addPotentialOwnerToList (), .findOwnerPartitions 0,
        .findPartitionOwner 0] s ∧ s.granted = [0, 0] ∧ ¬ s.granted.Nodup :=
  ⟨⟨[⟨0, 0, 512, 0, true⟩], [()], [], [], [0, 0]⟩,
    .cons rfl (.cons rfl (.cons rfl (.cons rfl .nil))), rfl, by decide⟩

end

end Kot.Storage
