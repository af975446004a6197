import Kot.Fat.Chains
import Kot.Fat.Records

/-! The cluster cache of `fat_read_entry_with_cache`: which cluster it holds, which one it takes it
for, and the requests that it answers as a walk from the first cluster would. -/
namespace Kot.Fat

open Kot.Kernel Kot.Lib List

variable {ctx : Context} {v : Volume} {base c : ℕ} {cs : List ℕ}

theorem entriesPerCluster_eq :
    ctx.entriesPerCluster = 16 * ctx.bpb.sectorsPerCluster.toNat := by
  rw [Context.entriesPerCluster, ctx.clusterSize_eq, Context.entrySize]
  omega

theorem Context.Sound.entriesPerCluster_pos (hs : ctx.Sound) : 0 < ctx.entriesPerCluster := by
  have := hs.sectors_pos
  rw [entriesPerCluster_eq]
  omega

theorem clusterSize_eq_mul (ctx : Context) : ctx.clusterSize = 32 * ctx.entriesPerCluster := by
  rw [entriesPerCluster_eq, ctx.clusterSize_eq]
  omega

/-- The record that a walk from the first cluster of a chain finds. -/
def plainEntry (ctx : Context) (v : Volume) (cs : List ℕ) (number : ℕ) : Option Entry :=
  (cs[number / ctx.entriesPerCluster]?).map fun c =>
    entryAt (v.clusterBytes ctx c) (number % ctx.entriesPerCluster)

variable {d i m number n : ℕ} {k : Cache} {stale : List UInt8} {h : Held} {numbers : List ℕ}

theorem followChain_of_walk (hs : ctx.Sound) {l : List ℕ} (hw : Walk v.next IsEnd c l d)
    (hd : IsEnd d) (hl : ∀ a ∈ l, ctx.IsData a) (hne : l ≠ []) :
    followChain ctx v n c = .ok l[n]? := by
  induction n generalizing c l with
  | zero =>
    obtain ⟨a, l, rfl⟩ := exists_cons_of_ne_nil hne
    obtain ⟨rfl, _⟩ := hw
    rfl
  | succ n ih =>
    obtain ⟨a, l, rfl⟩ := exists_cons_of_ne_nil hne
    obtain ⟨rfl, _, hw⟩ := hw
    have hnext : v.fat c % 2 ^ 28 = v.next c := rfl
    rw [followChain, if_pos (hs.lt_fatEntryCount (hl c (by simp)))]
    simp only [hnext]
    cases l with
    | nil =>
      obtain rfl : v.next c = d := hw
      rw [if_pos hd]
      rfl
    | cons b l =>
      rw [if_neg (hw.1 ▸ hw.2.1)]
      exact ih hw (fun x hx => hl x (by simp [hx])) (by simp)

theorem Chain.followChain (hs : ctx.Sound) (h : Chain ctx v.next base cs) {a : ℕ}
    (ha : cs[i]? = some a) (n : ℕ) : Fat.followChain ctx v n a = .ok cs[i + n]? := by
  obtain ⟨⟨d, hw, hd⟩, hdata⟩ := h
  have hsplit := (take_append_drop i cs).symm
  rw [hsplit] at hw
  obtain ⟨e, _, hw⟩ := walk_append.mp hw
  have hdrop : cs.drop i = a :: cs.drop (i + 1) := by
    obtain ⟨hi, rfl⟩ := List.getElem?_eq_some_iff.mp ha
    exact drop_eq_getElem_cons hi
  have hea : e = a := by
    rw [hdrop] at hw
    exact hw.1
  subst hea
  rw [followChain_of_walk hs hw (isEnd_of_le hd) (fun x hx => hdata x (mem_of_mem_drop hx))
    (by simp [hdrop]), getElem?_drop]

theorem Chain.getElem?_zero (h : Chain ctx v.next base cs) (hne : cs ≠ []) : cs[0]? = some base := by
  obtain ⟨a, l, rfl⟩ := exists_cons_of_ne_nil hne
  obtain ⟨⟨d, hw, _⟩, _⟩ := h
  rw [hw.1]
  rfl

/-- What the variables of a caller stand for. -/
structure Held where
  /-- the place in the chain that the cache takes itself for -/
  label : ℕ
  /-- the place of the cluster that is in the buffer -/
  place : Option ℕ
  deriving DecidableEq

/-- One less, as `uint32_t`. -/
@[irreducible] def countDown (id : ℕ) : ℕ := (id + 2 ^ 32 - 1) % 2 ^ 32

theorem countDown_succ (h : m < 2 ^ 32) : countDown (m + 1) = m := by
  unfold countDown
  omega

def Held.empty : Held := ⟨2 ^ 32 - 1, none⟩

/-- The place in a chain of `length` clusters that a request for the cluster `m` is answered with,
`some none` for `NULL`. The answer of an empty buffer is not foreseeable. -/
def Held.answer (length : ℕ) (h : Held) (m : ℕ) : Option (Option ℕ) :=
  if m = h.label then h.place.map some
  else if h.label ≠ 0 ∧ h.label < m then
    h.place.map fun a => if a + (m - h.label) < length then some (a + (m - h.label)) else none
  else some (if m < length then some m else none)

/-- The cache after a request with the given answer. The label is counted down before the walk and
stays so when the walk fails. -/
def Held.after (h : Held) (m : ℕ) : Option ℕ → Held
  | some i => if m = h.label then h else ⟨m, some i⟩
  | none => { h with label := countDown h.label }

/-- The request is answered as without a cache. -/
def Held.Right (length : ℕ) (h : Held) (m : ℕ) : Prop :=
  h.answer length m = some (if m < length then some m else none)

instance (length : ℕ) (h : Held) (m : ℕ) : Decidable (h.Right length m) :=
  inferInstanceAs (Decidable (_ = _))

/-- The variables of a caller whose buffer was `stale` at the start. -/
structure Matches (ctx : Context) (v : Volume) (cs : List ℕ) (stale : List UInt8) (h : Held)
    (k : Cache) : Prop where
  label : countDown k.id = h.label
  held : ∀ a, h.place = some a → ∃ c, cs[a]? = some c ∧ k.last = c ∧ k.buffer = v.clusterBytes ctx c
  stale : h.place = none → k.buffer = stale ∧ k.last = 0

theorem matches_empty :
    Matches ctx v cs stale .empty ⟨stale, 0, 0⟩ where
  label := show countDown 0 = 2 ^ 32 - 1 by unfold countDown; omega
  held := by rintro a ⟨⟩
  stale := fun _ => ⟨rfl, rfl⟩

/-- The end of a walk to the place `i` of a chain. -/
def walkResult (ctx : Context) (v : Volume) (number : ℕ) (k : Cache) (id : ℕ) :
    Option ℕ → Option Entry × Cache
  | none => (none, { k with id })
  | some cluster =>
    let buffer := (fatReadCluster ctx v.disk cluster 0 ctx.clusterSize).getD k.buffer
    (some (entryAt buffer (number % ctx.entriesPerCluster)),
      ⟨buffer, number / ctx.entriesPerCluster + 1, cluster⟩)

theorem fatReadEntryWithCache_eq (hs : ctx.Sound) {label : ℕ} (hl : countDown k.id = label) :
    fatReadEntryWithCache ctx v base number k =
      if number / ctx.entriesPerCluster = label then
        .ok (some (entryAt k.buffer (number % ctx.entriesPerCluster)), k)
      else if label ≠ 0 ∧ label < number / ctx.entriesPerCluster then
        (followChain ctx v (number / ctx.entriesPerCluster - label) k.last).map
          (walkResult ctx v number k label)
      else (followChain ctx v (number / ctx.entriesPerCluster) base).map
          (walkResult ctx v number k label) := by
  have hpos := hs.entriesPerCluster_pos
  unfold countDown at hl
  rw [fatReadEntryWithCache, if_neg (by omega), hl]
  simp only
  by_cases hm : number / ctx.entriesPerCluster = label
  · rw [if_pos hm, if_neg (not_not.mpr hm)]
  · rw [if_neg hm, if_pos hm]
    by_cases hwalk : label ≠ 0 ∧ label < number / ctx.entriesPerCluster
    · rw [if_pos hwalk, if_pos hwalk]
      cases followChain ctx v (number / ctx.entriesPerCluster - label) k.last with
      | error f => rfl
      | ok r => cases r <;> rfl
    · rw [if_neg hwalk, if_neg hwalk]
      cases followChain ctx v (number / ctx.entriesPerCluster) base with
      | error f => rfl
      | ok r => cases r <;> rfl

theorem walkResult_matches (hs : ctx.Sound) (hdata : ∀ a ∈ cs, ctx.IsData a)
    (hm : Matches ctx v cs stale h k)
    (hn : number < 2 ^ 32) (hlabel : number / ctx.entriesPerCluster ≠ h.label) :
    ∃ k', walkResult ctx v number k h.label cs[i]? = ((cs[i]?).map fun c =>
          entryAt (v.clusterBytes ctx c) (number % ctx.entriesPerCluster), k') ∧
      Matches ctx v cs stale
        (h.after (number / ctx.entriesPerCluster) (if i < cs.length then some i else none)) k' := by
  have hcount : number / ctx.entriesPerCluster < 2 ^ 32 := (Nat.div_le_self ..).trans_lt hn
  cases hi : cs[i]? with
  | none =>
    rw [if_neg (Nat.not_lt.mpr (getElem?_eq_none_iff.mp hi))]
    refine ⟨{ k with id := h.label }, rfl, ?_⟩
    rw [Held.after]
    exact ⟨rfl, hm.held, hm.stale⟩
  | some c =>
    have hc := hdata c (mem_of_getElem? hi)
    have hread : (fatReadCluster ctx v.disk c 0 ctx.clusterSize).getD k.buffer =
        v.clusterBytes ctx c := by
      rw [Volume.readCluster_eq hs hc (by omega), drop_zero,
        take_of_length_le (Volume.clusterBytes_length hc).le]
      rfl
    rw [if_pos (List.getElem?_eq_some_iff.mp hi).1]
    refine ⟨⟨v.clusterBytes ctx c, number / ctx.entriesPerCluster + 1, c⟩, ?_, ?_⟩
    · simp only [walkResult, hread, Option.map_some]
    · simp only [Held.after, if_neg hlabel]
      refine ⟨?_, ?_, ?_⟩
      · exact countDown_succ hcount
      · rintro a ⟨⟩
        exact ⟨c, hi, rfl, rfl⟩
      · rintro ⟨⟩

theorem bind_place {β : Type} {f : ℕ → β} :
    ((if i < cs.length then some i else none).bind fun i => (cs[i]?).map f) = (cs[i]?).map f := by
  split_ifs with hi
  · rfl
  · rw [getElem?_eq_none (by omega)]
    rfl

theorem readEntryWithCache_answer (hs : ctx.Sound) (hc : Chain ctx v.next base cs) (hne : cs ≠ [])
    (hm : Matches ctx v cs stale h k)
    (hn : number < 2 ^ 32) {r : Option ℕ}
    (hr : h.answer cs.length (number / ctx.entriesPerCluster) = some r) :
    ∃ k', fatReadEntryWithCache ctx v base number k = .ok (r.bind fun i => (cs[i]?).map fun c =>
          entryAt (v.clusterBytes ctx c) (number % ctx.entriesPerCluster), k') ∧
      Matches ctx v cs stale (h.after (number / ctx.entriesPerCluster) r) k' := by
  rw [fatReadEntryWithCache_eq hs hm.label]
  unfold Held.answer at hr
  by_cases hlabel : number / ctx.entriesPerCluster = h.label
  · rw [if_pos hlabel] at hr ⊢
    obtain ⟨a, ha, rfl⟩ := Option.map_eq_some_iff.mp hr
    obtain ⟨c, hac, _, hbuffer⟩ := hm.held a ha
    refine ⟨k, ?_, ?_⟩
    · rw [Option.bind_some, hac, hbuffer]
      rfl
    · rw [Held.after, if_pos hlabel]
      exact hm
  · rw [if_neg hlabel] at hr ⊢
    by_cases hwalk : h.label ≠ 0 ∧ h.label < number / ctx.entriesPerCluster
    · rw [if_pos hwalk] at hr ⊢
      obtain ⟨a, ha, rfl⟩ := Option.map_eq_some_iff.mp hr
      obtain ⟨c, hac, hlast, _⟩ := hm.held a ha
      obtain ⟨k', hk', hmatch⟩ := walkResult_matches hs hc.2 hm hn hlabel
      refine ⟨k', ?_, hmatch⟩
      rw [hlast, hc.followChain hs hac, Except.map, hk', bind_place]
    · rw [if_neg hwalk] at hr ⊢
      cases hr
      obtain ⟨k', hk', hmatch⟩ := walkResult_matches hs hc.2 hm hn hlabel
      refine ⟨k', ?_, hmatch⟩
      rw [hc.followChain hs (hc.getElem?_zero hne), Nat.zero_add, Except.map, hk', bind_place]

theorem readEntryWithCache_right (hs : ctx.Sound) (hc : Chain ctx v.next base cs) (hne : cs ≠ [])
    (hm : Matches ctx v cs stale h k)
    (hn : number < 2 ^ 32) (hr : h.Right cs.length (number / ctx.entriesPerCluster)) :
    ∃ k', fatReadEntryWithCache ctx v base number k = .ok (plainEntry ctx v cs number, k') ∧
      Matches ctx v cs stale (h.after (number / ctx.entriesPerCluster)
        (if number / ctx.entriesPerCluster < cs.length then
          some (number / ctx.entriesPerCluster) else none)) k' := by
  obtain ⟨k', hk', hmatch⟩ := readEntryWithCache_answer hs hc hne hm hn hr
  rw [bind_place] at hk'
  exact ⟨k', hk', hmatch⟩

/-- Calls of `fat_read_entry_with_cache` with the same variables. -/
def readEntries (ctx : Context) (v : Volume) (base : ℕ) :
    List ℕ → Cache → Except Fault (List (Option Entry) × Cache)
  | [], k => .ok ([], k)
  | number :: numbers, k => do
    let (e, k) ← fatReadEntryWithCache ctx v base number k
    let (es, k) ← readEntries ctx v base numbers k
    .ok (e :: es, k)

def AllRight (length : ℕ) : Held → List ℕ → Prop
  | _, [] => True
  | h, m :: ms => h.Right length m ∧
      AllRight length (h.after m (if m < length then some m else none)) ms

instance AllRight.decidable (length : ℕ) : (h : Held) → (ms : List ℕ) → Decidable (AllRight length h ms)
  | _, [] => isTrue trivial
  | h, m :: ms =>
    have := AllRight.decidable length (h.after m (if m < length then some m else none)) ms
    inferInstanceAs (Decidable (_ ∧ _))

theorem readEntries_cons {k k1 : Cache} {e : Option Entry}
    (h : fatReadEntryWithCache ctx v base number k = .ok (e, k1)) :
    readEntries ctx v base (number :: numbers) k =
      (readEntries ctx v base numbers k1).map fun r => (e :: r.1, r.2) := by
  rw [readEntries, h]
  simp only [ok_bind]
  cases readEntries ctx v base numbers k1 <;> rfl

theorem readEntries_of_allRight (hs : ctx.Sound) (hc : Chain ctx v.next base cs) (hne : cs ≠ [])
    (hn : ∀ n ∈ numbers, n < 2 ^ 32) (hm : Matches ctx v cs stale h k)
    (hr : AllRight cs.length h (numbers.map (· / ctx.entriesPerCluster))) :
    ∃ k', readEntries ctx v base numbers k = .ok (numbers.map (plainEntry ctx v cs), k') := by
  induction numbers generalizing h k with
  | nil => exact ⟨k, rfl⟩
  | cons n numbers ih =>
    obtain ⟨k1, hk1, hm1⟩ := readEntryWithCache_right hs hc hne hm (hn n (by simp)) hr.1
    obtain ⟨k2, hk2⟩ := ih (fun x hx => hn x (by simp [hx])) hm1 hr.2
    refine ⟨k2, ?_⟩
    rw [readEntries_cons hk1, hk2]
    rfl

/-- The volume with ones in a cluster and zeros everywhere else. -/
def marked (ctx : Context) (v : Volume) (c : ℕ) : Volume :=
  Volume.put { v with disk := fun _ => 0 } ctx c 0 (List.replicate ctx.clusterSize 1)

theorem marked_clusterBytes (hs : ctx.Sound) (hc : ctx.IsData c)
    (hd : ctx.IsData d) : (marked ctx v c).clusterBytes ctx d =
      List.replicate ctx.clusterSize (if d = c then 1 else 0) := by
  have hview : (marked ctx v c).clusterBytes ctx = _ := congrArg View.data
    (Volume.put_view hs hc (by simp))
  have hzero : ∀ d, ctx.IsData d → Volume.clusterBytes { v with disk := fun _ => 0 } ctx d =
      List.replicate ctx.clusterSize 0 := by
    intro d hd
    rw [Volume.clusterBytes, if_pos hd, readAt, map_const', length_range]
  rw [hview]
  by_cases hdc : d = c
  · subst hdc
    rw [if_pos rfl, hzero d hd]
    show Function.update _ d _ d = _
    rw [Function.update_self, splice]
    simp
  · rw [if_neg hdc, ← hzero d hd]
    exact Function.update_of_ne hdc ..

theorem marked_next : (marked ctx v c).next = v.next := by
  apply Volume.next_congr
  unfold marked Volume.put
  rfl

theorem entryAt_byte {l : List UInt8} : (entryAt l i).byte 0 = l.getD (32 * i) 0 := by
  rw [entryAt, Entry.ofBytes_byte (by omega), getD_eq_getElem?_getD, getElem?_drop,
    getD_eq_getElem?_getD]
  rfl

theorem entryAt_marked (hs : ctx.Sound) (hc : ctx.IsData c) (hd : ctx.IsData d) :
    (entryAt ((marked ctx v c).clusterBytes ctx d) (number % ctx.entriesPerCluster)).byte 0 =
      if d = c then 1 else 0 := by
  have hlt := Nat.mod_lt number hs.entriesPerCluster_pos
  rw [entryAt_byte, marked_clusterBytes hs hc hd, getD_eq_getElem?_getD,
    getElem?_replicate, if_pos (by rw [clusterSize_eq_mul]; omega)]
  rfl

/-- The volume with other values in the two entries of the table that belong to no cluster. -/
def relinked (v : Volume) (e : ℕ) : Volume := { v with fat := fun x => if x < 2 then e else v.fat x }

theorem Chain.relinked (h : Chain ctx v.next base cs) (e : ℕ) :
    Chain ctx (Fat.relinked v e).next base cs := by
  refine h.congr fun a ha => ?_
  have hlt : ¬ a < 2 := Nat.not_lt.mpr (h.2 a ha).1
  simp only [Volume.next, Fat.relinked, if_neg hlt]

theorem relinked_one (hi : i < 2) : (relinked v 1).fat i % 2 ^ 28 = 1 := by
  have hfat : (relinked v 1).fat i = 1 := if_pos hi
  omega

theorem followChain_relinked_one (h : 2 ≤ ctx.fatEntryCount) (hi : i < 2) :
    followChain ctx (relinked v 1) (n + 1) i = .ok (some 1) := by
  have hend : ¬ IsEnd 1 := by decide
  induction n generalizing i with
  | zero =>
    rw [followChain, if_pos (by omega)]
    simp only [relinked_one hi, if_neg hend]
    rfl
  | succ n ih =>
    rw [followChain, if_pos (by omega)]
    simp only [relinked_one hi, if_neg hend]
    exact ih (by omega)

theorem answer_eq_none {m length : ℕ} (hr : h.answer length m = none) :
    h.place = none ∧ (m = h.label ∨ m ≠ h.label ∧ h.label ≠ 0 ∧ h.label < m) := by
  unfold Held.answer at hr
  by_cases hlabel : m = h.label
  · rw [if_pos hlabel, Option.map_eq_none_iff] at hr
    exact ⟨hr, .inl hlabel⟩
  · rw [if_neg hlabel] at hr
    split_ifs at hr with hwalk
    exact ⟨Option.map_eq_none_iff.mp hr, .inr ⟨hlabel, hwalk⟩⟩

theorem Matches.answer_mem (hm : Matches ctx v cs stale h k) (hr : h.answer cs.length m = some (some i)) :
    ∃ c, cs[i]? = some c := by
  suffices hi : i < cs.length from ⟨_, getElem?_eq_getElem hi⟩
  unfold Held.answer at hr
  split_ifs at hr with hlabel hwalk hlt
  · obtain ⟨a, ha, hai⟩ := Option.map_eq_some_iff.mp hr
    obtain ⟨c, hc, _⟩ := hm.held a ha
    cases hai
    exact (List.getElem?_eq_some_iff.mp hc).1
  · obtain ⟨a, _, hai⟩ := Option.map_eq_some_iff.mp hr
    split_ifs at hai with hlt
    cases hai
    exact hlt
  · obtain rfl := Option.some.inj (Option.some.inj hr)
    exact hlt
  · cases hr

/-- A request of which not every volume with the chain gives the right record. -/
def Misled (ctx : Context) (base : ℕ) (cs : List ℕ) (h : Held) (number : ℕ) : Prop :=
  ∃ v stale, Chain ctx v.next base cs ∧ ∀ k, Matches ctx v cs stale h k →
    ∀ k', fatReadEntryWithCache ctx v base number k ≠ .ok (plainEntry ctx v cs number, k')

section

variable (hs : ctx.Sound) (hc : Chain ctx v.next base cs) (hne : cs ≠ []) {h : Held} {number : ℕ}
  (hn : number < 2 ^ 32)

include hs hc hne hn

theorem misled_of_answer {r : Option ℕ}
    (hr : h.answer cs.length (number / ctx.entriesPerCluster) = some r)
    (hwrong : r ≠ if number / ctx.entriesPerCluster < cs.length then
    some (number / ctx.entriesPerCluster) else none) : Misled ctx base cs h number := by
  cases hm : cs[number / ctx.entriesPerCluster]? with
  | none =>
    rw [if_neg (Nat.not_lt.mpr (getElem?_eq_none_iff.mp hm))] at hwrong
    obtain ⟨i, rfl⟩ := Option.ne_none_iff_exists'.mp hwrong
    refine ⟨v, [], hc, fun k hk k' heq => ?_⟩
    obtain ⟨k1, hk1, hmatch⟩ := readEntryWithCache_answer hs hc hne hk hn hr
    obtain ⟨c', hc'⟩ := hk.answer_mem hr
    rw [heq, plainEntry, hm, Option.bind_some, hc'] at hk1
    cases hk1
  | some c =>
    rw [if_pos (List.getElem?_eq_some_iff.mp hm).1] at hwrong
    have hdata := hc.2 c (mem_of_getElem? hm)
    have hc' : Chain ctx (marked ctx v c).next base cs := by rwa [marked_next]
    refine ⟨marked ctx v c, [], hc', fun k hk k' heq => ?_⟩
    obtain ⟨k1, hk1, hmatch⟩ := readEntryWithCache_answer hs hc' hne hk hn hr
    rw [heq, plainEntry, hm] at hk1
    cases r with
    | none => cases hk1
    | some i =>
      obtain ⟨d, hd⟩ := hk.answer_mem hr
      have hdc : d ≠ c := by
        rintro rfl
        obtain ⟨hi, hid⟩ := List.getElem?_eq_some_iff.mp hd
        obtain ⟨hj, hjd⟩ := List.getElem?_eq_some_iff.mp hm
        exact hwrong (congrArg some (hc.nodup.getElem_inj_iff.mp (hid.trans hjd.symm)))
      rw [Option.bind_some, hd] at hk1
      have hbyte := congrArg (Entry.byte · 0) (Option.some.inj (Prod.mk.inj (Except.ok.inj hk1)).1)
      simp only [entryAt_marked hs hdata hdata,
        entryAt_marked hs hdata (hc.2 d (mem_of_getElem? hd)), if_neg hdc] at hbyte
      exact absurd hbyte (by simp)

omit hne hn in
theorem misled_of_none (hr : h.answer cs.length (number / ctx.entriesPerCluster) = none) :
    Misled ctx base cs h number := by
  obtain ⟨hplace, hlabel | ⟨hlabel, hwalk⟩⟩ := answer_eq_none hr
  · cases hm : cs[number / ctx.entriesPerCluster]? with
    | none =>
      refine ⟨v, [], hc, fun k hk k' heq => ?_⟩
      rw [fatReadEntryWithCache_eq hs hk.label, if_pos hlabel, plainEntry, hm] at heq
      cases heq
    | some c =>
      have hdata := hc.2 c (mem_of_getElem? hm)
      have hc' : Chain ctx (marked ctx v c).next base cs := by rwa [marked_next]
      refine ⟨marked ctx v c, [], hc', fun k hk k' heq => ?_⟩
      rw [fatReadEntryWithCache_eq hs hk.label, if_pos hlabel, plainEntry, hm,
        (hk.stale hplace).1] at heq
      have hbyte := congrArg (Entry.byte · 0) (Option.some.inj (Prod.mk.inj (Except.ok.inj heq)).1)
      simp only [entryAt_marked hs hdata hdata, entryAt_byte] at hbyte
      exact absurd hbyte (by simp)
  · -- the walk starts at the cluster 0, whose entry of the table belongs to no chain
    have hsteps : number / ctx.entriesPerCluster - h.label =
        (number / ctx.entriesPerCluster - h.label - 1) + 1 := by omega
    have hcount := hs.entries_ge
    cases hm : cs[number / ctx.entriesPerCluster]? with
    | none =>
      refine ⟨relinked v 1, [], hc.relinked 1, fun k hk k' heq => ?_⟩
      rw [fatReadEntryWithCache_eq hs hk.label, if_neg hlabel, if_pos hwalk,
        (hk.stale hplace).2, plainEntry, hm, hsteps, followChain_relinked_one (by omega) (by omega)] at heq
      cases heq
    | some c =>
      refine ⟨relinked v 0, [], hc.relinked 0, fun k hk k' heq => ?_⟩
      rw [fatReadEntryWithCache_eq hs hk.label, if_neg hlabel, if_pos hwalk,
        (hk.stale hplace).2, plainEntry, hm, hsteps, followChain, if_pos (by omega)] at heq
      cases heq

end

theorem misled_of_not_allRight (hs : ctx.Sound) (hc : Chain ctx v.next base cs) (hne : cs ≠ [])
    (hn : ∀ n ∈ numbers, n < 2 ^ 32)
    (hr : ¬ AllRight cs.length h (numbers.map (· / ctx.entriesPerCluster))) :
    ∃ v stale, Chain ctx v.next base cs ∧ ∀ k, Matches ctx v cs stale h k →
      ∀ k', readEntries ctx v base numbers k ≠ .ok (numbers.map (plainEntry ctx v cs), k') := by
  induction numbers generalizing h with
  | nil => exact absurd trivial hr
  | cons n numbers ih =>
    have hn1 := hn n (by simp)
    by_cases hright : h.Right cs.length (n / ctx.entriesPerCluster)
    · obtain ⟨v', stale, hc', hno⟩ := ih (fun x hx => hn x (by simp [hx]))
        fun hrest => hr ⟨hright, hrest⟩
      refine ⟨v', stale, hc', fun k hk k' heq => ?_⟩
      obtain ⟨k1, hk1, hm1⟩ := readEntryWithCache_right hs hc' hne hk hn1 hright
      rw [readEntries_cons hk1] at heq
      cases hrest : readEntries ctx v' base numbers k1 with
      | error f =>
        rw [hrest] at heq
        cases heq
      | ok r =>
        rw [hrest] at heq
        obtain ⟨hes, _⟩ := Prod.mk.inj (Except.ok.inj heq)
        refine hno k1 hm1 r.2 ?_
        rw [hrest, ← (List.cons.inj hes).2]
    · have hmis : Misled ctx base cs h n := by
        cases ha : h.answer cs.length (n / ctx.entriesPerCluster) with
        | none => exact misled_of_none hs hc ha
        | some r =>
          refine misled_of_answer hs hc hne hn1 ha fun hr => hright ?_
          rw [Held.Right, ha, hr]
      obtain ⟨v', stale, hc', hno⟩ := hmis
      refine ⟨v', stale, hc', fun k hk k' heq => ?_⟩
      cases hfirst : fatReadEntryWithCache ctx v' base n k with
      | error f =>
        rw [readEntries, hfirst] at heq
        cases heq
      | ok r =>
        obtain ⟨e, k1⟩ := r
        rw [readEntries_cons hfirst] at heq
        cases hrest : readEntries ctx v' base numbers k1 with
        | error f =>
          rw [hrest] at heq
          cases heq
        | ok r =>
          rw [hrest] at heq
          obtain ⟨hes, _⟩ := Prod.mk.inj (Except.ok.inj heq)
          refine hno k hk k1 ?_
          rw [hfirst, (List.cons.inj hes).1]

/-- The calls of a sequence return, on every volume with the chain, the records of a walk from its
first cluster exactly if every request meets the state that the ones before it leave. -/
theorem cache_transparent_iff (ctx : Context) (hs : ctx.Sound) (v : Volume) (base : ℕ) (cs : List ℕ)
    (hc : Chain ctx v.next base cs) (hne : cs ≠ []) (numbers : List ℕ)
    (hn : ∀ n ∈ numbers, n < 2 ^ 32) :
    (∀ v' stale, Chain ctx v'.next base cs → ∃ k, readEntries ctx v' base numbers ⟨stale, 0, 0⟩ =
        .ok (numbers.map (plainEntry ctx v' cs), k)) ↔
      AllRight cs.length .empty (numbers.map (· / ctx.entriesPerCluster)) := by
  constructor
  · intro hall
    by_contra hr
    obtain ⟨v', stale, hc', hno⟩ := misled_of_not_allRight hs hc hne hn hr
    obtain ⟨k, hk⟩ := hall v' stale hc'
    exact hno _ matches_empty k hk
  · intro hr v' stale hc'
    exact readEntries_of_allRight hs hc' hne hn matches_empty hr

/-- A volume of 64 MiB with clusters of one sector. -/
def smallContext : Context := { Request.sample with fsi := List.replicate 512 0 }

theorem smallContext_sound : smallContext.Sound where
  consistent := by constructor <;> decide +kernel
  fsi_length := by decide +kernel
  fats_ge := by decide +kernel
  fsInfo_pos := by decide +kernel
  fsInfo_lt := by decide +kernel
  sectors_pos := by decide +kernel
  entries_ge := by decide +kernel
  entries_lt := by decide +kernel
  entries_le := by decide +kernel

def smallVolume : Volume where
  disk := fun _ => 0
  fat := fun c => if c = 2 then 3 else if c = 3 then 4 else if c = 4 then 0xFFFFFFF else 0
  freeClusterCount := 0
  nextFreeCluster := 2
  buffer := []

theorem smallVolume_chain : Chain smallContext smallVolume.next 2 [2, 3, 4] := by
  refine ⟨⟨0xFFFFFFF, ⟨rfl, by decide, ?_⟩, by decide⟩, by decide +kernel⟩
  exact ⟨by decide +kernel, by decide, by decide +kernel, by decide,
    show smallVolume.next 4 = 0xFFFFFFF by decide +kernel⟩

theorem cache_transparent_scan :
    ∃ k, readEntries smallContext smallVolume 2 [0, 16, 32, 0, 48] ⟨[], 0, 0⟩ =
      .ok ([0, 16, 32, 0, 48].map (plainEntry smallContext smallVolume [2, 3, 4]), k) :=
  (cache_transparent_iff smallContext smallContext_sound smallVolume 2 [2, 3, 4] smallVolume_chain
    (by decide) [0, 16, 32, 0, 48] (by decide)).mpr (by decide +kernel) smallVolume []
    smallVolume_chain

/-- After a request beyond the end the cache takes its cluster for the one before: the record of
the second cluster, which begins with one, is answered with that of the third. -/
theorem cache_is_misled :
    ((readEntries smallContext (marked smallContext smallVolume 3) 2 [32, 48, 16]
        ⟨[], 0, 0⟩).toOption.map fun r => r.1.map (Option.map (Entry.byte · 0))) =
      some [some 0, none, some 0] ∧
    (plainEntry smallContext (marked smallContext smallVolume 3) [2, 3, 4] 16).map
      (Entry.byte · 0) = some 1 := by
  constructor <;> decide +kernel

end Kot.Fat
