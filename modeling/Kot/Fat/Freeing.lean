import Kot.Fat.Chains

/-! Freeing along links of any shape: a turn takes the link that it has followed out of the table,
so the loop ends on a cycle as well, and what it has freed is what the links lead to. -/
namespace Kot.Fat

open Kot.Lib Kot.Lib.Program Function

/-- The links from a cluster lead to another before they come to an end mark. -/
inductive Volume.Reaches (v : Volume) : ℕ → ℕ → Prop
  | here {c : ℕ} : ¬ IsEnd c → v.Reaches c c
  | next {c a : ℕ} : ¬ IsEnd c → v.Reaches (v.next c) a → v.Reaches c a

/-- The entries that are reached from `c` are zero, the others are untouched, and a chain is
counted with its length. -/
structure Volume.Freed (v : Volume) (c : ℕ) (v' : Volume) : Prop where
  zeroed : ∀ a, v.Reaches c a → v'.fat a = linkedEntry (v.fat a) 0
  kept : ∀ a, ¬ v.Reaches c a → v'.fat a = v.fat a
  counted : ∀ l d, Walk v.next IsEnd c l d → IsEnd d →
    v'.freeClusterCount = (v.freeClusterCount + l.length) % 2 ^ 32

variable {ctx : Context} {v v1 : Volume} {a c d : ℕ}

theorem writePartition_ok (ctx : Context) (v : Volume) (start : ℕ) (bytes : List UInt8) :
    ∃ r v', writePartition ctx start bytes v = .ok (r, v') ∧ v'.fat = v.fat ∧
      v'.freeClusterCount = v.freeClusterCount := by
  rw [writePartition]
  cases ctx.partition.access start bytes.length <;> exact ⟨_, _, rfl, rfl, rfl⟩

theorem freeCluster_ok (hc : c < ctx.fatEntryCount) : ∃ v', fatFreeCluster ctx c v = .ok ((), v') ∧
    v'.fat = update v.fat c (linkedEntry (v.fat c) 0) ∧
    v'.freeClusterCount = (v.freeClusterCount + 1) % 2 ^ 32 := by
  have hstore : fatStoreEntry ctx c (linkedEntry (v.fat c) 0) v =
      .ok ((), { v with fat := update v.fat c (linkedEntry (v.fat c) 0) }) := if_pos hc
  obtain ⟨_, v1, h1, hf1, hn1⟩ := writePartition_ok ctx _ (ctx.fat1Position + c * 4) (toLe 4 _)
  obtain ⟨_, v2, h2, hf2, hn2⟩ := writePartition_ok ctx v1 (ctx.fat2Position + c * 4) (toLe 4 _)
  obtain ⟨_, v3, h3, hf3, hn3⟩ := writePartition_ok ctx _
    (lbaToBytes ctx.bpb.sectorNumberFsInfo.toNat) (ctx.fsInfoSector _)
  have hset : fatSetNextCluster ctx c 0 v = .ok ((), v2) := by
    rw [fatSetNextCluster, bind_of_ok get_eq_ok, bind_of_ok hstore, bind_of_ok h1, bind_of_ok h2]
    rfl
  rw [fatFreeCluster, bind_of_ok hset, bind_of_ok (modify_eq_ok _)]
  refine ⟨v3, bind_of_ok h3, hf3.trans (hf2.trans hf1), ?_⟩
  rw [hn3, hn2, hn1]

theorem Volume.Reaches.not_isEnd (h : v.Reaches c a) : ¬ IsEnd c ∧ ¬ IsEnd a := by
  induction h with
  | here hc => exact ⟨hc, hc⟩
  | next hc _ ih => exact ⟨hc, ih.2⟩

section

variable (hfat : v1.fat = update v.fat c (linkedEntry (v.fat c) 0))
include hfat

theorem next_freed : v1.next = update v.next c 0 := by
  funext x
  by_cases hx : x = c
  · subst hx
    rw [update_self, Volume.next, hfat, update_self, Volume.linkedEntry_mod, Nat.zero_mod]
  · rw [update_of_ne hx, Volume.next, hfat, update_of_ne hx, Volume.next]

theorem Volume.Reaches.of_freed (h : v1.Reaches d a) : v.Reaches d a := by
  induction h with
  | here hd => exact .here hd
  | @next d a hd hr ih =>
    refine .next hd ?_
    rw [next_freed hfat] at ih hr
    by_cases hdc : d = c
    · subst hdc
      rw [update_self] at hr
      exact absurd (.inr rfl) hr.not_isEnd.1
    · rwa [update_of_ne hdc] at ih

/-- A way that comes back to `c` can be cut there. -/
theorem Volume.Reaches.freed (h : v.Reaches d a) :
    v1.Reaches d a ∨ a = c ∨ v1.Reaches (v.next c) a := by
  induction h with
  | here hd => exact .inl (.here hd)
  | @next d a hd _ ih =>
    refine ih.elim (fun hr => ?_) .inr
    by_cases hdc : d = c
    · subst hdc
      exact .inr (.inr hr)
    · refine .inl (.next hd ?_)
      rwa [next_freed hfat, update_of_ne hdc]

theorem reaches_iff_freed (hc : ¬ IsEnd c) : v.Reaches c a ↔ a = c ∨ v1.Reaches (v.next c) a := by
  constructor
  · intro h
    cases h with
    | here => exact .inl rfl
    | next _ h => exact (h.freed hfat).elim .inr id
  · rintro (rfl | h)
    · exact .here hc
    · exact .next hc (h.of_freed hfat)

theorem Volume.Freed.cons {v' : Volume} (hc : ¬ IsEnd c)
    (hcount : v1.freeClusterCount = (v.freeClusterCount + 1) % 2 ^ 32)
    (h : v1.Freed (v.next c) v') : v.Freed c v' := by
  refine ⟨fun a ha => ?_, fun a ha => ?_, fun l d hw hd => ?_⟩
  · by_cases hr : v1.Reaches (v.next c) a
    · rw [h.zeroed a hr, hfat]
      by_cases hac : a = c
      · subst hac
        rw [update_self]
        unfold linkedEntry
        omega
      · rw [update_of_ne hac]
    · obtain rfl := ((reaches_iff_freed hfat hc).mp ha).resolve_right hr
      rw [h.kept a hr, hfat, update_self]
  · rw [reaches_iff_freed hfat hc, not_or] at ha
    rw [h.kept a ha.2, hfat, update_of_ne ha.1]
  · cases l with
    | nil => exact absurd (hw ▸ hd) hc
    | cons b l =>
      have hnd := List.nodup_cons.mp (hw.nodup hd)
      obtain ⟨rfl, _, hw⟩ := hw
      have hw1 : Walk v1.next IsEnd (v.next c) l d := hw.congr fun x hx => by
        rw [next_freed hfat, update_of_ne (ne_of_mem_of_not_mem hx hnd.1)]
      rw [h.counted l d hw1 hd, hcount, List.length_cons, Nat.mod_add_mod]
      congr 1
      omega

end

theorem freeLoop_end {turns : ℕ} (hcount : v.freeClusterCount < 2 ^ 32) (hc : IsEnd c) :
    ∃ v', freeLoop ctx (turns + 1) c v = .ok ((), v') ∧ v.Freed c v' := by
  rw [freeLoop, if_pos hc]
  refine ⟨v, rfl, fun a ha => absurd hc ha.not_isEnd.1, fun _ _ => rfl, fun l d hw _ => ?_⟩
  cases l with
  | nil => exact (Nat.mod_eq_of_lt hcount).symm
  | cons a l => exact absurd (hw.1 ▸ hc) hw.2.1

/-- A turn leaves one more entry zero, or its link was zero already and the next turn is the last. -/
theorem freeLoop_freed {t k b : ℕ} (hcount : v.freeClusterCount < 2 ^ 32)
    (hin : ∀ a, v.Reaches c a → a < ctx.fatEntryCount ∧ a < b)
    (hused : b ≤ k + (List.range b).countP fun x => v.next x = 0) (ht : k + 2 ≤ t) :
    ∃ v', freeLoop ctx t c v = .ok ((), v') ∧ v.Freed c v' := by
  induction t generalizing c v k with
  | zero => omega
  | succ t ih =>
    by_cases hc : IsEnd c
    · exact freeLoop_end hcount hc
    have hlt := hin c (.here hc)
    obtain ⟨v1, h1, hfat, hcount1⟩ := freeCluster_ok (v := v) hlt.1
    have hzeros : (List.range b).countP (fun x => v1.next x = 0) + (if v.next c = 0 then 1 else 0) =
        (List.range b).countP (fun x => v.next x = 0) + 1 := by
      rw [next_freed hfat]
      exact countP_update List.nodup_range (List.mem_range.mpr hlt.2)
    have hle : (List.range b).countP (fun x => v1.next x = 0) ≤ b :=
      List.countP_le_length.trans_eq List.length_range
    have hlt1 : v1.freeClusterCount < 2 ^ 32 := by omega
    have hrest : ∃ v', freeLoop ctx t (v.next c) v1 = .ok ((), v') ∧ v1.Freed (v.next c) v' := by
      by_cases h0 : v.next c = 0
      · obtain ⟨n, rfl⟩ : ∃ n, t = n + 1 := ⟨t - 1, by omega⟩
        exact freeLoop_end hlt1 (.inr h0)
      · rw [if_neg h0] at hzeros
        exact ih (k := k - 1) hlt1 (fun a ha => hin a (.next hc (ha.of_freed hfat)))
          (by omega) (by omega)
    obtain ⟨v', h', hfreed⟩ := hrest
    rw [freeLoop, if_neg hc, bind_of_ok (getNextCluster_eq hlt.1), bind_of_ok h1]
    exact ⟨v', h', hfreed.cons hfat hc hcount1⟩

theorem freeAllFollowingClusters_freed (hcount : v.freeClusterCount < 2 ^ 32)
    (hin : ∀ a, v.Reaches c a → a < ctx.fatEntryCount) :
    ∃ v', fatFreeAllFollowingClusters ctx c v = .ok ((), v') ∧ v.Freed c v' := by
  refine freeLoop_freed (k := 0xFFFFFF8) hcount (fun a ha => ⟨hin a ha, ?_⟩)
    (Nat.le_add_right ..) (by decide)
  exact not_le.mp (not_or.mp ha.not_isEnd.2).1

/-- Cluster 2 is its own successor, every other one is the last of its chain; how many are free is
not known. -/
def cyclicVolume : Volume := ⟨fun _ => 0, fun c => if c = 2 then 2 else 0xFFFFFFF, 2 ^ 32 - 1, 2, []⟩

theorem freeAllFollowingClusters_cycle : ∃ v',
    fatFreeAllFollowingClusters Request.sample 2 cyclicVolume = .ok ((), v') ∧
      cyclicVolume.Freed 2 v' := by
  have hcycle : ∀ c a, cyclicVolume.Reaches c a → c = 2 → a = 2 := by
    intro c a h
    induction h with
    | here => exact id
    | next _ _ ih => exact fun hc => ih (by rw [hc]; rfl)
  refine freeAllFollowingClusters_freed (by decide) fun a ha => ?_
  rw [hcycle 2 a ha rfl, Context.fatEntryCount_eq]
  decide

/-- The count starts again at zero. -/
theorem freeAllFollowingClusters_wraps : ∃ v',
    fatFreeAllFollowingClusters Request.sample 3 cyclicVolume = .ok ((), v') ∧
      Walk cyclicVolume.next IsEnd 3 [3] 0xFFFFFFF ∧ v'.freeClusterCount = 0 ∧
      cyclicVolume.freeClusterCount = 0xFFFFFFFF := by
  have hw : Walk cyclicVolume.next IsEnd 3 [3] 0xFFFFFFF := ⟨rfl, by decide, rfl⟩
  have hin : ∀ a, cyclicVolume.Reaches 3 a → a < Request.sample.fatEntryCount ∧ a < 4 := by
    intro a ha
    cases ha with
    | here => exact Context.fatEntryCount_eq _ ▸ by decide
    | next _ ha => exact absurd (.inl (by decide)) ha.not_isEnd.1
  obtain ⟨v', h, hf⟩ := freeLoop_freed (k := 4) (t := loopBound) (by decide) hin
    (by decide) (by decide)
  exact ⟨v', h, hw, hf.counted _ _ hw (.inl (by decide)), rfl⟩

end Kot.Fat
