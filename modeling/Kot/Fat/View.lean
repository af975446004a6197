import Kot.Fat.Writes
import Kot.Lib.Walk

/-! What a volume is to the code above the clusters: the links of its table, the contents of its
data clusters and where the search for a free one starts. Every operation on clusters is a
function of this view. -/
namespace Kot.Fat

open Kot.Kernel Kot.Lib Kot.Lib.Program List Function

/-- The number of clusters that fit behind the table. -/
@[irreducible] def Context.dataClusters (ctx : Context) : ℕ :=
  (ctx.bpb.totalSectors - ctx.bpb.dataSector) / ctx.bpb.sectorsPerCluster.toNat

def Context.IsData (ctx : Context) (c : ℕ) : Prop := 2 ≤ c ∧ c < ctx.dataClusters + 2

instance (ctx : Context) (c : ℕ) : Decidable (ctx.IsData c) := inferInstanceAs (Decidable (_ ∧ _))

/-- A volume whose regions lie apart and whose clusters all have an entry of the table and a
number that is no end mark. -/
structure Context.Sound (ctx : Context) : Prop extends Apart ctx where
  sectors_pos : 1 ≤ ctx.bpb.sectorsPerCluster.toNat
  entries_ge : ctx.dataClusters + 2 ≤ ctx.fatEntryCount
  entries_lt : ctx.dataClusters + 2 ≤ 0xFFFFFF8
  entries_le : ctx.fatEntryCount ≤ 2 ^ 32

/-- The entry of a cluster: the next cluster of its chain, an end mark, or `0` when it is free. -/
def Volume.next (v : Volume) (c : ℕ) : ℕ := v.fat c % 2 ^ 28

def Volume.clusterBytes (v : Volume) (ctx : Context) (c : ℕ) : List UInt8 :=
  if ctx.IsData c then readAt v.disk (ctx.partition.start + ctx.clusterPosition c) ctx.clusterSize
  else []

structure View where
  next : ℕ → ℕ
  data : ℕ → List UInt8
  hint : ℕ
  freeCount : ℕ

/-- The free entries that a search can find, in the order in which it finds them. -/
def View.freeList (w : View) (count : ℕ) : List ℕ :=
  (List.range' w.hint (count - w.hint)).filter fun i => w.next i = 0

def Volume.view (v : Volume) (ctx : Context) : View :=
  ⟨v.next, v.clusterBytes ctx, v.nextFreeCluster, v.freeClusterCount⟩

theorem Volume.next_congr {v v' : Volume} (h : v'.fat = v.fat) : v'.next = v.next := by
  funext c
  rw [next, next, h]

@[simp] theorem view_next (v : Volume) (ctx : Context) : (v.view ctx).next = v.next := rfl

@[simp] theorem view_data (v : Volume) (ctx : Context) : (v.view ctx).data = v.clusterBytes ctx := rfl

@[simp] theorem view_hint (v : Volume) (ctx : Context) : (v.view ctx).hint = v.nextFreeCluster := rfl

@[simp] theorem view_freeCount (v : Volume) (ctx : Context) :
    (v.view ctx).freeCount = v.freeClusterCount := rfl

theorem view_disk {v : Volume} {ctx : Context} {f : ℕ → UInt8} :
    Volume.view { v with disk := f } ctx =
      { v.view ctx with data := Volume.clusterBytes { v with disk := f } ctx } := rfl

theorem disk_buffer {v : Volume} {f : ℕ → UInt8} :
    Volume.buffer { v with disk := f } = v.buffer := rfl

theorem view_count {v : Volume} {ctx : Context} {n : ℕ} :
    Volume.view { v with freeClusterCount := n } ctx = { v.view ctx with freeCount := n } := rfl

theorem view_counters (v : Volume) (ctx : Context) (i n : ℕ) :
    Volume.view { v with nextFreeCluster := i, freeClusterCount := n } ctx =
      { v.view ctx with hint := i, freeCount := n } := rfl

@[simp] theorem view_buffer (v : Volume) (ctx : Context) (b : List UInt8) :
    Volume.view { v with buffer := b } ctx = v.view ctx := rfl

namespace Context.Sound

variable {ctx : Context} (hs : ctx.Sound) {c c' : ℕ}

include hs

section
variable (h : ctx.IsData c)
include h

theorem lt_fatEntryCount : c < ctx.fatEntryCount := Nat.lt_of_lt_of_le h.2 hs.entries_ge

theorem not_isEnd : ¬ IsEnd c := by
  have h1 := h.1
  have h2 := Nat.lt_of_lt_of_le h.2 hs.entries_lt
  unfold IsEnd
  omega

theorem sector_le : ctx.bpb.dataSector +
    ctx.bpb.sectorsPerCluster.toNat * (c - 2) + ctx.bpb.sectorsPerCluster.toNat ≤
      ctx.bpb.totalSectors := by
  have hpos := hs.consistent.data_pos
  have hlt : c - 2 < (ctx.bpb.totalSectors - ctx.bpb.dataSector) /
      ctx.bpb.sectorsPerCluster.toNat := by
    have h2 := h.2
    rw [dataClusters] at h2
    have := h.1
    omega
  have hmul := (Nat.le_div_iff_mul_le hs.sectors_pos).mp hlt
  have hexp : (c - 2 + 1) * ctx.bpb.sectorsPerCluster.toNat =
      ctx.bpb.sectorsPerCluster.toNat * (c - 2) + ctx.bpb.sectorsPerCluster.toNat := by
    rw [Nat.add_mul, Nat.one_mul, Nat.mul_comm]
  have hle : (c - 2 + 1) * ctx.bpb.sectorsPerCluster.toNat ≤
      ctx.bpb.totalSectors - ctx.bpb.dataSector := hmul
  omega

theorem clusterPosition_eq : ctx.clusterPosition c =
    ctx.bpb.dataSector * 512 + ctx.clusterSize * (c - 2) := by
  have hle := hs.sector_le h
  have htot := ctx.bpb.totalSectors_lt
  have h1 := h.1
  have h2 := Nat.lt_of_lt_of_le h.2 hs.entries_lt
  have hmod : (c + 2 ^ 32 - 2) % 2 ^ 32 = c - 2 := by omega
  rw [ctx.clusterPosition_eq, ctx.clusterToLba_eq, hs.consistent.firstUsableLba_eq, hmod,
    Nat.mod_eq_of_lt (by omega), ctx.clusterSize_eq, Nat.add_mul, Nat.mul_right_comm]

theorem data_le_position : ctx.bpb.dataSector * 512 ≤ ctx.clusterPosition c := by
  rw [hs.clusterPosition_eq h]
  exact Nat.le_add_right _ _

theorem position_le : ctx.clusterPosition c + ctx.clusterSize ≤ ctx.partition.size := by
  have hle := Nat.mul_le_mul_right 512 (hs.sector_le h)
  refine Nat.le_trans (Nat.le_of_eq ?_) (hle.trans hs.consistent.sectors_le)
  rw [hs.clusterPosition_eq h, ctx.clusterSize_eq, Nat.add_mul, Nat.add_mul, Nat.mul_right_comm]

theorem position_lt (h' : ctx.IsData c') (hlt : c < c') :
    ctx.clusterPosition c + ctx.clusterSize ≤ ctx.clusterPosition c' := by
  have h1 := h.1
  have hmul : ctx.clusterSize * (c - 2 + 1) ≤ ctx.clusterSize * (c' - 2) :=
    Nat.mul_le_mul_left _ (by omega)
  rw [hs.clusterPosition_eq h, hs.clusterPosition_eq h']
  rw [Nat.mul_add, Nat.mul_one] at hmul
  omega

theorem position_disjoint (h' : ctx.IsData c') (hne : c ≠ c') :
    ctx.clusterPosition c + ctx.clusterSize ≤ ctx.clusterPosition c' ∨
      ctx.clusterPosition c' + ctx.clusterSize ≤ ctx.clusterPosition c := by
  rcases Nat.lt_or_gt_of_ne hne with hlt | hlt
  · exact .inl (hs.position_lt h h' hlt)
  · exact .inr (hs.position_lt h' h hlt)

theorem clusterAccess_eq {a n : ℕ} (hn : a + n ≤ ctx.clusterSize) : ctx.clusterAccess c a n =
      some ⟨ctx.partition.start + ctx.clusterPosition c + a, n⟩ := by
  have hfits := ctx.partition.fits
  have hle := hs.position_le h
  have h1 : wadd ctx.partition.start (ctx.clusterPosition c) =
      ctx.partition.start + ctx.clusterPosition c := wadd_of_lt (by omega)
  have h2 : wadd (ctx.partition.start + ctx.clusterPosition c) a =
      ctx.partition.start + ctx.clusterPosition c + a := wadd_of_lt (by omega)
  have h3 : wadd (ctx.partition.start + ctx.clusterPosition c + a) n =
      ctx.partition.start + ctx.clusterPosition c + a + n := wadd_of_lt (by omega)
  simp only [clusterAccess, h1, h2, h3, wadd_of_lt hfits]
  exact if_neg (by omega)

end

end Context.Sound

namespace Volume

variable {ctx : Context} {v v' : Volume} {c d : ℕ}

theorem clusterBytes_length (h : ctx.IsData c) :
    (v.clusterBytes ctx c).length = ctx.clusterSize := by
  rw [clusterBytes, if_pos h, readAt_length]

theorem readCluster_eq (hs : ctx.Sound) {a n : ℕ} (h : ctx.IsData c)
    (hn : a + n ≤ ctx.clusterSize) :
    fatReadCluster ctx v.disk c a n = some (((v.clusterBytes ctx c).drop a).take n) := by
  rw [fatReadCluster, hs.clusterAccess_eq h hn, clusterBytes, if_pos h, readAt_drop, readAt_take,
    Nat.min_eq_left (by omega)]
  rfl

def put (v : Volume) (ctx : Context) (c a : ℕ) (bytes : List UInt8) : Volume :=
  { v with disk := writeAt v.disk (ctx.partition.start + ctx.clusterPosition c + a) bytes }

theorem put_buffer {a : ℕ} {bytes : List UInt8} :
    (v.put ctx c a bytes).buffer = v.buffer := by
  rw [put, disk_buffer]

theorem writeCluster_eq (hs : ctx.Sound) {a : ℕ} {bytes : List UInt8} (h : ctx.IsData c)
    (hn : a + bytes.length ≤ ctx.clusterSize) :
    fatWriteCluster ctx c a bytes v = .ok (none, v.put ctx c a bytes) := by
  rw [fatWriteCluster, hs.clusterAccess_eq h hn]
  rfl

theorem put_view (hs : ctx.Sound) {a : ℕ} {bytes : List UInt8} (h : ctx.IsData c)
    (hn : a + bytes.length ≤ ctx.clusterSize) : (v.put ctx c a bytes).view ctx = { v.view ctx with
        data := update (v.clusterBytes ctx) c (splice (v.clusterBytes ctx c) a bytes) } := by
  have hdata : (v.put ctx c a bytes).clusterBytes ctx = update (v.clusterBytes ctx) c
      (splice (v.clusterBytes ctx c) a bytes) := by
    funext d
    by_cases hd : d = c
    · subst hd
      rw [update_self, clusterBytes, clusterBytes, if_pos h, if_pos h]
      exact readAt_writeAt_inside hn
    · rw [update_of_ne hd, clusterBytes, clusterBytes]
      split_ifs with hdd
      · have := hs.position_disjoint h hdd (Ne.symm hd)
        exact readAt_writeAt_of_disjoint (by omega)
      · rfl
  rw [put, view_disk]
  rw [put] at hdata
  rw [hdata]

theorem clusterBytes_of_spares (hs : ctx.Sound) (h : Spares ctx v v') :
    v'.clusterBytes ctx = v.clusterBytes ctx := by
  funext d
  rw [clusterBytes, clusterBytes]
  split_ifs with hd
  · refine readAt_congr fun x hx hx' => h x (.inr ?_)
    have h1 := hs.data_le_position hd
    have h2 := hs.position_le hd
    omega
  · rfl

theorem linkedEntry_mod {entry n : ℕ} : linkedEntry entry n % 2 ^ 28 = n % 2 ^ 28 := by
  unfold linkedEntry
  omega

theorem setNextCluster_view (hs : ctx.Sound) {n : ℕ} (hc : c < ctx.fatEntryCount) :
    ∃ v', fatSetNextCluster ctx c n v = .ok ((), v') ∧ v'.buffer = v.buffer ∧
      v'.view ctx = { v.view ctx with next := update v.next c (n % 2 ^ 28) } := by
  have h := hs.toApart.setNextCluster_eq (v := v) (n := n) hc
  refine ⟨_, h, rfl, ?_⟩
  refine (View.mk.injEq ..).mpr
    ⟨?_, clusterBytes_of_spares hs (hs.toApart.setNextCluster_spares h), rfl, rfl⟩
  funext d
  simp only [Volume.next]
  by_cases hd : d = c
  · subst hd
    rw [update_self, update_self, linkedEntry_mod]
  · rw [update_of_ne hd, update_of_ne hd]
    rfl

theorem writeFsInfoSector_view (hs : ctx.Sound) :
    ∃ v', fatWriteFsInfoSector ctx v = .ok (none, v') ∧ v'.buffer = v.buffer ∧
      v'.view ctx = v.view ctx := by
  have h := hs.consistent.writeFsInfoSector_eq (v := v) hs.fsi_length
  refine ⟨_, h, rfl, ?_⟩
  have hdata := clusterBytes_of_spares hs (hs.toApart.writeFsInfoSector_spares h)
  rw [view_disk, hdata]
  rfl

theorem freeCluster_view (hs : ctx.Sound) (hc : c < ctx.fatEntryCount) :
    ∃ v', fatFreeCluster ctx c v = .ok ((), v') ∧ v'.buffer = v.buffer ∧
      v'.view ctx = { v.view ctx with
        next := update v.next c 0
        freeCount := (v.freeClusterCount + 1) % 2 ^ 32 } := by
  obtain ⟨v1, h1, hb1, hv1⟩ := setNextCluster_view hs hc
  obtain ⟨v2, h2, hb2, hv2⟩ := writeFsInfoSector_view hs (v := { v1 with
    freeClusterCount := (v1.freeClusterCount + 1) % 2 ^ 32 })
  refine ⟨v2, ?_, hb2.trans hb1, ?_⟩
  · rw [fatFreeCluster, bind_of_ok h1, bind_of_ok (modify_eq_ok _), bind_of_ok h2]
    rfl
  · have hcount := congrArg View.freeCount hv1
    simp only [view_freeCount] at hcount
    rw [hv2, view_count, hv1, hcount, Nat.zero_mod]

end Volume

namespace View

variable {w : View} {count i : ℕ} {rest : List ℕ}

theorem mem_freeList : i ∈ w.freeList count ↔ w.hint ≤ i ∧ i < count ∧ w.next i = 0 := by
  rw [freeList, mem_filter, mem_range'_1, decide_eq_true_eq]
  omega

theorem freeList_nodup : (w.freeList count).Nodup :=
  (nodup_range' ..).filter _

theorem freeList_take {e n : ℕ} (h : w.freeList count = i :: rest) (he : e ≠ 0) :
    View.freeList ⟨update w.next i e, w.data, i, n⟩ count = rest := by
  have hi : i ∈ w.freeList count := by rw [h]; exact mem_cons_self
  obtain ⟨hle, hlt, _⟩ := mem_freeList.mp hi
  have hsplit : List.range' w.hint (count - w.hint) =
      List.range' w.hint (i - w.hint) ++ i :: List.range' (i + 1) (count - i - 1) := by
    have hi' : w.hint + (i - w.hint) = i := by omega
    have := List.range'_append_1 (s := w.hint) (m := i - w.hint) (n := count - i - 1 + 1)
    rw [hi', List.range'_succ] at this
    rw [this]
    congr 1
    omega
  rw [freeList, hsplit, filter_append] at h
  have hfront : (List.range' w.hint (i - w.hint)).filter (fun j => w.next j = 0) = [] := by
    cases hf : (List.range' w.hint (i - w.hint)).filter (fun j => w.next j = 0) with
    | nil => rfl
    | cons a l =>
      rw [hf] at h
      obtain rfl : a = i := (List.cons.inj h).1
      have ha : a ∈ (List.range' w.hint (a - w.hint)).filter (fun j => w.next j = 0) := by
        rw [hf]
        exact mem_cons_self
      have := mem_range'_1.mp (mem_filter.mp ha).1
      omega
  rw [hfront, nil_append] at h
  have hrest : (List.range' (i + 1) (count - i - 1)).filter (fun j => w.next j = 0) = rest := by
    rw [filter_cons_of_pos (by simpa using (mem_freeList.mp hi).2.2)] at h
    exact (List.cons.inj h).2
  have hrange : List.range' i (count - i) = i :: List.range' (i + 1) (count - i - 1) := by
    rw [← List.range'_succ]
    congr 1
    omega
  rw [freeList, hrange, filter_cons_of_neg (by simpa using he), ← hrest]
  refine filter_congr fun j hj => ?_
  have := (mem_range'_1.mp hj).1
  simp only [update_of_ne (show j ≠ i by omega)]

end View

namespace Volume

variable {ctx : Context} {v : Volume}

theorem firstFree_eq (hs : ctx.Sound) (v : Volume) :
    v.firstFree ctx.fatEntryCount = ((v.view ctx).freeList ctx.fatEntryCount).head? := by
  rw [Volume.firstFree, ← head?_filter, View.freeList]
  congr 1
  refine filter_congr fun j hj => ?_
  have h1 := mem_range'_1.mp hj
  have h2 := hs.entries_le
  rw [Nat.mod_eq_of_lt (a := j) (by omega)]
  rfl

theorem allocateCluster_none (hs : ctx.Sound) (h : (v.view ctx).freeList ctx.fatEntryCount = []) :
    fatAllocateCluster ctx v = .ok (none, v) := by
  have hf := firstFree_eq hs v
  rw [h, head?_nil] at hf
  rw [fatAllocateCluster, bind_of_ok get_eq_ok, hf]
  rfl

theorem allocateCluster_some (hs : ctx.Sound) {i : ℕ} {rest : List ℕ}
    (h : (v.view ctx).freeList ctx.fatEntryCount = i :: rest) :
    ∃ v', fatAllocateCluster ctx v = .ok (some i, v') ∧ v'.buffer = v.buffer ∧
      v'.view ctx = ⟨update v.next i 0xFFFFFFF, v.clusterBytes ctx, i,
        (v.freeClusterCount + 2 ^ 32 - 1) % 2 ^ 32⟩ := by
  have hf := firstFree_eq hs v
  rw [h, head?_cons] at hf
  have hi : i ∈ (v.view ctx).freeList ctx.fatEntryCount := by rw [h]; exact mem_cons_self
  have hlt := (View.mem_freeList.mp hi).2.1
  have hmod := Nat.mod_eq_of_lt (Nat.lt_of_lt_of_le hlt hs.entries_le)
  obtain ⟨v1, h1, hb1, hv1⟩ := setNextCluster_view hs hlt
  obtain ⟨v2, h2, hb2, hv2⟩ := writeFsInfoSector_view hs (v := { v1 with
    nextFreeCluster := i
    freeClusterCount := (v1.freeClusterCount + 2 ^ 32 - 1) % 2 ^ 32 })
  refine ⟨v2, ?_, hb2.trans hb1, ?_⟩
  · rw [fatAllocateCluster, bind_of_ok get_eq_ok, hf]
    simp only [hmod]
    rw [bind_of_ok h1, bind_of_ok (modify_eq_ok _), bind_of_ok h2]
    rfl
  · have hcount := congrArg View.freeCount hv1
    simp only [view_freeCount] at hcount
    rw [hv2, view_counters, hv1, hcount]
    rfl

end Volume

end Kot.Fat
