import Kot.Fat.View

/-! What the operations on single clusters do to the view of a volume, and that the count of free
clusters follows the table. -/
namespace Kot.Fat

open Kot.Kernel Kot.Lib Kot.Lib.Program List Function

def Volume.freeTotal (v : Volume) (ctx : Context) : ℕ :=
  (List.range' 2 ctx.dataClusters).countP fun c => v.next c = 0

def Volume.Counted (v : Volume) (ctx : Context) : Prop := v.freeClusterCount = v.freeTotal ctx

section

variable {ctx : Context} {l : List ℕ} {v v' v'' : Volume} {c e n hint hint' : ℕ} {next next' : ℕ → ℕ}
  {data data' : ℕ → List UInt8}

theorem countP_update (hnd : l.Nodup) (hc : c ∈ l) :
    l.countP (fun x => update next c e x = 0) + (if next c = 0 then 1 else 0) =
      l.countP (fun x => next x = 0) + if e = 0 then 1 else 0 := by
  induction l with
  | nil => simp at hc
  | cons a l ih =>
    obtain ⟨ha, hnd⟩ := nodup_cons.mp hnd
    rw [countP_cons, countP_cons]
    by_cases hac : a = c
    · subst hac
      have hrest : l.countP (fun x => update next a e x = 0) =
          l.countP (fun x => next x = 0) :=
        countP_congr fun x hx => by
          rw [update_of_ne (ne_of_mem_of_not_mem hx ha)]
      simp only [hrest, update_self, decide_eq_true_eq]
      omega
    · have hmem : c ∈ l := (mem_cons.mp hc).resolve_left (Ne.symm hac)
      have := ih hnd hmem
      simp only [update_of_ne hac, decide_eq_true_eq]
      omega

theorem mem_dataClusters : c ∈ List.range' 2 ctx.dataClusters ↔ ctx.IsData c := by
  rw [mem_range'_1, Context.IsData, Nat.add_comm]

theorem freeTotal_le (v : Volume) (ctx : Context) : v.freeTotal ctx ≤ ctx.dataClusters := by
  rw [Volume.freeTotal]
  exact countP_le_length.trans_eq length_range'

theorem freeTotal_update (hc : ctx.IsData c) (h : v'.next = update v.next c e) :
    v'.freeTotal ctx + (if v.next c = 0 then 1 else 0) =
      v.freeTotal ctx + if e = 0 then 1 else 0 := by
  simp only [Volume.freeTotal, h]
  exact countP_update (nodup_range' ..) (mem_dataClusters.mpr hc)

theorem Volume.Counted.congr (h : v.Counted ctx) (hn : v'.next = v.next)
    (hf : v'.freeClusterCount = v.freeClusterCount) : v'.Counted ctx := by
  rw [Volume.Counted, hf, Volume.freeTotal, hn]
  exact h

/-- The volume `v'` comes from `v` by changes that end with these links, these contents of the
clusters and this place of the search. -/
structure Becomes (ctx : Context) (v v' : Volume) (next : ℕ → ℕ) (data : ℕ → List UInt8)
    (hint : ℕ) : Prop where
  next : v'.next = next
  data : v'.clusterBytes ctx = data
  hint : v'.nextFreeCluster = hint
  buffer : v'.buffer = v.buffer
  counted : v.Counted ctx → v'.Counted ctx

theorem Becomes.refl (ctx : Context) (v : Volume) :
    Becomes ctx v v v.next (v.clusterBytes ctx) v.nextFreeCluster := ⟨rfl, rfl, rfl, rfl, id⟩

theorem Becomes.trans (h : Becomes ctx v v' next data hint) (h' : Becomes ctx v' v'' next' data' hint') :
    Becomes ctx v v'' next' data' hint' :=
  ⟨h'.next, h'.data, h'.hint, h'.buffer.trans h.buffer, fun hc => h'.counted (h.counted hc)⟩

theorem setNextCluster_becomes (hs : ctx.Sound) (hc : ctx.IsData c) (hused : v.next c ≠ 0)
    (hn : n % 2 ^ 28 ≠ 0) :
    ∃ v', fatSetNextCluster ctx c n v = .ok ((), v') ∧
      Becomes ctx v v' (update v.next c (n % 2 ^ 28)) (v.clusterBytes ctx) v.nextFreeCluster := by
  obtain ⟨v', h, hb, hview⟩ := Volume.setNextCluster_view hs (hs.lt_fatEntryCount hc)
  have hnext := congrArg View.next hview
  have hcount : v'.freeClusterCount = v.freeClusterCount := congrArg View.freeCount hview
  refine ⟨v', h, hnext, congrArg View.data hview, congrArg View.hint hview, hb, fun hv => ?_⟩
  have htotal := freeTotal_update hc hnext
  rw [if_neg hused, if_neg hn] at htotal
  rw [Volume.Counted] at hv ⊢
  omega

theorem freeCluster_becomes (hs : ctx.Sound) (hc : ctx.IsData c) (hused : v.next c ≠ 0) :
    ∃ v', fatFreeCluster ctx c v = .ok ((), v') ∧
      Becomes ctx v v' (update v.next c 0) (v.clusterBytes ctx) v.nextFreeCluster := by
  obtain ⟨v', h, hb, hview⟩ := Volume.freeCluster_view hs (hs.lt_fatEntryCount hc)
  have hnext := congrArg View.next hview
  have hcount : v'.freeClusterCount = (v.freeClusterCount + 1) % 2 ^ 32 :=
    congrArg View.freeCount hview
  refine ⟨v', h, hnext, congrArg View.data hview, congrArg View.hint hview, hb, fun hv => ?_⟩
  have htotal := freeTotal_update hc hnext
  have hle := freeTotal_le v ctx
  have hlt := hs.entries_lt
  rw [if_neg hused, if_pos rfl] at htotal
  rw [Volume.Counted] at hv ⊢
  omega

/-- The free entries that a search can find. -/
abbrev Volume.freeList (v : Volume) (ctx : Context) : List ℕ :=
  (v.view ctx).freeList ctx.fatEntryCount

theorem allocateCluster_becomes (hs : ctx.Sound) {i : ℕ} {rest : List ℕ}
    (h : v.freeList ctx = i :: rest) (hi : ctx.IsData i) :
    ∃ v', fatAllocateCluster ctx v = .ok (some i, v') ∧
      Becomes ctx v v' (update v.next i 0xFFFFFFF) (v.clusterBytes ctx) i ∧
      v'.freeList ctx = rest := by
  obtain ⟨v', hv', hb, hview⟩ := Volume.allocateCluster_some hs h
  have hmem : i ∈ v.freeList ctx := by rw [h]; exact mem_cons_self
  have hzero : v.next i = 0 := (View.mem_freeList.mp hmem).2.2
  have hnext := congrArg View.next hview
  have hcount : v'.freeClusterCount = (v.freeClusterCount + 2 ^ 32 - 1) % 2 ^ 32 :=
    congrArg View.freeCount hview
  refine ⟨v', hv', ⟨hnext, congrArg View.data hview, congrArg View.hint hview, hb, fun hv => ?_⟩, ?_⟩
  · have htotal := freeTotal_update hi hnext
    have hle := freeTotal_le v ctx
    have hlt := hs.entries_lt
    rw [if_pos hzero, if_neg (by decide)] at htotal
    rw [Volume.Counted] at hv ⊢
    omega
  · rw [Volume.freeList, hview]
    exact View.freeList_take h (by decide)

theorem freeList_congr (hn : ∀ x, v'.next x = 0 ↔ v.next x = 0)
    (hh : v'.nextFreeCluster = v.nextFreeCluster) : v'.freeList ctx = v.freeList ctx := by
  simp only [Volume.freeList, View.freeList, view_next, view_hint, hh]
  exact filter_congr fun x _ => decide_eq_decide.mpr (hn x)

end

end Kot.Fat
