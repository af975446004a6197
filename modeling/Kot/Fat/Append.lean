import Kot.Fat.Filled
import Kot.Fat.Listing
import Mathlib.Data.List.TakeWhile

/-! An entry that is added behind the last one of its directory: what the listing shows of its
records and of what stands behind them. -/
namespace Kot.Fat

open Kot.Kernel Kot.Lib Kot.Lib.Program List

section

variable {name : Name} {c : ℕ} {sum : UInt8} {rs : List Entry}

/-- The records of a long name, `c` of them. -/
def lfnRecords (c : ℕ) (sum : UInt8) (name : Name) : List Entry :=
  (List.range c).map fun i => lfnEntry (UInt8.ofNat (c - i) ||| if i = 0 then 0x40 else 0) sum
    (name.drop (13 * (c - 1 - i)))

def lfnWritten (name : Name) (useLfn : Bool) : ℕ :=
  if useLfn then (name.length + 12) / 13 % 256 else 0

theorem newEntries_eq (entry : Entry) (name : Name) (behind : List UInt8) (useLfn : Bool) :
    newEntries entry name behind useLfn = lfnRecords (lfnWritten name useLfn)
        (fatGetLfnCheckSum ((sfnEntry entry name behind).bytes.take 11)) name ++
        [sfnEntry entry name behind] := rfl

@[simp] theorem lfnRecords_length :
    (lfnRecords c sum name).length = c := by
  rw [lfnRecords, length_map, length_range]

theorem lfnRecords_getElem? {i : ℕ} (hi : i < c) : (lfnRecords c sum name)[i]? =
    some (lfnEntry (UInt8.ofNat (c - i) ||| if i = 0 then 0x40 else 0) sum
      (name.drop (13 * (c - 1 - i)))) := by
  rw [lfnRecords, getElem?_map, getElem?_range hi]
  rfl

/-- The pieces of a long name in the order of the name. -/
def lfnText (c : ℕ) (name : Name) : List UInt8 :=
  (List.range c).flatMap fun j => lfnPiece (name.drop (13 * j))

theorem reverse_flatMap_lfnRecords :
    (lfnRecords c sum name).reverse.flatMap fatParseLfn = lfnText c name := by
  have hparse : (lfnRecords c sum name).reverse.map fatParseLfn =
      (List.range c).map fun j => lfnPiece (name.drop (13 * j)) := by
    apply ext_getElem?
    intro j
    rw [getElem?_map, getElem?_map]
    rcases Nat.lt_or_ge j c with hj | hj
    · have hplace : c - 1 - (c - 1 - j) = j := by omega
      rw [getElem?_reverse (by rwa [lfnRecords_length]), lfnRecords_length,
        lfnRecords_getElem? (by omega), getElem?_range hj, Option.map_some,
        fatParseLfn_lfnEntry, hplace]
      rfl
    · rw [getElem?_eq_none (by simpa using hj), getElem?_eq_none (by simpa using hj)]
      rfl
  rw [flatMap_def, hparse, ← flatMap_def]
  rfl

theorem lfnText_of_le (h : 13 * c ≤ name.length) : lfnText c name = name.take (13 * c) := by
  induction c with
  | zero => rfl
  | succ c ih =>
    rw [lfnText, range_succ, flatMap_append, flatMap_singleton,
      lfnPiece_of_le (by rw [length_drop]; omega), Nat.mul_succ, take_add]
    exact congrArg (· ++ _) (ih (by omega))

theorem runName_lfnRecords (sum : UInt8) (h0 : 0 ∉ name) (hc : 13 * (c - 1) ≤ name.length) :
    runName (lfnRecords c sum name) = name.take (13 * c) := by
  rw [runName, reverse_flatMap_lfnRecords]
  have hne : ∀ x ∈ name.take (13 * c), decide (x ≠ 0) = true := fun x hx =>
    decide_eq_true (ne_of_mem_of_not_mem (mem_of_mem_take hx) h0)
  by_cases hle : 13 * c ≤ name.length
  · rw [lfnText_of_le hle, takeWhile_eq_self_iff.mpr hne]
  · cases c with
    | zero => omega
    | succ c =>
      rw [Nat.succ_sub_one] at hc
      rw [lfnText, range_succ, flatMap_append, flatMap_singleton]
      have hfront : (List.range c).flatMap (fun j => lfnPiece (name.drop (13 * j))) =
        name.take (13 * c) := lfnText_of_le hc
      rw [hfront, takeWhile_lfnPiece h0 hc (by omega), take_of_length_le (by omega)]

theorem lfnEntry_byte {order : UInt8} : (lfnEntry order sum name).byte 0 = order := rfl

theorem lfnRecords_succ : ∃ es, es.length = c ∧ lfnRecords (c + 1) sum name =
      lfnEntry (UInt8.ofNat (c + 1) ||| 0x40) sum (name.drop (13 * c)) :: es := by
  refine ⟨_, ?_, by rw [lfnRecords, range_succ_eq_map, map_cons]; rfl⟩
  rw [length_map, length_map, length_range]

theorem order_of_le {n : ℕ} (hn : n ≤ 63) : (lfnEntry (UInt8.ofNat n ||| 0x40) sum name).Valid ∧
      (lfnEntry (UInt8.ofNat n ||| 0x40) sum name).order = n := by
  have hall : ∀ n : Fin 64, (UInt8.ofNat n ||| 0x40 ≠ 0 ∧ UInt8.ofNat n ||| 0x40 ≠ 0x05 ∧
      UInt8.ofNat n ||| 0x40 ≠ 0xE5) ∧ ((UInt8.ofNat n ||| 0x40) &&& 0xBF).toNat = n := by
    decide +kernel
  rw [Entry.Valid, Entry.order, lfnEntry_byte]
  exact hall ⟨n, by omega⟩

/-- A byte that `fat_entry_valid` takes for the first one of a record in use. -/
def ValidByte (b : UInt8) : Prop := b ≠ 0 ∧ b ≠ 0x05 ∧ b ≠ 0xE5

instance (b : UInt8) : Decidable (ValidByte b) := inferInstanceAs (Decidable (_ ∧ _ ∧ _))

theorem order_of_gt : ∀ n : Fin 256, 64 ≤ n.val →
    (n.val < 128 → ValidByte (UInt8.ofNat n ||| 0x40) ∧
      ((UInt8.ofNat n ||| 0x40) &&& 0xBF).toNat = n - 64) ∧
    (128 ≤ n.val → ValidByte (UInt8.ofNat n ||| 0x40) →
      128 ≤ ((UInt8.ofNat n ||| 0x40) &&& 0xBF).toNat) ∧
    (128 ≤ n.val → ¬ ValidByte (UInt8.ofNat n ||| 0x40) →
      ValidByte (UInt8.ofNat (n - 1)) ∧ 128 ≤ (UInt8.ofNat (n - 1) &&& 0xBF).toNat) := by
  decide +kernel

theorem drop_of_getElem? {i : ℕ} {e : Entry} (h : rs[i]? = some e) : rs.drop i = e :: rs.drop (i + 1) := by
  obtain ⟨hlt, rfl⟩ := List.getElem?_eq_some_iff.mp h
  rw [getElem_cons_drop]

theorem Complete.run_at {i : ℕ} {order : UInt8} (h : Complete 78 (rs.drop i))
    (he : rs[i]? = some (lfnEntry order sum name)) (hvalid : ValidByte order) :
    1 ≤ (order &&& 0xBF).toNat ∧ (order &&& 0xBF).toNat ≤ 78 ∧
      Complete 78 (rs.drop (i + (order &&& 0xBF).toNat)) := by
  rw [drop_of_getElem? he] at h
  obtain ⟨es, r, heq, horder, hbound, h⟩ := h.run_cases hvalid (lfnEntry_isLfn ..)
  rw [Entry.order, lfnEntry_byte] at horder hbound
  refine ⟨by omega, hbound, ?_⟩
  rw [horder, Nat.add_comm es.length 1, ← Nat.add_assoc, ← drop_drop, heq,
    drop_left]
  exact h

/-- More than 63 records of a long name are no run that a scan gets through: the first record, or
the one that counts 64, has the number 0, or the number is too large. -/
theorem not_complete_lfnRecords (hlo : 64 ≤ c) (hhi : c < 256) :
    ¬ Complete 78 (lfnRecords c sum name ++ rs) := by
  intro h
  have hat : ∀ i < c, (lfnRecords c sum name ++ rs)[i]? =
      some (lfnEntry (UInt8.ofNat (c - i) ||| if i = 0 then 0x40 else 0) sum
        (name.drop (13 * (c - 1 - i)))) := by
    intro i hi
    rw [getElem?_append_left (by rwa [lfnRecords_length]), lfnRecords_getElem? hi]
  have hfirst := hat 0 (by omega)
  rw [Nat.sub_zero, if_pos rfl] at hfirst
  obtain ⟨hsmall, hlarge, hdeleted⟩ := order_of_gt ⟨c, hhi⟩ hlo
  dsimp only at hsmall hlarge hdeleted
  by_cases hc : c < 128
  · obtain ⟨hvalid, horder⟩ := hsmall hc
    obtain ⟨hpos, _, hrest⟩ := h.run_at (i := 0) hfirst hvalid
    rw [horder, Nat.zero_add] at hrest
    have hnext := hat (c - 64) (by omega)
    rw [Nat.sub_sub_self hlo, if_neg (by omega)] at hnext
    obtain ⟨hzero, _⟩ := hrest.run_at hnext (by decide)
    exact absurd hzero (by decide)
  · by_cases hvalid : ValidByte (UInt8.ofNat c ||| 0x40)
    · have horder := hlarge (by omega) hvalid
      obtain ⟨_, hbound, _⟩ := h.run_at (i := 0) hfirst hvalid
      omega
    · obtain ⟨hvalid', horder⟩ := hdeleted (by omega) hvalid
      have hsecond := hat 1 (by omega)
      rw [if_neg (by decide), UInt8.or_zero] at hsecond
      have hdrop := drop_of_getElem? hfirst
      rw [drop_zero] at hdrop
      rw [hdrop, complete_cons_invalid (by exact hvalid)] at h
      obtain ⟨_, hbound, _⟩ := h.run_at hsecond hvalid'
      omega

theorem complete_newEntries (hc : c ≤ 63) {e : Entry} (hlfn : ¬ e.IsLfn) :
    Complete 78 (lfnRecords c sum name ++ e :: rs) ↔ Complete 78 rs := by
  have hsfn : Complete 78 (e :: rs) ↔ Complete 78 rs := by
    by_cases hvalid : e.Valid
    · exact complete_cons_short hvalid hlfn
    · exact complete_cons_invalid hvalid
  cases c with
  | zero => exact hsfn
  | succ c =>
    obtain ⟨es, hes, heq⟩ := lfnRecords_succ
    obtain ⟨hvalid, horder⟩ := order_of_le hc
    rw [heq, cons_append, complete_cons_run hvalid (lfnEntry_isLfn ..) (by omega), hsfn, horder]
    exact and_iff_right (by omega)

theorem itemsFrom_newEntries (hc : c ≤ 63) (h0 : 0 ∉ name) (hlen : 13 * (c - 1) ≤ name.length)
    {e : Entry} (hlfn : ¬ e.IsLfn) (hvalid : e.Valid) (index : ℕ) :
    itemsFrom 0 none index (lfnRecords c sum name ++ e :: rs) =
      ⟨e, if c = 0 then fatParseSfn e else name.take (13 * c), index + c,
        if c = 0 then noLfn else index⟩ :: itemsFrom 0 none (index + c + 1) rs := by
  have hsfn : ∀ p index, itemsFrom 0 p index (e :: rs) =
      pendingItem p index e :: itemsFrom 0 none (index + 1) rs := by
    intro p index
    rw [itemsFrom, if_neg (not_not.mpr hvalid), if_neg hlfn]
  cases c with
  | zero => exact hsfn none index
  | succ c =>
    obtain ⟨es, hes, heq⟩ := lfnRecords_succ
    obtain ⟨hfirst, horder⟩ := order_of_le hc
    have hname := runName_lfnRecords sum h0 hlen
    rw [heq] at hname ⊢
    rw [cons_append, itemsFrom_run hfirst (lfnEntry_isLfn ..) (by omega), hsfn, horder, hname]
    rfl

theorem itemsFrom_newEntries_invalid (hc : c ≤ 63) {e : Entry} (hvalid : ¬ e.Valid) {index : ℕ} :
    ∀ x ∈ itemsFrom 0 none index (lfnRecords c sum name ++ e :: rs), index + c < x.index := by
  intro x hx
  have hsfn : ∀ p index, itemsFrom 0 p index (e :: rs) = itemsFrom 0 p (index + 1) rs := by
    intro p index
    rw [itemsFrom, if_pos hvalid]
  cases c with
  | zero =>
    have hmem : x ∈ itemsFrom 0 none index (e :: rs) := hx
    rw [hsfn] at hmem
    exact (itemsFrom_mem hmem).1
  | succ c =>
    obtain ⟨es, hes, heq⟩ := lfnRecords_succ
    obtain ⟨hfirst, horder⟩ := order_of_le hc
    rw [heq, cons_append, itemsFrom_run hfirst (lfnEntry_isLfn ..) (by omega), hsfn, horder] at hx
    exact (itemsFrom_mem hx).1

end

/-! Lookups change nothing but `cluster_buffer`. -/

section

variable {ctx : Context} {α : Type} {m : FatM α} {v v' : Volume} {a : α}

/-- A program that at most fills `cluster_buffer`. -/
def Looks (m : FatM α) : Prop := Keeps (fun v v' => ∃ buffer, v' = v.withBuffer buffer) m

theorem Looks.eq (hm : Looks m) (h : m v = .ok (a, v')) : ∃ buffer, v' = v.withBuffer buffer := by
  refine Keeps.invariant (P := fun w => ∃ buffer, w = v.withBuffer buffer) hm ?_ h ⟨v.buffer, rfl⟩
  rintro w w' ⟨buffer, rfl⟩ ⟨buffer', rfl⟩
  exact ⟨buffer, rfl⟩

theorem looks_withCache {base : ℕ} {scan : (ℕ → Cache → Except Fault (Option Entry × Cache)) →
    Cache → Except Fault (α × Cache)} : Looks (withCache ctx base scan) := by
  refine .step fun v a v' h => ?_
  obtain ⟨⟨b, k⟩, _, h⟩ := Kernel.bind_eq_ok h
  cases h
  exact ⟨_, rfl⟩

theorem looks_findEntry {current : ℕ} {name : Name} : Looks (fatFindEntry ctx current name) :=
  .bind looks_withCache fun _ => .pure _

theorem looks_descend (dir : Entry) {names : List Name} : Looks (descend ctx dir names) := by
  induction names generalizing dir with
  | nil => exact .pure _
  | cons name names ih =>
    refine .bind looks_findEntry fun r => ?_
    cases r with
    | none => exact .pure _
    | some d => exact .ite (ih d) (.pure _)

theorem getDirSize_eq (hs : ctx.Sound) {dir : Entry} {cs : List ℕ}
    (hc : Chain ctx v.next (fatGetClusterEntry ctx dir) cs) (hne : cs ≠ []) {size : ℕ}
    (h : fatGetDirSize ctx dir v = .ok (size, v')) :
    (records ctx v cs).length < 2 ^ 32 ∧ size = 32 * sizeFrom 0 0 (records ctx v cs) := by
  obtain ⟨⟨last, k⟩, v1, hscan, h⟩ := bind_eq_ok.mp h
  cases h
  obtain ⟨⟨last', k'⟩, hloop, h⟩ := Kernel.bind_eq_ok hscan
  cases h
  obtain ⟨hlen, hlast⟩ := dirSizeLoop_reads (reads_cache hs hc hne) (by decide)
    (cacheFine_empty ctx v cs v.buffer) hloop
  refine ⟨hlen, ?_⟩
  rw [hlast (Nat.zero_le _), drop_zero, Nat.mul_comm]

theorem fatAddEntryWithPath_cases (hs : ctx.Sound) {env : Env} {start dir entry : Entry}
    {path : List UInt8} {name : Name} {useLfn : Bool} {v1 : Volume} {cs : List ℕ}
    (hlast : fatFindLastDirectory ctx start path v = .ok (some (dir, name), v1))
    (hc : Chain ctx v.next (fatGetClusterEntry ctx dir) cs) (hne : cs ≠ [])
    (h : fatAddEntryWithPath ctx env start path entry useLfn v = .ok (none, v')) :
    (records ctx v cs).length < 2 ^ 32 ∧ ∃ buffer r,
      fatWriteClusterChain ctx (fatGetClusterEntry ctx dir) (32 * sizeFrom 0 0 (records ctx v cs))
        ((newEntries entry name (freshBlock env.behind 3) useLfn).flatMap Entry.bytes) true false
        (v.withBuffer buffer) = .ok (r, v') := by
  rw [fatAddEntryWithPath, bind_of_ok hlast] at h
  obtain ⟨found, v2, hfind, h⟩ := bind_eq_ok.mp h
  obtain ⟨b1, rfl⟩ := Looks.eq (.bind (looks_descend _) fun _ => .pure _) hlast
  obtain ⟨b2, rfl⟩ := looks_findEntry.eq hfind
  cases found with
  | some e => cases h
  | none =>
    obtain ⟨size, v3, hsize, h⟩ := bind_eq_ok.mp h
    obtain ⟨buffer, rfl⟩ := Looks.eq (.bind looks_withCache fun _ => .pure _) hsize
    have hchain : Chain ctx ((v.withBuffer b1).withBuffer b2).next (fatGetClusterEntry ctx dir) cs :=
      hc
    obtain ⟨hlen, rfl⟩ := getDirSize_eq hs hchain hne hsize
    obtain ⟨r, v4, hwrite, h⟩ := bind_eq_ok.mp h
    cases h
    exact ⟨hlen, buffer, r, hwrite⟩

end

section

variable {ctx : Context} {v : Volume} {c m : ℕ} {cs : List ℕ} {es : List Entry}

theorem records_append {l r : List ℕ} : records ctx v (l ++ r) = records ctx v l ++ records ctx v r :=
  flatMap_append

theorem records_take {l : List ℕ} {j : ℕ} :
    records ctx v (l.take j) = (records ctx v l).take (j * ctx.entriesPerCluster) := by
  rcases Nat.le_total l.length j with hj | hj
  · rw [take_of_length_le hj, take_of_length_le]
    rw [records_length]
    exact Nat.mul_le_mul_right _ hj
  · conv_rhs => rw [← take_append_drop j l, records_append]
    rw [take_left']
    rw [records_length, length_take, Nat.min_eq_left hj]

def clustersFor (ctx : Context) (count : ℕ) : ℕ :=
  (count + ctx.entriesPerCluster - 1) / ctx.entriesPerCluster

theorem clustersFor_spec (hs : ctx.Sound) {count : ℕ} (h : 0 < count) :
    ∃ k, clustersFor ctx count = k + 1 ∧ count ≤ (k + 1) * ctx.entriesPerCluster ∧
      k * ctx.entriesPerCluster < count := by
  have hpos := hs.entriesPerCluster_pos
  have hone : 1 ≤ clustersFor ctx count := (Nat.one_le_div_iff hpos).mpr (by omega)
  have hdiv := Nat.div_add_mod (count + ctx.entriesPerCluster - 1) ctx.entriesPerCluster
  have hmod := Nat.mod_lt (count + ctx.entriesPerCluster - 1) hpos
  refine ⟨clustersFor ctx count - 1, (Nat.sub_add_cancel hone).symm, ?_, ?_⟩
  · rw [Nat.sub_add_cancel hone, clustersFor, Nat.mul_comm]
    omega
  · rw [Nat.sub_mul, Nat.one_mul, clustersFor, Nat.mul_comm]
    omega

/-- The clusters of a directory after `count` records are in use. -/
def target (ctx : Context) (v : Volume) (cs : List ℕ) (count : ℕ) : List ℕ :=
  (cs ++ v.freeList ctx).take (clustersFor ctx count)

def FreshData (ctx : Context) (v : Volume) (cs : List ℕ) (count : ℕ) : Prop :=
  ∀ b ∈ (v.freeList ctx).take (clustersFor ctx count - cs.length), ctx.IsData b

theorem records_target (hs : ctx.Sound) {count : ℕ} (hm : m ≤ (records ctx v cs).length)
    (hcount : m ≤ count) (h : 0 < count) :
    (records ctx v (target ctx v cs count)).take m = (records ctx v cs).take m := by
  obtain ⟨k, hk, hle, _⟩ := clustersFor_spec hs h
  rw [target, hk, records_take, take_take, Nat.min_eq_left (by omega), records_append,
    take_append_of_le_length hm]

theorem writeRecords_room (hs : ctx.Sound) (hc : Chain ctx v.next c cs) (hne : cs ≠ [])
    (hm : m ≤ (records ctx v cs).length) (hm' : m < 2 ^ 27) (hes : es ≠ []) (hcount : es.length ≤ 256)
    (hfresh : FreshData ctx v cs (m + es.length))
    (hroom : clustersFor ctx (m + es.length) ≤ cs.length + (v.freeList ctx).length) :
    ∃ v' written, fatWriteClusterChain ctx c (32 * m) (es.flatMap Entry.bytes) true false v =
        .ok ((none, written), v') ∧
      Chain ctx v'.next c (target ctx v cs (m + es.length)) ∧
      records ctx v' (target ctx v cs (m + es.length)) = (records ctx v cs).take m ++ es ++
          (records ctx v (target ctx v cs (m + es.length))).drop (m + es.length) := by
  have hpos : 0 < m + es.length := by have := length_pos_iff.mpr hes; omega
  obtain ⟨k, hk, hle, hlt⟩ := clustersFor_spec hs hpos
  have hbytes := flatMap_bytes_length es
  have hsize := clusterSize_eq_mul ctx
  rw [hk] at hroom
  rw [FreshData, hk] at hfresh
  have hmul : ∀ j, j * ctx.clusterSize = 32 * (j * ctx.entriesPerCluster) := by
    intro j
    rw [hsize, Nat.mul_left_comm]
  have hfree : v.freeList ctx = (v.freeList ctx).take (k + 1 - cs.length) ++
    (v.freeList ctx).drop (k + 1 - cs.length) := (take_append_drop ..).symm
  have hfull : (v.freeList ctx).take (k + 1 - cs.length) ≠ [] →
      k + 1 = (cs ++ (v.freeList ctx).take (k + 1 - cs.length)).length := by
    intro hnil
    have hlen := length_pos_iff.mpr hnil
    rw [length_take] at hlen
    rw [length_append, length_take]
    omega
  have htarget : (cs ++ (v.freeList ctx).take (k + 1 - cs.length)).take (k + 1) =
      target ctx v cs (m + es.length) := by
    rw [target, hk, take_append, take_append, take_take, Nat.min_self]
  have hhi : 32 * m + (es.flatMap Entry.bytes).length ≤ (k + 1) * ctx.clusterSize := by
    rw [hbytes, hmul]
    omega
  have hlo : k * ctx.clusterSize < 32 * m + (es.flatMap Entry.bytes).length := by
    rw [hbytes, hmul]
    omega
  have hk' : k + 1 ≤ (cs ++ (v.freeList ctx).take (k + 1 - cs.length)).length := by
    rw [length_append, length_take]
    omega
  obtain ⟨v', hwrite, hchain, hcontent, _⟩ := writeClusterChain_eq hs hc hne hfree hfresh hk' hhi hlo
    hfull (by omega) (by omega)
  rw [htarget] at hchain hcontent
  have hinside : 32 * (m + es.length) ≤ (v.content ctx (target ctx v cs (m + es.length))).length := by
    rw [content_length hchain.2, hmul, ← htarget, length_take, Nat.min_eq_left hk']
    omega
  refine ⟨v', _, hwrite, hchain, ?_⟩
  rw [records_eq hchain.2, hcontent, toRecords_splice hinside, ← records_eq hchain.2,
    records_target hs hm (by omega) hpos]

theorem flatMap_bytes_take {j : ℕ} :
    (es.flatMap Entry.bytes).take (32 * j) = (es.take j).flatMap Entry.bytes := by
  induction es generalizing j with
  | nil => simp
  | cons e es ih =>
    cases j with
    | zero => rfl
    | succ j =>
      have hlen := e.length_eq
      rw [flatMap_cons, take_succ_cons, flatMap_cons, take_append,
        take_of_length_le (by omega), hlen, ← ih, Nat.mul_succ, Nat.add_sub_cancel]

/-- Records that are written over the end of a directory on a volume without enough free clusters. -/
theorem writeRecords_full (hs : ctx.Sound) (hc : Chain ctx v.next c cs) (hne : cs ≠ [])
    (hm : m ≤ (records ctx v cs).length) (hm' : m < 2 ^ 27) (hcount : es.length ≤ 256)
    (hfresh : FreshData ctx v cs (m + es.length))
    (hroom : cs.length + (v.freeList ctx).length < clustersFor ctx (m + es.length)) :
    ∃ v' written, fatWriteClusterChain ctx c (32 * m) (es.flatMap Entry.bytes) true false v =
        .ok ((some .eio, written), v') ∧
      Chain ctx v'.next c (cs ++ v.freeList ctx) ∧
      records ctx v' (cs ++ v.freeList ctx) = (records ctx v cs).take m ++
        es.take ((cs ++ v.freeList ctx).length * ctx.entriesPerCluster - m) ∧
      (cs ++ v.freeList ctx).length * ctx.entriesPerCluster < m + es.length := by
  have hpos : 0 < m + es.length := by
    by_contra hzero
    have hnone : clustersFor ctx (m + es.length) = 0 := by
      have hepc := hs.entriesPerCluster_pos
      rw [Nat.eq_zero_of_not_pos hzero, clustersFor]
      exact Nat.div_eq_of_lt (by omega)
    omega
  obtain ⟨k, hk, _, hlt⟩ := clustersFor_spec hs hpos
  have hbytes := flatMap_bytes_length es
  have hmul : ∀ j, j * ctx.clusterSize = 32 * (j * ctx.entriesPerCluster) := by
    intro j
    rw [clusterSize_eq_mul, Nat.mul_left_comm]
  have hshort : (cs ++ v.freeList ctx).length * ctx.entriesPerCluster < m + es.length := by
    refine (Nat.mul_le_mul_right _ ?_).trans_lt hlt
    rw [length_append]
    omega
  have hfs : ∀ b ∈ v.freeList ctx, ctx.IsData b := by
    rw [FreshData, take_of_length_le (by omega)] at hfresh
    exact hfresh
  have hlo : (cs ++ v.freeList ctx).length * ctx.clusterSize <
      32 * m + (es.flatMap Entry.bytes).length := by
    rw [hbytes, hmul]
    omega
  obtain ⟨v', written, hwrite, hchain, hcontent, _⟩ := writeClusterChain_full hs hc hne rfl hfs hlo
    (by omega) (by omega)
  have hle : m ≤ (cs ++ v.freeList ctx).length * ctx.entriesPerCluster := by
    rw [records_length] at hm
    refine hm.trans (Nat.mul_le_mul_right _ ?_)
    rw [length_append]
    omega
  have htake : (es.take ((cs ++ v.freeList ctx).length * ctx.entriesPerCluster - m)).length =
      (cs ++ v.freeList ctx).length * ctx.entriesPerCluster - m := by
    rw [length_take]
    omega
  refine ⟨v', written, hwrite, hchain, ?_, hshort⟩
  rw [hmul, ← Nat.mul_sub, flatMap_bytes_take] at hcontent
  have hinside : 32 * (m + (es.take ((cs ++ v.freeList ctx).length * ctx.entriesPerCluster -
      m)).length) ≤ (v.content ctx (cs ++ v.freeList ctx)).length := by
    rw [content_length hchain.2, hmul, htake]
    omega
  rw [records_eq hchain.2, hcontent, toRecords_splice hinside, ← records_eq hchain.2, records_append,
    take_append_of_le_length hm, htake, drop_eq_nil_of_le, append_nil]
  rw [← records_append, records_length]
  omega

end

section

variable {ctx : Context} {name : Name} {front rest : List Entry} {entry : Entry} {behind : List UInt8}
  {useLfn : Bool} {rootCluster : ℕ}

theorem fatParseSfn_length_le (e : Entry) : (fatParseSfn e).length ≤ 12 := by
  have hbase := (takeWhile_sublist (fun x : UInt8 => decide (x ≠ 0x20)) (l := e.bytes.take 8)).length_le
  rw [length_take] at hbase
  refine (takeWhile_sublist _).length_le.trans ?_
  split_ifs
  · omega
  · rw [length_append, length_cons, length_take]
    omega

theorem fatParseSfn_nil (hdir : entry.isDirectory = true) : fatParseSfn (sfnEntry entry [] behind) = [] := by
  have hname : fatSetNameToSfn entry.isDirectory [] behind = List.replicate 11 0x20 := by
    rw [hdir]
    rfl
  have htake : (sfnEntry entry [] behind).bytes.take 8 = List.replicate 8 0x20 := by
    rw [sfnEntry, hname, Entry.put_bytes (by simp), splice, take_zero, nil_append,
      take_append_of_le_length (by simp), take_replicate]
    rfl
  rw [fatParseSfn, htake, sfnEntry_isDirectory, hdir]
  rfl

theorem fatParseSfn_ne_nil {e : Entry} (hfile : e.isDirectory = false) (hvalid : e.Valid) :
    fatParseSfn e ≠ [] := by
  obtain ⟨b, l, hbytes⟩ : ∃ b l, e.bytes = b :: l := by
    refine exists_cons_of_ne_nil (length_pos_iff.mp ?_)
    rw [e.length_eq]
    decide
  have hb : b ≠ 0 := by
    have hbyte := hvalid.1
    rwa [Entry.byte, hbytes] at hbyte
  rw [fatParseSfn, hfile, hbytes, take_succ_cons, takeWhile_cons]
  by_cases hspace : b = 0x20
  · simp [hspace]
  · simp [hspace, hb]

def newName (entry : Entry) (name : Name) (behind : List UInt8) (useLfn : Bool) : Name :=
  if useLfn then name else fatParseSfn (sfnEntry entry name behind)

/-- The new entry in the listing of a directory that has `m` records before it. -/
def newItem (entry : Entry) (name : Name) (behind : List UInt8) (useLfn : Bool) (m : ℕ) : Item :=
  ⟨sfnEntry entry name behind, newName entry name behind useLfn, m + lfnWritten name useLfn,
    if lfnWritten name useLfn = 0 then noLfn else m⟩

/-- A long name fits into the records that can be written for it. -/
def NameFits (entry : Entry) (name : Name) (useLfn : Bool) : Prop :=
  useLfn = true → name.length ≤ 819 ∧ (name = [] → entry.isDirectory = true)

theorem lfnWritten_le : 13 * (lfnWritten name useLfn - 1) ≤ name.length := by
  rw [lfnWritten]
  split_ifs <;> omega

theorem writtenName_eq_iff (hvalid : (sfnEntry entry name behind).Valid)
    (hc : lfnWritten name useLfn ≤ 63) :
    (if lfnWritten name useLfn = 0 then fatParseSfn (sfnEntry entry name behind)
      else name.take (13 * lfnWritten name useLfn)) = newName entry name behind useLfn ↔
      NameFits entry name useLfn := by
  cases useLfn with
  | false => exact iff_of_true rfl (fun h => absurd h (by decide))
  | true =>
    have hwritten : lfnWritten name true = (name.length + 12) / 13 % 256 := rfl
    have hnew : newName entry name behind true = name := rfl
    rw [hnew, NameFits]
    by_cases hzero : lfnWritten name true = 0
    · rw [if_pos hzero]
      constructor
      · intro heq _
        have hlen := fatParseSfn_length_le (sfnEntry entry name behind)
        rw [heq] at hlen
        refine ⟨by omega, fun hnil => ?_⟩
        by_contra hdir
        refine fatParseSfn_ne_nil ?_ hvalid (heq.trans hnil)
        rw [sfnEntry_isDirectory]
        exact Bool.eq_false_of_not_eq_true hdir
      · intro hfits
        obtain ⟨hlen, hdir⟩ := hfits rfl
        obtain rfl : name = [] := length_eq_zero_iff.mp (by omega)
        exact fatParseSfn_nil (hdir rfl)
    · rw [if_neg hzero, take_eq_self_iff]
      constructor
      · intro hle _
        refine ⟨by omega, ?_⟩
        rintro rfl
        exact absurd rfl hzero
      · intro hfits
        have hlen := (hfits rfl).1
        omega

theorem length_newEntries (entry : Entry) (name : Name) (behind : List UInt8) (useLfn : Bool) :
    (newEntries entry name behind useLfn).length = lfnWritten name useLfn + 1 := by
  rw [newEntries_eq, length_append, lfnRecords_length]
  rfl

theorem lfnWritten_lt (name : Name) (useLfn : Bool) : lfnWritten name useLfn < 256 := by
  rw [lfnWritten]
  split_ifs <;> omega

theorem itemsFrom_new_iff (h0 : 0 ∉ name) {m : ℕ} :
    (Complete 78 (newEntries entry name behind useLfn ++ rest) ∧
      (itemsFrom 0 none m (newEntries entry name behind useLfn ++ rest)).map
        (Item.dirent rootCluster) = [(newItem entry name behind useLfn m).dirent rootCluster]) ↔
      (sfnEntry entry name behind).Valid ∧ NameFits entry name useLfn ∧ Complete 78 rest ∧
        itemsFrom 0 none (m + (newEntries entry name behind useLfn).length) rest = [] := by
  have hlfn := sfnEntry_not_isLfn entry name behind
  rw [length_newEntries, newEntries_eq, append_assoc, singleton_append]
  by_cases hc : lfnWritten name useLfn ≤ 63
  case neg =>
    refine iff_of_false (fun h => ?_) (fun h => ?_)
    · exact not_complete_lfnRecords (by omega) (lfnWritten_lt name useLfn) h.1
    · cases useLfn with
      | false => exact hc (Nat.zero_le _)
      | true =>
        have hlen := (h.2.1 rfl).1
        have hwritten : lfnWritten name true = (name.length + 12) / 13 % 256 := rfl
        omega
  rw [complete_newEntries hc hlfn]
  by_cases hvalid : (sfnEntry entry name behind).Valid
  case neg =>
    refine iff_of_false (fun h => ?_) (fun h => hvalid h.1)
    obtain ⟨x, hx, hdirent⟩ : ∃ x ∈ itemsFrom 0 none m (lfnRecords (lfnWritten name useLfn) _ name ++
        sfnEntry entry name behind :: rest), x.dirent rootCluster =
          (newItem entry name behind useLfn m).dirent rootCluster := by
      rw [← mem_map, h.2]
      exact mem_singleton_self _
    have hlt := itemsFrom_newEntries_invalid hc hvalid x hx
    have hoff : x.index = m + lfnWritten name useLfn := congrArg Dirent.off hdirent
    omega
  rw [itemsFrom_newEntries hc h0 lfnWritten_le hlfn hvalid, map_cons,
    cons_eq_cons, map_eq_nil_iff, Nat.add_assoc]
  have hname : (Item.dirent rootCluster ⟨sfnEntry entry name behind,
      if lfnWritten name useLfn = 0 then fatParseSfn (sfnEntry entry name behind)
        else name.take (13 * lfnWritten name useLfn), m + lfnWritten name useLfn,
      if lfnWritten name useLfn = 0 then noLfn else m⟩ =
        (newItem entry name behind useLfn m).dirent rootCluster) ↔ NameFits entry name useLfn := by
    rw [← writtenName_eq_iff hvalid hc]
    refine ⟨fun h => congrArg Dirent.name h, fun h => ?_⟩
    rw [Item.dirent, Item.dirent, newItem, h]
  rw [hname]
  exact ⟨fun ⟨hcomplete, hfits, hempty⟩ => ⟨hvalid, hfits, hcomplete, hempty⟩,
    fun ⟨_, hfits, hcomplete, hempty⟩ => ⟨hcomplete, hfits, hempty⟩⟩

end

section

variable {ctx : Context} {v v' : Volume} {cs : List ℕ} {m : ℕ} {dir entry : Entry} {name : Name}
  {behind : List UInt8} {useLfn : Bool} {look : Env}

/-- A new entry behind `m` records is the only one that the listing gains. -/
structure Grows (ctx : Context) (v : Volume) (cs : List ℕ) (m : ℕ) (entry : Entry) (name : Name)
    (behind : List UInt8) (useLfn : Bool) : Prop where
  /-- the place of the first new record is a `uint32_t` in bytes -/
  position : m < 2 ^ 27
  /-- there are enough free clusters where the search for them begins -/
  room : clustersFor ctx (m + (newEntries entry name behind useLfn).length) ≤
    cs.length + (v.freeList ctx).length
  valid : (sfnEntry entry name behind).Valid
  fits : NameFits entry name useLfn
  /-- what stands behind the new records in their last cluster does not stop a scan -/
  complete : Complete 78
    ((records ctx v (target ctx v cs (m + (newEntries entry name behind useLfn).length))).drop
      (m + (newEntries entry name behind useLfn).length))
  /-- and has no entry -/
  empty : itemsFrom 0 none (m + (newEntries entry name behind useLfn).length)
    ((records ctx v (target ctx v cs (m + (newEntries entry name behind useLfn).length))).drop
      (m + (newEntries entry name behind useLfn).length)) = []

theorem target_ne_nil (hs : ctx.Sound) (hne : cs ≠ []) {count : ℕ} (h : 0 < count) :
    target ctx v cs count ≠ [] := by
  obtain ⟨k, hk, _⟩ := clustersFor_spec hs h
  obtain ⟨a, l, rfl⟩ := exists_cons_of_ne_nil hne
  rw [target, hk, cons_append, take_succ_cons]
  exact cons_ne_nil _ _

theorem records_target_length (hs : ctx.Sound) (w v : Volume) (cs : List ℕ) {count : ℕ}
    (h : 0 < count) :
    (records ctx w (target ctx v cs count)).length < count + ctx.entriesPerCluster := by
  obtain ⟨k, hk, _, hlt⟩ := clustersFor_spec hs h
  have hlen : (target ctx v cs count).length ≤ k + 1 := by
    rw [target, hk]
    exact length_take_le _ _
  rw [records_length]
  refine (Nat.mul_le_mul_right _ hlen).trans_lt ?_
  rw [Nat.succ_mul]
  omega

theorem not_listsAll_of_short (hs : ctx.Sound) (hc : Chain ctx v'.next (fatGetClusterEntry ctx dir) cs)
    (hne : cs ≠ []) (hshort : (records ctx v' cs).length ≤ m + lfnWritten name useLfn)
    {l : List Dirent} : ¬ ∃ maxSize, ListsAll ctx dir v' maxSize look
      (l ++ [(newItem entry name behind useLfn m).dirent ctx.bpb.rootClusterNumber.toNat]) := by
  rw [listsAll_exists_iff hs hc hne]
  rintro ⟨_, _, heq⟩
  obtain ⟨x, hx, hdirent⟩ : ∃ x ∈ items (records ctx v' cs) 0,
      x.dirent ctx.bpb.rootClusterNumber.toNat =
        (newItem entry name behind useLfn m).dirent ctx.bpb.rootClusterNumber.toNat := by
    rw [← mem_map, ← heq]
    exact mem_append_right _ (mem_singleton_self _)
  have hlt := (itemsFrom_mem hx).2.1
  have hoff : x.index = m + lfnWritten name useLfn := congrArg Dirent.off hdirent
  rw [drop_zero] at hlt
  omega

theorem writeClusterChain_mod (c m : ℕ) (data : List UInt8) (eoc fwz : Bool) :
    fatWriteClusterChain ctx c (32 * m) data eoc fwz =
      fatWriteClusterChain ctx c (32 * (m % 2 ^ 27)) data eoc fwz := by
  have hmod : 32 * m % 2 ^ 32 = 32 * (m % 2 ^ 27) % 2 ^ 32 := by omega
  rw [fatWriteClusterChain, fatWriteClusterChain, hmod]

theorem entriesPerCluster_le (ctx : Context) : ctx.entriesPerCluster ≤ 4080 := by
  have := ctx.bpb.sectorsPerCluster.toNat_lt
  rw [entriesPerCluster_eq]
  omega

/-- In a directory of 2^27 records and more the place wraps: the new ones are written over earlier
ones and the rest of the chain is cut off. -/
theorem write_wraps (hs : ctx.Sound) {es : List Entry}
    (hc : Chain ctx v.next (fatGetClusterEntry ctx dir) cs) (hne : cs ≠ [])
    (hm : m ≤ (records ctx v cs).length) (hbig : 2 ^ 27 ≤ m) (hes : es ≠ [])
    (hcount : es.length ≤ 256) {r : Option Errno × ℕ}
    (hwrite : fatWriteClusterChain ctx (fatGetClusterEntry ctx dir) (32 * m)
      (es.flatMap Entry.bytes) true false v = .ok (r, v')) :
    ∃ cs', cs' ≠ [] ∧ Chain ctx v'.next (fatGetClusterEntry ctx dir) cs' ∧
      (records ctx v' cs').length ≤ m := by
  have hsmall : m % 2 ^ 27 < 2 ^ 27 := Nat.mod_lt _ (by decide)
  have hpos := length_pos_iff.mpr hes
  have hepc := entriesPerCluster_le ctx
  obtain ⟨k, hk, hle, hlt⟩ := clustersFor_spec hs
    (show 0 < m % 2 ^ 27 + es.length by omega)
  have hinside : k + 1 ≤ cs.length := by
    refine Nat.lt_of_mul_lt_mul_right (hlt.trans_le ?_)
    rw [records_length] at hm
    omega
  have hfresh : FreshData ctx v cs (m % 2 ^ 27 + es.length) := by
    intro b hb
    rw [hk, Nat.sub_eq_zero_of_le hinside, take_zero] at hb
    exact absurd hb not_mem_nil
  obtain ⟨v1, written, hroom, hchain, _⟩ := writeRecords_room hs hc hne (by omega) hsmall hes hcount
    hfresh (by omega)
  rw [writeClusterChain_mod, hroom] at hwrite
  obtain ⟨_, rfl⟩ : _ ∧ v1 = v' := by simpa using hwrite
  refine ⟨_, target_ne_nil hs hne (by omega), hchain, ?_⟩
  have hlen := records_target_length hs v1 v cs (show 0 < m % 2 ^ 27 + es.length by omega)
  omega

theorem listed_new_iff (hs : ctx.Sound) {cs' : List ℕ} {rest rs : List Entry} (hfill : Filled rs m)
    (h0 : 0 ∉ name) (hc : Chain ctx v'.next (fatGetClusterEntry ctx dir) cs') (hne : cs' ≠ [])
    (hlen : (records ctx v' cs').length < 2 ^ 32)
    (heq : records ctx v' cs' = rs.take m ++ newEntries entry name behind useLfn ++ rest) :
    (∃ maxSize, ListsAll ctx dir v' maxSize look
      ((items rs 0).map (Item.dirent ctx.bpb.rootClusterNumber.toNat) ++
        [(newItem entry name behind useLfn m).dirent ctx.bpb.rootClusterNumber.toNat])) ↔
      (sfnEntry entry name behind).Valid ∧ NameFits entry name useLfn ∧ Complete 78 rest ∧
        itemsFrom 0 none (m + (newEntries entry name behind useLfn).length) rest = [] := by
  have hfront := length_take_of_le hfill.le
  rw [listsAll_exists_iff hs hc hne, ← itemsFrom_new_iff h0, hfill.items_eq, heq, append_assoc,
    hfill.wellFormed.complete_append (by decide), items, drop_zero,
    hfill.wellFormed.itemsFrom_append, map_append, append_cancel_left_eq, Nat.zero_add, hfront]
  rw [heq, append_assoc] at hlen
  exact ⟨fun h => ⟨h.2.1, h.2.2.symm⟩, fun h => ⟨hlen, h.1, h.2.symm⟩⟩

theorem exists_ok {α : Type} {a : α} {r : Except Fault (α × Volume)}
    (h : r.toOption.map Prod.fst = some a) : ∃ v', r = .ok (a, v') := by
  cases r with
  | error f => cases h
  | ok r => exact ⟨r.2, by rw [← Option.some.inj h]⟩

/-- A volume on which the root directory has one cluster, with 16 files, and the next free cluster
keeps the record of a file that was deleted with its directory. -/
def fullVolume : Volume where
  disk := fun p =>
    let start := smallContext.partition.start + smallContext.clusterPosition 2
    if start ≤ p ∧ p < start + 512 ∧ (p - start) % 32 = 0 ∨ p = start + 512 + 160 then 0x41 else 0
  fat := fun c => if c = 2 then 0xFFFFFFF else 0
  freeClusterCount := 0
  nextFreeCluster := 3
  buffer := []

end

end Kot.Fat
