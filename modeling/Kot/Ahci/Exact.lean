import Kot.Ahci.Device

/-! Which requests are exact: a write changes its bytes of the disk and no others, a read returns
its bytes, and a request behind the end of the disk makes no transfer. -/
namespace Kot.Ahci

open Kot.Kernel Kot.Lib

variable {d : Device} {s : State} {position remaining n turns k : ℕ} {buffer : ℕ → UInt8}

theorem performAll_append (s : State) (cs ds : List Section) :
    (performAll s (cs ++ ds)).1 = (performAll (performAll s cs).1 ds).1 := by
  induction cs generalizing s with
  | nil => rfl
  | cons c cs ih => exact ih _

theorem performAll_transfers (s : State) (cs : List Section) :
    (performAll s cs).1.transfers.length = s.transfers.length + cs.length := by
  induction cs generalizing s with
  | nil => rfl
  | cons c cs ih =>
    have hone : (perform s c).1.transfers.length = s.transfers.length + 1 := by
      cases c with
      | read position size target => cases target <;> simp [perform]
      | write position bytes => simp [perform]
    change (performAll (perform s c).1 cs).1.transfers.length = _
    rw [ih, hone, List.length_cons]
    omega

/-- The disk is as before, and so is the cache behind its first sector. -/
structure Nested (s t : State) : Prop where
  disk : t.disk = s.disk
  cache : ∀ x, alignement ≤ x → t.cache x = s.cache x

/-- The first sector of the cache holds the sector `q` of the disk. -/
def Loaded (s : State) (q : ℕ) : Prop := ∀ x < alignement, s.cache x = s.disk (q + x)

theorem Nested.refl (s : State) : Nested s s := ⟨rfl, fun _ _ => rfl⟩

theorem Nested.trans {t u : State} (h : Nested s t) (h' : Nested t u) : Nested s u :=
  ⟨h'.disk.trans h.disk, fun x hx => (h'.cache x hx).trans (h.cache x hx)⟩

theorem readSections_single {target : Option ℕ} (h : remaining ≠ 0)
    (hn : sizeProcessing position remaining = remaining) :
    readSections remaining position remaining target = [.read position remaining target] := by
  obtain ⟨m, rfl⟩ : ∃ m, remaining = m + 1 := ⟨remaining - 1, by omega⟩
  rw [readSections_succ h, hn, Nat.sub_self]
  cases m <;> simp [readSections]

theorem perform_nested (hn : n ≠ 0) (hle : n ≤ alignement) :
    Nested s (perform s (.read position n (some (position % alignement)))).1 ∧
      Loaded (perform s (.read position n (some (position % alignement)))).1
        (position - position % alignement) := by
  have hsec : sectorBytes n = alignement := by
    unfold sectorBytes alignement at *
    omega
  have hcache : ∀ x, (perform s (.read position n (some (position % alignement)))).1.cache x =
      if x < alignement then s.disk (position - position % alignement + x) else s.cache x := by
    intro x
    simp only [perform]
    have hself : ∀ (m : ℕ → UInt8) a j y, writeAt m a (readAt m a j) y = m y := by
      intro m a j y
      rw [writeAt_readAt]
      split_ifs with h
      · congr 1
        omega
      · rfl
    rw [hself, writeAt_readAt, hsec]
    simp
  refine ⟨⟨rfl, fun x hx => ?_⟩, fun x hx => ?_⟩
  · rw [hcache, if_neg (by omega)]
  · rw [hcache, if_pos hx]
    rfl

theorem sizeProcessing_of_unaligned (h : position % alignement ≠ 0) :
    sizeProcessing position remaining = min (alignement - position % alignement) remaining := by
  unfold sizeProcessing upToSector
  simp only [ne_eq, h, not_false_eq_true, if_true]
  unfold blockCacheSize alignement at *
  omega

theorem sizeProcessing_of_aligned (h : position % alignement = 0) :
    sizeProcessing position remaining = min remaining blockCacheSize := by
  unfold sizeProcessing upToSector
  simp only [h, ne_eq, not_true_eq_false, if_false]

theorem performAll_single {c : Section} : (performAll s [c]).1 = (perform s c).1 := rfl

/-- A read inside one sector is one transfer, and it loads the sector. -/
theorem sector_spec (s : State) (position : ℕ) (hin : position + n ≤ d.size) (hn : n ≠ 0)
    (hle : position % alignement + n ≤ alignement) :
    let t := (performAll s ((ahciDeviceRead d position n (some (position % alignement))).getD [])).1
    Nested s t ∧ Loaded t (position - position % alignement) := by
  have hsize := d.size_lt
  have hproc : sizeProcessing position n = n := by
    by_cases hoff : position % alignement = 0
    · rw [sizeProcessing_of_aligned hoff]
      unfold blockCacheSize alignement at *
      omega
    · rw [sizeProcessing_of_unaligned hoff]
      omega
  rw [ahciDeviceRead, wadd_of_lt (by omega), if_neg (by omega), Option.getD_some,
    readSections_single hn hproc]
  exact perform_nested hn (by omega)

theorem tail_spec {stop : ℕ} (hin : stop ≤ d.size) :
    Nested s (performAll s (tailSections d stop)).1 ∧ (stop % alignement ≠ 0 →
        Loaded (performAll s (tailSections d stop)).1 (stop - stop % alignement)) := by
  by_cases hoff : stop % alignement = 0
  · rw [tailSections, if_neg (not_not.mpr hoff)]
    exact ⟨.refl s, fun h => absurd hoff h⟩
  · have hwhole := d.whole
    have hlt := Nat.mod_lt stop (show 0 < alignement by decide)
    have hend : stop + (alignement - stop % alignement) ≤ d.size := by
      unfold alignement at *
      omega
    rw [tailSections, if_pos hoff]
    have hspec := sector_spec s stop hend (by omega) (by omega)
    exact ⟨hspec.1, fun _ => hspec.2⟩

theorem head_spec (hin : position ≤ d.size) : Nested s (performAll s (headSections d position)).1 ∧
      (position % alignement ≠ 0 →
        Loaded (performAll s (headSections d position)).1 (position - position % alignement)) := by
  by_cases hoff : position % alignement = 0
  · rw [headSections, if_neg (not_not.mpr hoff)]
    exact ⟨.refl s, fun h => absurd hoff h⟩
  · have haligned : (position - position % alignement) % alignement = 0 := by
      unfold alignement
      omega
    have hle := Nat.mod_le position alignement
    have hlt := Nat.mod_lt position (show 0 < alignement by decide)
    have hspec := sector_spec (d := d) s (position - position % alignement) (by omega) hoff (by omega)
    rw [haligned] at hspec
    rw [headSections, if_pos hoff]
    exact ⟨hspec.1, fun _ => hspec.2⟩

theorem nested_spec (hin : position + remaining ≤ d.size) (hrem : remaining ≠ 0) :
    ∃ pre, writePrepare d position remaining buffer k =
        pre ++ [.write position (readAt buffer k (sizeProcessing position remaining))] ∧
      Nested s (performAll s pre).1 ∧
      (position % alignement ≠ 0 ∨ sizeProcessing position remaining < alignement →
        Loaded (performAll s pre).1 (position - position % alignement)) := by
  have hsize := d.size_lt
  have hwle : upToSector position remaining ≤ remaining := by
    unfold upToSector
    simp only
    split_ifs <;> omega
  set stop := position + upToSector position remaining with hstop
  have hadd : wadd position (upToSector position remaining) = stop := wadd_of_lt (by omega)
  obtain ⟨hhead, hloaded⟩ := head_spec (show position ≤ d.size by omega)
  set s1 := (performAll s (headSections d position)).1
  by_cases hbig : upToSector position remaining > blockCacheSize
  · refine ⟨headSections d position, ?_, hhead, fun h => hloaded (h.resolve_right ?_)⟩
    · simp only [writePrepare, hbig, if_true, List.append_nil]
      rfl
    · unfold sizeProcessing blockCacheSize alignement at *
      omega
  · obtain ⟨htail, hloaded'⟩ := tail_spec (show stop ≤ d.size by omega)
    refine ⟨headSections d position ++ tailSections d stop, ?_, ?_, ?_⟩
    · simp only [writePrepare, hbig, if_false, hadd]
      rfl
    · rw [performAll_append]
      exact hhead.trans htail
    · intro h
      rw [performAll_append]
      by_cases hoff : stop % alignement = 0
      · have hnil : tailSections d stop = [] := by
          simp only [tailSections, hoff, ne_eq, not_true_eq_false, if_false]
        rw [hnil]
        refine hloaded fun hzero => ?_
        -- an aligned write that ends inside its first sector does not end at the end of a sector
        unfold sizeProcessing upToSector blockCacheSize alignement at *
        simp only at *
        split_ifs at * <;> omega
      · have hsame : stop - stop % alignement = position - position % alignement := by
          unfold sizeProcessing upToSector blockCacheSize alignement at *
          simp only at *
          split_ifs at * <;> omega
        rw [← hsame]
        exact hloaded' hoff

theorem perform_write_cache {x : ℕ} : (perform s (.write position (readAt buffer k n))).1.cache x =
      if position % alignement ≤ x ∧ x < position % alignement + n then
        buffer (k + (x - position % alignement)) else s.cache x := writeAt_readAt

theorem perform_write_disk {x : ℕ} : (perform s (.write position (readAt buffer k n))).1.disk x =
      if position - position % alignement ≤ x ∧
          x < position - position % alignement + sectorBytes n then
        (perform s (.write position (readAt buffer k n))).1.cache
          (x - (position - position % alignement)) else s.disk x := by
  simp only [perform, readAt_length, writeAt_readAt, Nat.zero_add]

/-- A piece whose sectors it fills, or whose sector has been read before. -/
def Tidy (position n : ℕ) : Prop := position % alignement ≠ 0 ∨ n < alignement ∨ n % alignement = 0

theorem writePrepare_disk (buffer : ℕ → UInt8) (k : ℕ) (hin : position + remaining ≤ d.size) (hrem : remaining ≠ 0)
    (htidy : Tidy position (sizeProcessing position remaining)) :
    (performAll s (writePrepare d position remaining buffer k)).1.disk =
      writeAt s.disk position (readAt buffer k (sizeProcessing position remaining)) := by
  obtain ⟨pre, hpre, hnested, hloaded⟩ := nested_spec hin hrem
  have hfits := offset_add_sizeProcessing_le position hrem
  have hmod := Nat.mod_le position alignement
  rw [hpre, performAll_append, performAll_single]
  set t := (performAll s pre).1
  set n := sizeProcessing position remaining with hn
  funext x
  rw [perform_write_disk, perform_write_cache, writeAt_readAt, hnested.disk]
  split_ifs with hsec hbyte hx hx
  · congr 1
    omega
  · omega
  · omega
  · -- a byte of the sectors outside the piece: the cache has been loaded with it
    have hsmall : x - (position - position % alignement) < alignement ∧
        (position % alignement ≠ 0 ∨ n < alignement) := by
      have hle : position % alignement ≠ 0 → n ≤ alignement - position % alignement := fun hoff => by
        rw [hn, sizeProcessing_of_unaligned hoff]
        omega
      unfold Tidy sectorBytes alignement at *
      omega
    rw [hloaded hsmall.2 _ hsmall.1, hnested.disk]
    congr 1
    omega
  · omega
  · rfl

/-- A request whose last piece is tidy: it ends at the end of a sector, or less than a sector is
left for its last turn. -/
def Ends (position remaining : ℕ) : Prop :=
  (position + remaining) % alignement = 0 ∨
    (remaining - min remaining ((alignement - position % alignement) % alignement)) % blockCacheSize <
      alignement

theorem tidy_of_ends (h : Ends position remaining) :
    Tidy position (sizeProcessing position remaining) := by
  by_cases hoff : position % alignement = 0
  · rw [sizeProcessing_of_aligned hoff]
    right
    unfold Ends blockCacheSize alignement at *
    omega
  · exact .inl hoff

theorem ends_succ (h : sizeProcessing position remaining < remaining) :
    Ends (position + sizeProcessing position remaining)
      (remaining - sizeProcessing position remaining) ↔ Ends position remaining := by
  by_cases hoff : position % alignement = 0
  · rw [sizeProcessing_of_aligned hoff] at h ⊢
    unfold Ends blockCacheSize alignement at *
    omega
  · rw [sizeProcessing_of_unaligned hoff] at h ⊢
    unfold Ends blockCacheSize alignement at *
    omega

theorem ends_zero : Ends position 0 := by
  right
  simp [blockCacheSize, alignement]

theorem ends_next (h : Ends position remaining) :
    Ends (position + sizeProcessing position remaining)
      (remaining - sizeProcessing position remaining) := by
  rcases Nat.lt_or_ge (sizeProcessing position remaining) remaining with hlt | hge
  · exact (ends_succ hlt).mpr h
  · rw [Nat.sub_eq_zero_of_le hge]
    exact ends_zero

theorem writeLoop_succ (h : remaining ≠ 0) : writeLoop d buffer (turns + 1) position remaining k =
      writePrepare d position remaining buffer k ::
        writeLoop d buffer turns (wadd position (sizeProcessing position remaining))
          (remaining - sizeProcessing position remaining)
          (wadd k (sizeProcessing position remaining)) := by
  rw [writeLoop, if_neg h]

theorem writeLoop_zero : writeLoop d buffer turns position 0 k = [] := by
  cases turns <;> simp [writeLoop]

theorem writeAt_append {m : ℕ → UInt8} {p j : ℕ} :
    writeAt (writeAt m p (readAt buffer k n)) (p + n) (readAt buffer (k + n) j) =
      writeAt m p (readAt buffer k (n + j)) := by
  funext x
  rw [writeAt_readAt, writeAt_readAt, writeAt_readAt]
  split_ifs <;> first | rfl | omega | (congr 1; omega)

theorem writeLoop_disk (hin : position + remaining ≤ d.size) (hk : k + remaining < 2 ^ 64)
    (ht : remaining ≤ turns) (hends : Ends position remaining) :
    (performAll s (writeLoop d buffer turns position remaining k).flatten).1.disk =
      writeAt s.disk position (readAt buffer k remaining) := by
  have hsize := d.size_lt
  induction turns generalizing s position remaining k with
  | zero =>
    obtain rfl : remaining = 0 := by omega
    simp [writeLoop, performAll]
  | succ turns ih =>
    by_cases h0 : remaining = 0
    · subst h0
      simp [writeLoop_zero, performAll]
    · have hle := sizeProcessing_le position remaining
      have hpos := sizeProcessing_pos position h0
      have hdisk := writePrepare_disk (s := s) buffer k hin h0 (tidy_of_ends hends)
      have hends' := ends_next hends
      rw [writeLoop_succ h0, List.flatten_cons, performAll_append]
      set n := sizeProcessing position remaining
      rw [wadd_of_lt (by omega), wadd_of_lt (by omega), ih (by omega) (by omega) (by omega) hends',
        hdisk, writeAt_append]
      congr 2
      omega

/-! A request whose last piece is not tidy puts old bytes of the cache behind it. -/

/-- The cache behind its first sector is cleared. -/
def Cleared (s : State) : Prop := ∀ x, alignement ≤ x → s.cache x = 0

theorem writePrepare_cleared (hin : position + remaining ≤ d.size) (hrem : remaining ≠ 0)
    (hs : Cleared s) :
    Cleared (performAll s (writePrepare d position remaining (fun _ => 0) k)).1 := by
  obtain ⟨pre, hpre, hnested, _⟩ := nested_spec hin hrem
  rw [hpre, performAll_append, performAll_single]
  intro x hx
  rw [perform_write_cache, hnested.cache x hx, hs x hx, ite_self]

theorem writePrepare_behind (hin : position + remaining ≤ d.size) (hs : Cleared s)
    (hoff : position % alignement = 0) (hlt : alignement < remaining) (hle : remaining ≤ blockCacheSize)
    (hrest : remaining % alignement ≠ 0) :
    (performAll s (writePrepare d position remaining (fun _ => 0) k)).1.disk (position + remaining) =
      0 := by
  obtain ⟨pre, hpre, hnested, _⟩ := nested_spec hin
    (by omega)
  have hn : sizeProcessing position remaining = remaining := by
    rw [sizeProcessing_of_aligned hoff]
    omega
  have hsec : remaining < sectorBytes remaining := by
    unfold sectorBytes alignement at *
    omega
  rw [hpre, performAll_append, performAll_single, hn, perform_write_disk, perform_write_cache, hoff,
    if_pos (by omega), if_neg (by omega), hnested.cache _ (by omega), hs _ (by omega)]

theorem writeLoop_behind (hin : position + remaining ≤ d.size) (hk : k + remaining < 2 ^ 64)
    (ht : remaining ≤ turns) (hends : ¬ Ends position remaining) (hs : Cleared s) :
    (performAll s (writeLoop d (fun _ => 0) turns position remaining k).flatten).1.disk
      (position + remaining) = 0 := by
  have hsize := d.size_lt
  induction turns generalizing s position remaining k with
  | zero =>
    obtain rfl : remaining = 0 := by omega
    exact absurd ends_zero hends
  | succ turns ih =>
    have h0 : remaining ≠ 0 := by
      rintro rfl
      exact hends ends_zero
    have hle := sizeProcessing_le position remaining
    have hpos := sizeProcessing_pos position h0
    rw [writeLoop_succ h0, List.flatten_cons, performAll_append]
    rcases Nat.lt_or_ge (sizeProcessing position remaining) remaining with hlt | hge
    · have hcleared := writePrepare_cleared (k := k) hin h0 hs
      have hends' := mt (ends_succ hlt).mp hends
      set n := sizeProcessing position remaining
      rw [wadd_of_lt (by omega), wadd_of_lt (by omega)]
      have := ih (k := k + n) (by omega) (by omega) (by omega) hends' hcleared
      rwa [show position + n + (remaining - n) = position + remaining by omega] at this
    · have hlast : sizeProcessing position remaining = remaining := by omega
      have hoff : position % alignement = 0 := by
        by_contra hoff
        rw [sizeProcessing_of_unaligned hoff] at hlast
        unfold Ends blockCacheSize alignement at *
        omega
      rw [sizeProcessing_of_aligned hoff] at hlast
      rw [sizeProcessing_of_aligned hoff, hlast, Nat.sub_self, writeLoop_zero, List.flatten_nil]
      refine writePrepare_behind hin hs hoff ?_ (by omega) ?_
      · unfold Ends blockCacheSize alignement at *
        omega
      · unfold Ends blockCacheSize alignement at *
        omega

/-- The bytes that a request asks for, and only those, or nothing behind the end of the disk. -/
def Exact (d : Device) (start size : ℕ) (s : State) (buffer : ℕ → UInt8) : Prop :=
  (start + size ≤ d.size →
    (performAll s (ahciDeviceWrite d start size buffer).flatten).1.disk =
      writeAt s.disk start (readAt buffer 0 size) ∧
    ∃ cs, ahciDeviceRead d start size none = some cs ∧
      (performAll s cs).2 = readAt s.disk start size ∧ (performAll s cs).1.disk = s.disk) ∧
  (d.size ≤ start →
    (performAll s (ahciDeviceWrite d start size buffer).flatten).1.transfers = s.transfers ∧
    (performAll s ((ahciDeviceRead d start size none).getD [])).1.transfers = s.transfers)

theorem writeLoop_flatten_eq_nil {size : ℕ} :
    (writeLoop d buffer size position size k).flatten = [] ↔ size = 0 := by
  constructor
  · intro h
    by_contra h0
    obtain ⟨m, rfl⟩ : ∃ m, size = m + 1 := ⟨size - 1, by omega⟩
    rw [writeLoop_succ h0, List.flatten_cons] at h
    simp [writePrepare] at h
  · rintro rfl
    rfl

theorem exact_inside {start size : ℕ} (hin : start + size ≤ d.size) :
    (∀ s buffer, Exact d start size s buffer) ↔
      Ends start size ∧ (d.size ≤ start → start = d.size) := by
  have hsize := d.size_lt
  have hadd : wadd start size = start + size := wadd_of_lt (by omega)
  have hwrite : ∀ buffer, ahciDeviceWrite d start size buffer = writeLoop d buffer size start size 0 := by
    intro buffer
    simp only [ahciDeviceWrite, hadd, if_neg (Nat.not_lt.mpr hin)]
  have hread : ahciDeviceRead d start size none = some (readSections size start size none) := by
    rw [ahciDeviceRead, hadd, if_neg (Nat.not_lt.mpr hin)]
  constructor
  · intro h
    refine ⟨?_, fun hout => by omega⟩
    by_contra hends
    have hexact := ((h ⟨fun _ => 1, fun _ => 0, []⟩ fun _ => 0).1 hin).1
    rw [hwrite] at hexact
    have hbehind := writeLoop_behind (s := ⟨fun _ => 1, fun _ => 0, []⟩) (k := 0) hin (by omega)
      (Nat.le_refl _) hends fun _ _ => rfl
    rw [hexact, writeAt_outside (by rw [readAt_length]; omega)] at hbehind
    cases hbehind
  · rintro ⟨hends, _⟩ s buffer
    refine ⟨fun _ => ⟨?_, _, hread, readSections_eq (by omega) (Nat.le_refl _)⟩, fun hout => ?_⟩
    · rw [hwrite]
      exact writeLoop_disk hin (by omega) (Nat.le_refl _) hends
    · obtain rfl : size = 0 := by omega
      rw [hwrite, hread]
      exact ⟨rfl, rfl⟩

theorem exact_outside {start size : ℕ} (hin : ¬ start + size ≤ d.size) (hout : d.size ≤ start)
    (hstart : start < 2 ^ 64) (hlt : size < 2 ^ 64) :
    (∀ s buffer, Exact d start size s buffer) ↔ start = d.size ∧ start + size < 2 ^ 64 := by
  have hsize := d.size_lt
  constructor
  · intro h
    have hcount := performAll_transfers ⟨fun _ => 0, fun _ => 0, []⟩
      (ahciDeviceWrite d start size fun _ => 0).flatten
    rw [((h ⟨fun _ => 0, fun _ => 0, []⟩ fun _ => 0).2 hout).1] at hcount
    have hnil := List.eq_nil_of_length_eq_zero (Nat.add_left_cancel (k := 0) hcount.symm)
    have hzero := writeLoop_flatten_eq_nil.mp hnil
    unfold wadd wsub at hzero
    split_ifs at hzero with hgt
    · omega
    · omega
  · rintro ⟨rfl, hwrap⟩ s buffer
    have hgt : wadd d.size size > d.size := by
      rw [wadd_of_lt hwrap]
      omega
    have hzero : wsub d.size d.size = 0 := by
      rw [wsub_of_le hsize (Nat.le_refl _), Nat.sub_self]
    refine ⟨fun h => absurd h hin, fun _ => ⟨?_, ?_⟩⟩
    · simp only [ahciDeviceWrite, hgt, if_true, hzero]
      rfl
    · rw [ahciDeviceRead, if_pos hgt, if_neg (Nat.lt_irrefl _)]
      rfl

/-- A request is exact on every disk, with every contents of cache and buffer, exactly if its last
piece is tidy or, where it starts behind the end of the disk, if it starts right there and does not
wrap around. -/
theorem exact_iff (d : Device) (start size : UInt64) :
    (∀ s buffer, Exact d start.toNat size.toNat s buffer) ↔
      (start.toNat + size.toNat ≤ d.size → Ends start.toNat size.toNat) ∧
      (d.size ≤ start.toNat → start.toNat = d.size ∧ start.toNat + size.toNat < 2 ^ 64) := by
  have hstart := start.toNat_lt
  have hlt := size.toNat_lt
  by_cases hin : start.toNat + size.toNat ≤ d.size
  · rw [exact_inside hin]
    constructor
    · rintro ⟨hends, hout⟩
      exact ⟨fun _ => hends, fun h => ⟨hout h, by omega⟩⟩
    · rintro ⟨hends, hout⟩
      exact ⟨hends hin, fun h => (hout h).1⟩
  · by_cases hout : d.size ≤ start.toNat
    · rw [exact_outside hin hout hstart hlt]
      exact ⟨fun h => ⟨fun h' => absurd h' hin, fun _ => h⟩, fun h => h.2 hout⟩
    · exact ⟨fun _ => ⟨fun h => absurd h hin, fun h => absurd h hout⟩,
        fun _ s buffer => ⟨fun h => absurd h hin, fun h => absurd h hout⟩⟩

/-- A write of 513 bytes to a disk of ones through a cleared cache clears the byte behind it. -/
theorem write_clears_next_byte :
    (performAll ⟨fun _ => 1, fun _ => 0, []⟩ (ahciDeviceWrite ⟨0x10000, by decide, by decide⟩ 0 513
      fun _ => 2).flatten).1.disk 513 = 0 := by
  decide +kernel

end Kot.Ahci
