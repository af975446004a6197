import Kot.Ahci.Exact
import Kot.Lib.Groups

/-! Requests of several threads to one disk. Every section under the lock of the device is one step.
The block cache is shared, and a write that has to read a sector first does so in sections of their
own. -/
namespace Kot.Ahci

open Kot.Kernel Kot.Lib List Function

inductive Request
  | write (start size : ℕ) (buffer : ℕ → UInt8)
  | read (start size : ℕ)

/-- The sections of a request, those of one turn of a writing loop together. -/
def Request.sections (d : Device) : Request → List (List Section)
  | .write start size buffer => ahciDeviceWrite d start size buffer
  | .read start size => ((ahciDeviceRead d start size none).getD []).map ([·])

abbrev System (ι : Type*) := Threads ι State Section UInt8

variable {ι : Type*}

def System.start (d : Device) (req : ι → Request) (s : State) : System ι where
  state := s
  thread i := ⟨[], (req i).sections d, []⟩

def System.Step [DecidableEq ι] (s : System ι) (i : ι) (t : System ι) : Prop :=
  s.step perform i = some t

def Request.start : Request → ℕ
  | .write start _ _ => start
  | .read start _ => start

def Request.size : Request → ℕ
  | .write _ size _ => size
  | .read _ size => size

/-- The request has written position `x` once `w` bytes of it are done. -/
def Request.Covers : Request → (w x : ℕ) → Prop
  | .write start _ _, w, x => start ≤ x ∧ x < start + w
  | .read .., _, _ => False

def Request.byte : Request → ℕ → UInt8
  | .write start _ buffer, x => buffer (x - start)
  | .read .., _ => 0

def Request.Writes (r : Request) (x : ℕ) : Prop := r.Covers r.size x

def Request.IsWrite : Request → Prop
  | .write .. => True
  | .read .. => False

/-- A request inside the device; a write also ends so that its last piece is exact. -/
def Request.Sound (d : Device) (r : Request) : Prop :=
  r.start + r.size ≤ d.size ∧ (r.IsWrite → Ends r.start r.size)

def Disjoint (req : ι → Request) : Prop := ∀ i j, i ≠ j → ∀ x, (req i).Writes x → ¬ (req j).Writes x

def Untouched (req : ι → Request) (r : Request) : Prop :=
  ∀ x, r.start ≤ x → x < r.start + r.size → ∀ j, ¬ (req j).Writes x

/-- The disk holds all bytes written by those who have written `w` bytes, and else the old ones. -/
def Written (req : ι → Request) (w : ι → ℕ) (old disk : ℕ → UInt8) : Prop :=
  ∀ x, (∀ i, (req i).Covers (w i) x → disk x = (req i).byte x) ∧
    ((∀ i, ¬ (req i).Covers (w i) x) → disk x = old x)

/-- What the requests together owe to their callers. -/
structure Consistent (req : ι → Request) (old : ℕ → UInt8) (s : System ι) : Prop where
  writes : (∀ i, (req i).IsWrite → (s.thread i).Finished) →
    Written req (fun i => (req i).size) old s.state.disk
  reads : ∀ i, ¬ (req i).IsWrite → (s.thread i).Finished → Untouched req (req i) →
    (s.thread i).out = readAt old (req i).start (req i).size

/-- The sections left for a request of which `w` bytes are done. -/
def Request.Left (d : Device) (w : ℕ) : Request → List (List Section) → Prop
  | .write start size buffer, later => Ends (start + w) (size - w) ∧
      ∃ turns, size - w ≤ turns ∧ later = writeLoop d buffer turns (start + w) (size - w) w
  | .read start size, later => ∃ turns, size - w ≤ turns ∧
      later = (readSections turns (start + w) (size - w) none).map ([·])

/-- How far every thread is, between groups. -/
structure Progress (d : Device) (req : ι → Request) (old : ℕ → UInt8) (w : ι → ℕ) (s : System ι) :
    Prop where
  le : ∀ i, w i ≤ (req i).size
  left : ∀ i, (req i).Left d (w i) (s.thread i).later
  written : Written req w old s.state.disk
  out : ∀ i, ¬ (req i).IsWrite → Untouched req (req i) →
    (s.thread i).out = readAt old (req i).start (w i)

variable {d : Device} {req : ι → Request} {old : ℕ → UInt8} {w : ι → ℕ} {s t : System ι} {i : ι}

theorem actAll_perform {s : State} {cs : List Section} : actAll perform s cs = performAll s cs := by
  induction cs generalizing s with
  | nil => rfl
  | cons c cs ih => simp only [actAll, performAll, ih]

variable {r : Request} {k : ℕ} {g : List Section} {later : List (List Section)} {s0 : State}
  {is : List ι}

theorem Request.Covers.mono {k n x : ℕ} (h : r.Covers k x) (hkn : k ≤ n) : r.Covers n x := by
  cases r with
  | write start size buffer =>
    simp only [Covers] at h ⊢
    omega
  | read start size => exact h

theorem Request.Left.done (h : r.Left d k []) (hk : k ≤ r.size) : k = r.size := by
  by_contra hne
  cases r with
  | write start size buffer =>
    simp only [Request.size] at hk hne
    obtain ⟨_, turns, ht, hloop⟩ := h
    obtain ⟨turns, rfl⟩ : ∃ m, turns = m + 1 := ⟨turns - 1, by omega⟩
    rw [writeLoop_succ (by omega)] at hloop
    cases hloop
  | read start size =>
    simp only [Request.size] at hk hne
    obtain ⟨turns, ht, hloop⟩ := h
    obtain ⟨turns, rfl⟩ : ∃ m, turns = m + 1 := ⟨turns - 1, by omega⟩
    rw [readSections_succ (by omega)] at hloop
    cases hloop

theorem progress_start (hreq : ∀ i, (req i).Sound d) {s : State} :
    Progress d req s.disk (fun _ => 0) (System.start d req s) where
  le _ := Nat.zero_le _
  left i := by
    have hsize := d.size_lt
    have hsound := hreq i
    simp only [System.start]
    generalize req i = r at hsound
    cases r with
    | write start size buffer =>
      obtain ⟨hin, hends⟩ := hsound
      simp only [Request.start, Request.size] at hin hends
      refine ⟨hends trivial, size, Nat.le_refl _, ?_⟩
      simp only [Request.sections, ahciDeviceWrite]
      rw [wadd_of_lt (by omega), if_neg (by omega)]
      rfl
    | read start size =>
      have hin := hsound.1
      simp only [Request.start, Request.size] at hin
      refine ⟨size, Nat.le_refl _, ?_⟩
      simp only [Request.sections, ahciDeviceRead]
      rw [wadd_of_lt (by omega), if_neg (by omega)]
      rfl
  written x := by
    refine ⟨fun i h => absurd h ?_, fun _ => rfl⟩
    cases req i with
    | write start size buffer =>
      simp only [Request.Covers]
      omega
    | read start size => exact id
  out i _ _ := rfl

/-- What a group of sections does for a request of which `k` bytes are done. -/
structure Advance (d : Device) (r : Request) (k n : ℕ) (s t : State) (out : List UInt8)
    (later : List (List Section)) : Prop where
  le : k + n ≤ r.size
  left : r.Left d (k + n) later
  fresh : ∀ x, r.Covers (k + n) x → ¬ r.Covers k x → t.disk x = r.byte x
  same : ∀ x, (r.Covers (k + n) x → r.Covers k x) → t.disk x = s.disk x
  out : ¬ r.IsWrite → out = readAt s.disk (r.start + k) n

theorem Request.Left.advance (h : r.Left d k (g :: later)) (hr : r.Sound d) (hk : k ≤ r.size) (s : State) :
    ∃ n, Advance d r k n s (performAll s g).1 (performAll s g).2 later := by
  have hsize := d.size_lt
  have hin := hr.1
  cases r with
  | write start size buffer =>
    obtain ⟨hends, turns, ht, hloop⟩ := h
    simp only [Request.start, Request.size] at hin hk
    have h0 : size - k ≠ 0 := by
      intro h0
      rw [h0, writeLoop_zero] at hloop
      cases hloop
    obtain ⟨turns, rfl⟩ : ∃ m, turns = m + 1 := ⟨turns - 1, by omega⟩
    have hle := sizeProcessing_le (start + k) (size - k)
    rw [writeLoop_succ h0] at hloop
    obtain ⟨rfl, rfl⟩ := List.cons.inj hloop
    have hpos := sizeProcessing_pos (start + k) h0
    have hdisk := writePrepare_disk (s := s) buffer k (show start + k + (size - k) ≤ d.size by omega)
      h0 (tidy_of_ends hends)
    have hends' := ends_next hends
    set n := sizeProcessing (start + k) (size - k)
    refine ⟨n, by simp only [Request.size]; omega, ⟨?_, turns, by omega, ?_⟩, ?_, ?_,
      fun hw => absurd trivial hw⟩
    · rwa [Nat.add_assoc, Nat.sub_sub] at hends'
    · rw [wadd_of_lt (by omega), wadd_of_lt (by omega), Nat.add_assoc, Nat.sub_sub]
    · intro x hx hnot
      simp only [Request.Covers] at hx hnot
      rw [hdisk, writeAt_readAt, if_pos (by omega), Request.byte]
      congr 1
      omega
    · intro x hx
      simp only [Request.Covers] at hx
      rw [hdisk, writeAt_readAt, if_neg (by omega)]
  | read start size =>
    obtain ⟨turns, ht, hloop⟩ := h
    simp only [Request.start, Request.size] at hin hk
    have h0 : size - k ≠ 0 := by
      intro h0
      rw [h0] at hloop
      cases turns <;> simp [readSections] at hloop
    obtain ⟨turns, rfl⟩ : ∃ m, turns = m + 1 := ⟨turns - 1, by omega⟩
    have hle := sizeProcessing_le (start + k) (size - k)
    rw [readSections_succ h0] at hloop
    obtain ⟨rfl, rfl⟩ := List.cons.inj hloop
    have hpos := sizeProcessing_pos (start + k) h0
    have hread := perform_read (s := s) (offset_add_sizeProcessing_le (start + k) h0)
    set n := sizeProcessing (start + k) (size - k)
    refine ⟨n, by simp only [Request.size]; omega, ⟨turns, by omega, ?_⟩, fun _ h => h.elim,
      fun x _ => congrFun hread.2 x, fun _ => ?_⟩
    · rw [wadd_of_lt (by omega), Nat.add_assoc, Nat.sub_sub]
      rfl
    · simp only [performAll, append_nil]
      exact hread.1

theorem Progress.consistent (h : Progress d req old w s) : Consistent req old s where
  writes hfin := by
    have hw : ∀ i x, (req i).Covers (w i) x ↔ (req i).Covers (req i).size x := by
      intro i x
      by_cases hi : (req i).IsWrite
      · have hleft := h.left i
        rw [(hfin i hi).2] at hleft
        rw [hleft.done (h.le i)]
      · cases hreq : req i with
        | write start size buffer =>
          rw [hreq] at hi
          exact absurd trivial hi
        | read start size => exact Iff.rfl
    intro x
    simpa only [hw] using h.written x
  reads i hr hfin hun := by
    have hleft := h.left i
    rw [hfin.2] at hleft
    rw [h.out i hr hun, hleft.done (h.le i)]

theorem Request.Left.single (h : r.Left d k (g :: later)) (hr : ¬ r.IsWrite) : ∃ c, g = [c] := by
  cases r with
  | write start size buffer => exact absurd trivial hr
  | read start size =>
    obtain ⟨turns, _, hloop⟩ := h
    have hg := hloop ▸ mem_cons_self
    obtain ⟨c, _, rfl⟩ := mem_map.mp hg
    exact ⟨c, rfl⟩

variable [DecidableEq ι]

theorem Written.advance {disk' : ℕ → UInt8} {n : ℕ} (h : Written req w old s.state.disk)
    (hw : ∀ j, w j ≤ (req j).size) (hdisj : Disjoint req) (hn : w i + n ≤ (req i).size)
    (hfresh : ∀ x, (req i).Covers (w i + n) x → ¬ (req i).Covers (w i) x → disk' x = (req i).byte x)
    (hsame : ∀ x, ((req i).Covers (w i + n) x → (req i).Covers (w i) x) → disk' x = s.state.disk x) :
    Written req (update w i (w i + n)) old disk' := by
  have hself : update w i (w i + n) i = w i + n := update_self ..
  have hother : ∀ j, j ≠ i → update w i (w i + n) j = w j :=
    fun j hj => update_of_ne hj ..
  intro x
  by_cases hx : (req i).Covers (w i + n) x → (req i).Covers (w i) x
  · rw [hsame x hx]
    refine ⟨fun j hj => (h x).1 j ?_, fun hnone => (h x).2 fun j hj => hnone j ?_⟩
    · by_cases hji : j = i
      · subst hji
        exact hx (hself ▸ hj)
      · rwa [hother j hji] at hj
    · by_cases hji : j = i
      · subst hji
        rw [hself]
        exact hj.mono (Nat.le_add_right ..)
      · rwa [hother j hji]
  · obtain ⟨hcov, hnot⟩ : (req i).Covers (w i + n) x ∧ ¬ (req i).Covers (w i) x := by tauto
    rw [hfresh x hcov hnot]
    refine ⟨fun j hj => ?_, fun hnone => hnone i (by rwa [hself]) |>.elim⟩
    by_cases hji : j = i
    · rw [hji]
    · rw [hother j hji] at hj
      exact absurd (hj.mono (hw j)) (hdisj i j (Ne.symm hji) x (hcov.mono hn))

theorem Progress.group (h : Progress d req old w s) (hreq : ∀ i, (req i).Sound d)
    (hdisj : Disjoint req) (hg : s.group perform i t) : ∃ w', Progress d req old w' t := by
  obtain ⟨g, later, out, hthread, rfl⟩ := hg
  have hleft := h.left i
  rw [hthread] at hleft
  obtain ⟨n, hadv⟩ := hleft.advance (hreq i) (h.le i) s.state
  rw [actAll_perform]
  refine ⟨update w i (w i + n), fun j => ?_, fun j => ?_,
    h.written.advance h.le hdisj hadv.le hadv.fresh hadv.same, fun j hr hun => ?_⟩
  · by_cases hj : j = i
    · subst hj
      simpa using hadv.le
    · simpa [hj] using h.le j
  · by_cases hj : j = i
    · subst hj
      simpa using hadv.left
    · simpa [hj] using h.left j
  · by_cases hj : j = i
    · subst hj
      have hout := h.out j hr hun
      rw [hthread] at hout
      have hold : readAt s.state.disk ((req j).start + w j) n = readAt old ((req j).start + w j) n := by
        apply readAt_congr
        intro x hlo hhi
        have hle := hadv.le
        exact (h.written x).2 fun k hk =>
          hun x (by omega) (by omega) k (hk.mono (h.le k))
      simp only [update_self]
      rw [hadv.out hr, hold, readAt_append, ← hout]
    · simpa [hj] using h.out j hr hun

theorem Progress.consistent_inside (h : Progress d req old w s) (hin : s.Inside perform i t) :
    Consistent req old t := by
  obtain ⟨pre, cur, later, out, hpre, hcur, hthread, rfl⟩ := hin
  have hbusy : ∀ j, (update s.thread i ⟨cur, later, out ++ (actAll perform s.state pre).2⟩
      j).Finished → j ≠ i := by
    rintro j hfin rfl
    exact hcur (by simpa [Thread.Finished] using hfin.1)
  refine ⟨fun hfin => ?_, fun j hr hfin hun => ?_⟩
  · -- a reader has no sections that belong together, so a writer is not finished
    have hr : ¬ (req i).IsWrite := fun hw => hbusy i (hfin i hw) rfl
    have hleft := h.left i
    rw [hthread] at hleft
    obtain ⟨c, hc⟩ := hleft.single hr
    have hlen := congrArg List.length hc
    have h1 := length_pos_iff.mpr hpre
    have h2 := length_pos_iff.mpr hcur
    rw [length_append, length_singleton] at hlen
    omega
  · have hj := hbusy j hfin
    simp only [update_of_ne hj] at hfin ⊢
    exact h.consistent.reads j hr hfin hun

theorem guarded_consistent (hreq : ∀ i, (req i).Sound d) (hdisj : Disjoint req)
    (h : Run (Guarded System.Step Threads.Alone) (System.start d req s0) is t) :
    Consistent req s0.disk t := by
  obtain ⟨js, a, hrun, _, hta⟩ := Threads.run_groups (fun _ => rfl) h
  obtain ⟨w, hw⟩ : ∃ w, Progress d req s0.disk w a :=
    hrun.invariant (P := fun a => ∃ w, Progress d req s0.disk w a) ⟨_, progress_start hreq⟩
      fun t i u ⟨w, hw⟩ hg => hw.group hreq hdisj hg
  rcases hta with rfl | ⟨i, hin⟩
  · exact hw.consistent
  · exact hw.consistent_inside hin

def Request.Aligned (r : Request) : Prop := r.start % alignement = 0 ∧ r.size % alignement = 0

theorem writeLoop_single {buffer : ℕ → UInt8} {turns position remaining k : ℕ}
    (hin : position + remaining ≤ d.size) (hpos : position % alignement = 0)
    (hrem : remaining % alignement = 0) :
    ∀ g ∈ writeLoop d buffer turns position remaining k, ∃ c, g = [c] := by
  have hsize := d.size_lt
  induction turns generalizing position remaining k with
  | zero => simp [writeLoop]
  | succ turns ih =>
    by_cases h0 : remaining = 0
    · subst h0
      simp [writeLoop_zero]
    · have hn : sizeProcessing position remaining = min remaining blockCacheSize :=
        sizeProcessing_of_aligned hpos
      have hup : upToSector position remaining = remaining := by
        simp [upToSector, hpos]
      have hhead : headSections d position = [] := by simp [headSections, hpos]
      have htail : tailSections d (wadd position remaining) = [] := by
        have : (position + remaining) % alignement = 0 := by rw [Nat.add_mod, hpos, hrem]; rfl
        rw [wadd_of_lt (by omega)]
        simp [tailSections, this]
      rw [writeLoop_succ h0, hn, wadd_of_lt (by omega)]
      have hrest := @ih (position + min remaining blockCacheSize) (remaining - min remaining blockCacheSize)
        (wadd k (min remaining blockCacheSize)) (by omega)
        (by unfold blockCacheSize alignement at *; omega) (by unfold blockCacheSize alignement at *; omega)
      refine forall_mem_cons.mpr ⟨?_, hrest⟩
      simp only [writePrepare, hup, hhead, htail, ite_self, nil_append]
      exact ⟨_, rfl⟩

theorem aligned_consistent (hreq : ∀ i, (req i).start + (req i).size ≤ d.size)
    (haligned : ∀ i, (req i).IsWrite → (req i).Aligned) (hdisj : Disjoint req)
    (h : Run System.Step (System.start d req s0) is t) : Consistent req s0.disk t := by
  have hsize := d.size_lt
  have hsound : ∀ i, (req i).Sound d := by
    refine fun i => ⟨hreq i, fun hw => .inl ?_⟩
    obtain ⟨hstart, hlen⟩ := haligned i hw
    rw [Nat.add_mod, hstart, hlen]
    rfl
  refine guarded_consistent hsound hdisj (Threads.run_alone (fun i => ⟨rfl, fun g hg => ?_⟩) h).1
  have hin := hreq i
  have hal := haligned i
  simp only [System.start] at hg
  generalize req i = r at hg hin hal
  cases r with
  | write start size buffer =>
    simp only [Request.sections, ahciDeviceWrite, Request.start, Request.size] at hg hin
    rw [wadd_of_lt (by omega), if_neg (by omega)] at hg
    exact writeLoop_single hin (hal trivial).1 (hal trivial).2 g hg
  | read start size =>
    obtain ⟨c, _, rfl⟩ := mem_map.mp hg
    exact ⟨c, rfl⟩

/-- Requests with exact writes are consistent together in every run in which no thread enters a
section while another one is between the sections of a turn of its writing loop, and in every run at
all if the writes are of whole sectors. -/
theorem interleaving_consistent (hreq : ∀ i, (req i).start + (req i).size ≤ d.size)
    (hdisj : Disjoint req) {s0 : State} {is : List ι}
    (h : Run System.Step (System.start d req s0) is t)
    (hcond : (∀ i, (req i).IsWrite → Ends (req i).start (req i).size) ∧
    Run (Guarded System.Step Threads.Alone) (System.start d req s0) is t ∨
    ∀ i, (req i).IsWrite → (req i).Aligned) : Consistent req s0.disk t := by
  rcases hcond with ⟨hends, hguarded⟩ | haligned
  · exact guarded_consistent (fun i => ⟨hreq i, hends i⟩) hdisj hguarded
  · exact aligned_consistent hreq haligned hdisj h

def byteAndSector : Bool → Request
  | true => .write 1 1 fun _ => 7
  | false => .read 0x200 0x200

def twoSectors : Device := ⟨0x400, by decide, by decide⟩

def onesAndTwos : State := ⟨fun x => if x < 0x200 then 1 else 2, fun _ => 0, []⟩

theorem byteAndSector_sound (i : Bool) : (byteAndSector i).Sound twoSectors := by
  cases i
  · exact ⟨by decide, fun h => h.elim⟩
  · exact ⟨by decide, fun _ => .inr (by decide)⟩

theorem byteAndSector_disjoint : Disjoint byteAndSector := by
  intro i j hij x hi hj
  cases i <;> cases j <;> first | exact hij rfl | exact hi | exact hj

def System.finished (s : System Bool) : Bool :=
  [true, false].all fun i => (s.thread i).current.isEmpty && (s.thread i).later.isEmpty

theorem one_after_the_other :
    ∃ t, Run System.Step (System.start twoSectors byteAndSector onesAndTwos)
      [true, true, true, false] t ∧ t.finished = true ∧
      Consistent byteAndSector onesAndTwos.disk t := by
  obtain ⟨t, hrun, hq⟩ : ∃ t, Run (Guarded System.Step Threads.Alone)
      (System.start twoSectors byteAndSector onesAndTwos) [true, true, true, false] t ∧
      t.finished = true := by
    refine exists_run_of_foldlM (f := fun s i =>
      if (s.thread !i).current.isEmpty then s.step perform i else none) System.finished
      (fun s i s' h => ?_) (by decide +kernel)
    split_ifs at h with hidle
    refine ⟨h, fun j hj => ?_⟩
    obtain rfl : j = !i := by cases i <;> cases j <;> simp_all
    exact List.isEmpty_iff.mp hidle
  exact ⟨t, hrun.of_guarded, hq, interleaving_consistent (fun i => (byteAndSector_sound i).1)
    byteAndSector_disjoint hrun.of_guarded (.inl ⟨fun i => (byteAndSector_sound i).2, hrun⟩)⟩

/-- The reader comes between the head of the write and the write itself, so that the write puts the
second sector over the first one. -/
theorem write_after_foreign_read :
    (∀ i, (byteAndSector i).Sound twoSectors) ∧ Disjoint byteAndSector ∧
      ∃ t, Run System.Step (System.start twoSectors byteAndSector onesAndTwos)
        [true, true, false, true] t ∧ ¬ Consistent byteAndSector onesAndTwos.disk t := by
  refine ⟨byteAndSector_sound, byteAndSector_disjoint, ?_⟩
  obtain ⟨t, hrun, hq⟩ : ∃ t, Run System.Step (System.start twoSectors byteAndSector onesAndTwos)
      [true, true, false, true] t ∧ (t.finished && (t.state.disk 0 == 2)) = true :=
    exists_run_of_foldlM
      (fun t : System Bool => t.finished && (t.state.disk 0 == 2)) (fun _ _ _ h => h) (by decide +kernel)
  simp only [System.finished, all_cons, all_nil, Bool.and_true, Bool.and_eq_true,
    List.isEmpty_iff, beq_iff_eq] at hq
  refine ⟨t, hrun, fun hc => ?_⟩
  have hfinished : ∀ i, (t.thread i).Finished := Bool.forall_bool.mpr ⟨hq.1.2, hq.1.1⟩
  have hzero := (hc.writes (fun i _ => hfinished i) 0).2 (by
    intro i hi
    cases i
    · exact hi
    · exact absurd hi.1 (by decide))
  rw [hq.2] at hzero
  exact absurd hzero (by decide)

end Kot.Ahci
