import Kot.Kernel.Mm.HandlerRuns

/-! Address-space accounting: which requests turn exactly the bytes of the returned,
page-rounded range from free to used. -/
namespace Kot.Kernel.Mm
open Kot.Lib List MemoryRegion

variable {A : Allocator} {s s' : MmState} {l l1 l2 : List Ptr} {r k : Ptr} {base size x : ℕ}

/-- The byte `x` lies in a used region of the handler. -/
def Used (s : MmState) (x : ℕ) : Prop := UsedAt (view s (regionNodes s)) x

/-- The size of a request in whole pages, before it is stored in a `size_t`. -/
def roundedSize (base size : ℕ) : ℕ :=
  (base % pageSize + size + (pageSize - 1)) / pageSize * pageSize

private theorem roundup_word {n : ℕ} (hn : n < 2 ^ 64) :
    (if n % pageSize ≠ 0 then wadd (n - n % pageSize) pageSize else n) =
      (n + (pageSize - 1)) / pageSize * pageSize % 2 ^ 64 := by
  unfold wadd pageSize
  split_ifs <;> omega

theorem roundRequest_eq (base : ℕ) (hs : size < 2 ^ 64) :
    roundRequest base size = (base - base % pageSize, roundedSize base size % 2 ^ 64) := by
  have hoff : (if base % pageSize ≠ 0 then wadd size (base % pageSize) else size) =
      (base % pageSize + size) % 2 ^ 64 := by
    unfold wadd
    split_ifs <;> omega
  unfold roundRequest
  dsimp only
  rw [hoff, roundup_word (Nat.mod_lt _ (by decide))]
  simp only [roundedSize, pageSize, Prod.mk.injEq, true_and]
  omega

/-- What a successful request promises: the returned range lies in the handler's range, it
is the requested one or was free, and it is what the request adds to the used bytes. -/
structure AllocationExact (s s' : MmState) (base size : ℕ) (isFixed : Bool) (result : ℕ) :
    Prop where
  inside : ∀ x, result ≤ x → x < result + roundedSize base size →
    s.handler.base ≤ x ∧ x < s.handler.base + s.handler.size
  fixed : isFixed = true → result = base - base % pageSize
  fresh : isFixed = false → ∀ x, result ≤ x → x < result + roundedSize base size → ¬ Used s x
  status : ∀ x, Used s' x ↔ (result ≤ x ∧ x < result + roundedSize base size) ∨ Used s x

/-- Every successful outcome of the request keeps the promise. -/
def KeepsAccount (A : Allocator) (s : MmState) (base size : ℕ) (isFixed : Bool) : Prop :=
  ∀ result s', mmAllocateRegionVm A s base size isFixed = .ok (.success, some result, s') →
    AllocationExact s s' base size isFixed result

theorem WellFormed.eq_of_holds (h : WellFormed s l) (hr : r ∈ l) (hk : k ∈ l)
    (hrx : (s.region r).extent.Holds x) (hkx : (s.region k).extent.Holds x) : r = k := by
  by_contra hne
  have hp : l.Pairwise fun a b =>
      ¬ ((s.region a).extent.Holds x ∧ (s.region b).extent.Holds x) := by
    refine (pairwise_map.mp h.tiles.pairwise).imp ?_
    intro a b hab
    unfold Extent.Holds
    omega
  have : Std.Symm fun a b =>
      ¬ ((s.region a).extent.Holds x ∧ (s.region b).extent.Holds x) :=
    ⟨fun _ _ hab hba => hab hba.symm⟩
  exact hp.forall hr hk hne ⟨hrx, hkx⟩

theorem WellFormed.usedAt_iff (h : WellFormed s l) (hr : r ∈ l) (hx : (s.region r).extent.Holds x) :
    UsedAt (view s l) x ↔ (s.region r).isFree = false := by
  constructor
  · rintro ⟨e, he, hex, hf⟩
    obtain ⟨k, hk, rfl⟩ := mem_map.mp he
    rw [h.eq_of_holds hr hk hx hex]
    exact hf
  · intro hf
    exact ⟨_, mem_map.mpr ⟨r, hr, rfl⟩, hx, hf⟩

/-- The requests without fixed address that keep the account: those that find no region,
and those of at least one page that fit a `size_t`. -/
def AnywhereExact (s : MmState) (base size : ℕ) : Prop :=
  (∃ r ∈ regionNodes s, (s.region r).isFree ∧ roundedSize base size % 2 ^ 64 ≤ (s.region r).size) →
    0 < roundedSize base size ∧ roundedSize base size < 2 ^ 64

/-- The fixed requests that keep the account. Outside the handler's range: those that are
refused or empty. From a byte of region `r` on: an empty request in a used region, or one
that ends inside the handler's range, in a region of the status of `r` or at the end of one. -/
def FixedExact (s : MmState) (base size : ℕ) : Prop :=
  let first := base - base % pageSize
  let length := roundedSize base size
  if s.handler.base ≤ first ∧ first < s.handler.base + s.handler.size then
    ∀ r ∈ regionNodes s, (s.region r).extent.Holds first →
      if length = 0 then (s.region r).isFree = false
      else first + length ≤ s.handler.base + s.handler.size ∧
        ∀ k ∈ regionNodes s, (s.region k).extent.Holds (first + length - 1) →
          (s.region k).isFree = (s.region r).isFree ∨
            (s.region k).base + (s.region k).size = first + length
  else length = 0 ∨ s.handler.base + s.handler.size < wadd first (length % 2 ^ 64)

private theorem keepsAccount_of_success {isFixed : Bool} {result : ℕ}
    (he : mmAllocateRegionVm A s base size isFixed = .ok (.success, some result, s')) :
    KeepsAccount A s base size isFixed ↔ AllocationExact s s' base size isFixed result := by
  constructor
  · intro hk
    exact hk _ _ he
  · intro hex result' s'' heq
    have heq := he.symm.trans heq
    simp only [Except.ok.injEq, Prod.mk.injEq, Option.some.injEq, true_and] at heq
    obtain ⟨rfl, rfl⟩ := heq
    exact hex

theorem keepsAccount_anywhere (h : WellFormed s (regionNodes s)) (hl : s.handler.lock = false)
    (hs : size < 2 ^ 64) :
    KeepsAccount A s base size false ↔ AnywhereExact s base size := by
  have hany := allocate_anywhere (A := A) hl base size h
  rw [roundRequest_eq base hs] at hany
  split at hany
  · next hf =>
    have hno := find?_eq_none.mp hf
    constructor
    · rintro - ⟨r, hr, hfit⟩
      exact absurd (by simpa using hfit) (hno r hr)
    · intro _ result s' heq
      rw [hany] at heq
      cases heq
  · next r hf =>
    have hfit := find?_some hf
    have hr := mem_of_find?_eq_some hf
    have hfree : (s.region r).isFree = true := by simp_all
    have hsize : roundedSize base size % 2 ^ 64 ≤ (s.region r).size := by simp_all
    obtain ⟨hlo, h0, hhi⟩ := h.bounds hr
    have hbound := h.bound
    have hunused : ∀ x, (s.region r).base ≤ x → x < (s.region r).base + (s.region r).size →
        ¬ Used s x := by
      intro x h1 h2 hx
      have := (h.usedAt_iff hr ⟨h1, h2⟩).mp hx
      simp [hfree] at this
    obtain ⟨l1, l2, hl1⟩ := append_of_mem hr
    obtain ⟨s', l', he, hw', -, -, hu⟩ := allocateFree_spec
      (roundedSize base size % 2 ^ 64) (setLock_wellFormed true (hl1 ▸ h))
    rw [← hl1, ← hw'.regionNodes_eq] at hu
    change ∀ x, Used s' x ↔ ((s.region r).base ≤ x ∧ x < (s.region r).base +
      cutSize (roundedSize base size % 2 ^ 64) (s.region r).size) ∨ Used s x at hu
    rw [keepsAccount_of_success (hany.trans he)]
    change AllocationExact s s' base size false (s.region r).base ↔ _
    constructor
    · rintro ⟨hin, -, -, hst⟩ -
      constructor
      · by_contra hz
        have hz : roundedSize base size = 0 := by omega
        have hnew : Used s' (s.region r).base := by
          rw [hu, hz]
          exact .inl ⟨le_rfl, by simpa [cutSize] using h0⟩
        rcases (hst _).mp hnew with hx | hx
        · omega
        · exact hunused _ le_rfl (by omega) hx
      · by_contra hz
        have := (hin (s.handler.base + s.handler.size) (by omega) (by omega)).2
        omega
    · intro hc
      obtain ⟨hpos, hlt⟩ := hc ⟨r, hr, hfree, hsize⟩
      rw [Nat.mod_eq_of_lt hlt] at hsize hu
      have hcut : cutSize (roundedSize base size) (s.region r).size = roundedSize base size := by
        unfold cutSize
        split_ifs <;> omega
      rw [hcut] at hu
      refine ⟨fun x h1 h2 => by omega, by simp, fun _ x h1 h2 => hunused x h1 (by omega), hu⟩

theorem grown_last {m m' : List Ptr} {need : ℕ}
    (h : WellFormed s (l1 ++ r :: (m ++ m'))) (hneed : 0 < need)
    (hmin : ∀ m0 x, m = m0 ++ [x] → (s.region r).size + totalSize s m0 < need) :
    ∃ k ∈ l1 ++ r :: (m ++ m'), (s.region k).base < (s.region r).base + need ∧
      (s.region k).base + (s.region k).size =
        (s.region r).base + ((s.region r).size + totalSize s m) := by
  rcases eq_nil_or_concat m with rfl | ⟨m0, k, rfl⟩
  · exact ⟨r, by simp, by omega, by simp⟩
  · rw [concat_eq_append] at *
    have hbase : (s.region k).base = (s.region r).base + ((s.region r).size + totalSize s m0) := by
      have ht := h.tiles
      rw [append_assoc, view_append, view_cons, view_append] at ht
      obtain ⟨mid, -, hr, -, ht⟩ := tiles_append.mp ht
      obtain ⟨mid', ht, hk, -⟩ := tiles_append.mp ht
      have hsum := ht.sum
      simp only [extent] at hr hk hsum
      unfold totalSize
      omega
    have hk := hmin m0 k rfl
    have htotal : totalSize s (m0 ++ [k]) = totalSize s m0 + (s.region k).size := by
      simp [totalSize, view, extent]
    exact ⟨k, by simp, by omega, by omega⟩

private theorem fixed_status {m m' : List Ptr} {first n : ℕ}
    (h : WellFormed s (l1 ++ r :: (m ++ m'))) (hlo : (s.region r).base ≤ first)
    (hn : 0 < n) (hreach : first + n ≤ (s.region r).base + ((s.region r).size + totalSize s m))
    (hhi : first < (s.region r).base + (s.region r).size)
    (hmin : ∀ m0 x, m = m0 ++ [x] →
      (s.region r).size + totalSize s m0 < first - (s.region r).base + n) :
    (∀ x, ((if (s.region r).isFree then first ≤ x ∧ x < first + n
            else (s.region r).base ≤ x ∧
              x < (s.region r).base + ((s.region r).size + totalSize s m)) ∨
          ¬ ((s.region r).base ≤ x ∧ x < (s.region r).base + ((s.region r).size + totalSize s m)) ∧
            UsedAt (view s (l1 ++ r :: (m ++ m'))) x) ↔
        (first ≤ x ∧ x < first + n) ∨ UsedAt (view s (l1 ++ r :: (m ++ m'))) x) ↔
      ∀ k ∈ l1 ++ r :: (m ++ m'), (s.region k).extent.Holds (first + n - 1) →
        (s.region k).isFree = (s.region r).isFree ∨
          (s.region k).base + (s.region k).size = first + n := by
  obtain ⟨k, hk, hkb, hke⟩ := grown_last h (by omega) hmin
  have hkx : ∀ x, first + n - 1 ≤ x →
      x < (s.region r).base + ((s.region r).size + totalSize s m) →
      (s.region k).extent.Holds x := by
    intro x h1 h2
    simp only [Extent.Holds, extent]
    omega
  have hrx : ∀ x, (s.region r).base ≤ x → x ≤ first → (s.region r).extent.Holds x := by
    intro x h1 h2
    simp only [Extent.Holds, extent]
    omega
  have hrmem : r ∈ l1 ++ r :: (m ++ m') := by simp
  have hur := fun x h1 h2 => h.usedAt_iff hrmem (hrx x h1 h2)
  have huk := fun x h1 h2 => h.usedAt_iff hk (hkx x h1 h2)
  generalize UsedAt (view s (l1 ++ r :: (m ++ m'))) = U at *
  constructor
  · intro hst k' hk' hx
    obtain rfl := h.eq_of_holds hk hk' (hkx _ le_rfl (by omega)) hx
    by_contra hc
    have hx := hst (first + n)
    have hu := huk (first + n) (by omega) (by omega)
    cases hrf : (s.region r).isFree <;> cases hkf : (s.region k).isFree <;>
      simp_all <;> omega
  · intro hc x
    have hc := hc k hk (hkx _ le_rfl (by omega))
    -- the bytes of the grown region outside the request lie in `r` or in its last part `k`
    have hrest : (s.region r).base ≤ x →
        x < (s.region r).base + ((s.region r).size + totalSize s m) →
        (first ≤ x ∧ x < first + n) ∨ (U x ↔ (s.region r).isFree = false) := by
      intro h1 h2
      rcases Nat.lt_or_ge x first with h3 | h3
      · exact .inr (hur x h1 (by omega))
      rcases Nat.lt_or_ge x (first + n) with h4 | h4
      · exact .inl ⟨h3, h4⟩
      rcases hc with hc | hc
      · exact .inr (hc ▸ huk x (by omega) h2)
      · omega
    cases hrf : (s.region r).isFree with
    | false =>
      simp only [hrf, Bool.false_eq_true, if_false, iff_true] at hrest ⊢
      constructor
      · rintro (⟨h1, h2⟩ | ⟨-, hx⟩)
        · exact hrest h1 h2
        · exact .inr hx
      · rintro (hx | hx)
        · exact .inl (by omega)
        · exact or_iff_not_imp_left.mpr fun hn => ⟨hn, hx⟩
    | true =>
      simp only [hrf, Bool.true_eq_false, if_true, iff_false] at hrest ⊢
      constructor
      · rintro (hx | ⟨-, hx⟩)
        · exact .inl hx
        · exact .inr hx
      · rintro (hx | hx)
        · exact .inl hx
        · by_cases hin : (s.region r).base ≤ x ∧
              x < (s.region r).base + ((s.region r).size + totalSize s m)
          · exact .inl ((hrest hin.1 hin.2).resolve_right (not_not_intro hx))
          · exact .inr ⟨hin, hx⟩

theorem grown_end {m : List Ptr} (h : WellFormed s (l1 ++ r :: m)) :
    (s.region r).base + ((s.region r).size + totalSize s m) = s.handler.base + s.handler.size := by
  have ht := h.tiles
  rw [view_append, view_cons] at ht
  obtain ⟨mid, -, hr, -, ht⟩ := tiles_append.mp ht
  have hsum := ht.sum
  simp only [extent] at hr hsum
  unfold totalSize
  omega

private theorem empty_status {first : ℕ} {U' : ℕ → Prop} (h : WellFormed s l) (hr : r ∈ l)
    (hx : (s.region r).extent.Holds first)
    (hu : ∀ x, U' x ↔ (if (s.region r).isFree then first ≤ x ∧ x < first + cutSize 0
          ((s.region r).size - (first - (s.region r).base))
        else (s.region r).base ≤ x ∧ x < (s.region r).base + (s.region r).size) ∨
      ¬ ((s.region r).base ≤ x ∧ x < (s.region r).base + (s.region r).size) ∧ UsedAt (view s l) x) :
    ((∀ x, first ≤ x → x < first + 0 → s.handler.base ≤ x ∧ x < s.handler.base + s.handler.size) ∧
      ∀ x, U' x ↔ (first ≤ x ∧ x < first + 0) ∨ UsedAt (view s l) x) ↔
    (s.region r).isFree = false := by
  constructor
  · rintro ⟨-, hst⟩
    by_contra hf
    have hf : (s.region r).isFree = true := by simpa using hf
    simp only [Extent.Holds, extent] at hx
    have hnew : U' first := by
      rw [hu, if_pos hf]
      refine .inl ⟨le_rfl, ?_⟩
      rw [cutSize, if_neg (by omega)]
      omega
    rcases (hst first).mp hnew with hx' | hx'
    · omega
    · have := (h.usedAt_iff hr hx).mp hx'
      simp [hf] at this
  · intro hf
    refine ⟨fun x _ _ => by omega, fun x => ?_⟩
    rw [hu, hf]
    simp only [Bool.false_eq_true, if_false]
    constructor
    · rintro (hx' | ⟨-, hx'⟩)
      · exact .inr ((h.usedAt_iff hr hx').mpr hf)
      · exact .inr hx'
    · rintro (hx' | hx')
      · omega
      · exact or_iff_not_imp_left.mpr fun hn => ⟨hn, hx'⟩

theorem keepsAccount_fixed (h : WellFormed s (regionNodes s)) (hl : s.handler.lock = false)
    (hs : size < 2 ^ 64) :
    KeepsAccount A s base size true ↔ FixedExact s base size := by
  have hbound := h.bound
  unfold FixedExact
  dsimp only
  split
  · next hin =>
    obtain ⟨l1, r, l2, hl1, h1, h2, he⟩ := allocate_inside (A := A) hl base size
      h (by rw [roundRequest_eq base hs]; exact hin.1) (by rw [roundRequest_eq base hs]; exact hin.2)
    rw [roundRequest_eq base hs] at h1 h2 he
    generalize hfirst : base - base % pageSize = first at *
    generalize hn : roundedSize base size = n at *
    obtain ⟨m, m', s', l', rfl, hf, hw', -, -, hreach, hmin, hu⟩ := allocateFixed_spec
      (n % 2 ^ 64) (setLock_wellFormed true (hl1 ▸ h)) h1 h2
    rw [← hw'.regionNodes_eq] at hu
    simp only [setLock_region, view_setLock, totalSize_setLock] at hreach hmin hu
    have hexact : KeepsAccount A s base size true ↔
        (∀ x, first ≤ x → x < first + n →
          s.handler.base ≤ x ∧ x < s.handler.base + s.handler.size) ∧
        ∀ x, Used s' x ↔ (first ≤ x ∧ x < first + n) ∨ Used s x := by
      rw [keepsAccount_of_success (he.trans hf)]
      constructor
      · rintro ⟨hin', -, -, hst⟩
        exact ⟨hn ▸ hin', hn ▸ hst⟩
      · rintro ⟨hin', hst⟩
        exact ⟨hn ▸ hin', fun _ => hfirst.symm, by simp, hn ▸ hst⟩
    have hrmem : r ∈ regionNodes s := by simp [hl1]
    have hrx : (s.region r).extent.Holds first := ⟨h1, h2⟩
    have hall : ∀ P : Ptr → Prop,
        (∀ r' ∈ regionNodes s, (s.region r').extent.Holds first → P r') ↔ P r := by
      intro P
      constructor
      · intro hP
        exact hP r hrmem hrx
      · intro hP r' hr' hx
        rwa [h.eq_of_holds hr' hrmem hx hrx]
    rw [hexact, hall]
    unfold Used
    have hw := hl1 ▸ h
    rw [hl1] at hrmem ⊢
    split
    · next hz =>
      subst hz
      obtain rfl : m = [] := by
        rcases eq_nil_or_concat m with rfl | ⟨m0, k, rfl⟩
        · rfl
        · have hk := hmin m0 k (by simp)
          have hle : wadd (first - (s.region r).base) (0 % 2 ^ 64) ≤ first - (s.region r).base :=
            Nat.mod_le _ _
          omega
      exact empty_status hw hrmem hrx hu
    · next hz =>
      by_cases hend : first + n ≤ s.handler.base + s.handler.size
      · rw [Nat.mod_eq_of_lt (by omega)] at hu hmin hreach
        rw [wadd_of_lt (by omega)] at hmin hreach
        have hreach' : first + n ≤ (s.region r).base + ((s.region r).size + totalSize s m) := by
          rcases hreach with rfl | hreach
          · have hall := grown_end (by simpa using hw)
            omega
          · omega
        have hcut : cutSize n ((s.region r).size + totalSize s m - (first - (s.region r).base)) =
            n := by
          unfold cutSize
          split_ifs <;> omega
        rw [hcut] at hu
        have hst := fixed_status hw h1 (by omega) hreach' h2 hmin
        simp only [hu]
        constructor
        · rintro ⟨-, hk⟩
          exact ⟨hend, hst.mp hk⟩
        · rintro ⟨-, hk⟩
          exact ⟨fun x _ _ => by omega, hst.mpr hk⟩
      · constructor
        · rintro ⟨hin', -⟩
          have := (hin' (s.handler.base + s.handler.size) (by omega) (by omega)).2
          omega
        · rintro ⟨hc, -⟩
          exact absurd hc hend
  · next hin =>
    have hout := allocate_outside (A := A) hl base size h
      (by rw [roundRequest_eq base hs]; dsimp only; omega)
    rw [roundRequest_eq base hs] at hout
    split at hout
    · next hend =>
      constructor
      · intro _
        exact .inr hend
      · intro _ result s' heq
        rw [hout] at heq
        cases heq
    · next hend =>
      rw [keepsAccount_of_success hout]
      constructor
      · rintro ⟨hin', -⟩
        by_contra hne
        exact hin (hin' _ le_rfl (by omega))
      · intro hz
        have hz := hz.resolve_right hend
        refine ⟨fun x h1 h2 => by omega, fun _ => rfl, by simp, fun x => ?_⟩
        rw [hz]
        constructor
        · exact .inr
        · rintro (hx | hx)
          · omega
          · exact hx

/-- The requests that keep the account. While the lock is held every call panics. -/
def RequestExact (s : MmState) (base size : ℕ) (isFixed : Bool) : Prop :=
  s.handler.lock = true ∨
    if isFixed then FixedExact s base size else AnywhereExact s base size

theorem keepsAccount_iff {isFixed : Bool} (h : WellFormed s (regionNodes s)) (hs : size < 2 ^ 64) :
    KeepsAccount A s base size isFixed ↔ RequestExact s base size isFixed := by
  unfold RequestExact
  cases hl : s.handler.lock with
  | true =>
    have he : mmAllocateRegionVm A s base size isFixed = .error .panic := by
      simp [mmAllocateRegionVm, MmState.acquire, hl, bind, Except.bind]
    simp [KeepsAccount, he]
  | false =>
    cases isFixed with
    | true => simpa using keepsAccount_fixed h hl hs
    | false => simpa using keepsAccount_anywhere h hl hs

/-- In every state a handler can reach, a request turns exactly its page-rounded range
from free to used if and only if it meets `RequestExact`. -/
theorem allocation_exact_iff {s0 : MmState} {ops : List MmOp} (h0 : Initial A s0)
    (h : Run (fun s op s' => mmStep A s op = some s') s0 ops s) (base size : ℕ) (isFixed : Bool)
    (hs : size < 2 ^ 64) :
    KeepsAccount A s base size isFixed ↔ RequestExact s base size isFixed :=
  keepsAccount_iff (run_wellFormed h0 h).1 hs

instance (es : List Extent) (x : ℕ) : Decidable (UsedAt es x) :=
  inferInstanceAs (Decidable (∃ e ∈ es, _))

instance (s : MmState) (x : ℕ) : Decidable (Used s x) := inferInstanceAs (Decidable (UsedAt _ _))

theorem allocation_exact_page : ∃ s, [.allocate 0 0x1800 false].foldlM (mmStep .above)
        (mmCreateHandler .above (fun _ => poisoned) [] 0 0x1000 0x10000) = some s ∧
      KeepsAccount .above s 0 0x1000 false := by
  refine ⟨_, rfl, ?_⟩
  have hrun := Run.of_foldlM (f := mmStep .above)
    (s := mmCreateHandler .above (fun _ => poisoned) [] 0 0x1000 0x10000) (fun _ _ _ h => h)
    (show [.allocate 0 0x1800 false].foldlM _ _ = some _ from rfl)
  refine (allocation_exact_iff (.inl ⟨_, _, _, _, _, by decide, by decide, rfl⟩) hrun 0 0x1000
    false (by decide)).mpr (.inr ?_)
  exact fun _ => by decide

set_option maxRecDepth 20000 in
/-- A fixed request that starts in a free region and ends inside a used one frees the rest
of the used one: the pages from `0x3000` are in use, a request for two pages at `0x2000`
succeeds, and the page at `0x4000` is free afterwards. -/
theorem allocation_frees_tail : ∃ s s', [.allocate 0x3000 0x2000 true].foldlM (mmStep .above)
        (mmCreateHandler .above (fun _ => poisoned) [] 0 0x1000 0x10000) = some s ∧
      mmAllocateRegionVm .above s 0x2000 0x2000 true = .ok (.success, some 0x2000, s') ∧
      Used s 0x4000 ∧ ¬ Used s' 0x4000 ∧ ¬ KeepsAccount .above s 0x2000 0x2000 true := by
  refine ⟨_, _, rfl, rfl, by decide, by decide, fun hk => ?_⟩
  have hst := (hk 0x2000 _ rfl).status 0x4000
  revert hst
  decide

end Kot.Kernel.Mm
