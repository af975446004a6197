import Kot.Kernel.Mm.WellFormed

/-! Which bytes of the address space are used, and how the common end of the two entry
points changes that: the region takes the wanted status and nothing else moves. -/
namespace Kot.Kernel.Mm
open Kot.Lib

def Extent.Holds (e : Extent) (x : ℕ) : Prop := e.base ≤ x ∧ x < e.base + e.size

instance (e : Extent) (x : ℕ) : Decidable (e.Holds x) := inferInstanceAs (Decidable (_ ∧ _))

/-- The byte `x` lies in a used extent of the list. -/
def UsedAt (es : List Extent) (x : ℕ) : Prop := ∃ e ∈ es, e.Holds x ∧ e.isFree = false

variable {es es1 es2 : List Extent} {e c : Extent} {x lo hi : ℕ}

@[simp] theorem usedAt_nil : ¬ UsedAt [] x := by simp [UsedAt]

@[simp] theorem usedAt_cons :
    UsedAt (e :: es) x ↔ e.Holds x ∧ e.isFree = false ∨ UsedAt es x := by simp [UsedAt]

@[simp] theorem usedAt_append : UsedAt (es1 ++ es2) x ↔ UsedAt es1 x ∨ UsedAt es2 x := by
  simp [UsedAt, or_and_right, exists_or]

theorem usedAt_mid (h : Tiles Extent.base Extent.size lo (es1 ++ e :: es2) hi) :
    UsedAt (es1 ++ e :: es2) x ↔
      if e.Holds x then e.isFree = false else UsedAt (es1 ++ es2) x := by
  obtain ⟨-, hp, hp'⟩ := List.pairwise_append.mp h.pairwise
  obtain ⟨hp, -⟩ := List.pairwise_cons.mp hp
  split
  · next hx =>
    have h1 : ¬ UsedAt es1 x := by
      rintro ⟨d, hd, hdx, -⟩
      have := hp' d hd e (by simp)
      unfold Extent.Holds at hx hdx
      omega
    have h2 : ¬ UsedAt es2 x := by
      rintro ⟨d, hd, hdx, -⟩
      have := hp d hd
      unfold Extent.Holds at hx hdx
      omega
    simp [h1, h2, hx]
  · next hx => simp [hx]

theorem holds_of_touching {d : Extent} (hb : d.base = e.base) (hs : d.size = e.size + c.size)
    (hc : c.base = e.base + e.size) : d.Holds x ↔ e.Holds x ∨ c.Holds x := by
  unfold Extent.Holds
  omega

variable {s s' : MmState} {l l1 l2 : List Ptr} {r p : Ptr}

theorem WellFormed.adjacent {c : Ptr} (h : WellFormed s (l1 ++ r :: c :: l2)) :
    (s.region c).base = (s.region r).base + (s.region r).size := by
  have ht := h.tiles
  rw [view_append, view_cons, view_cons] at ht
  obtain ⟨mid, -, h1, -, h2, -⟩ := tiles_append.mp ht
  simp only [MemoryRegion.extent] at h1 h2
  rw [h2, h1]

/-- The first half of `settleRegion`: the successor is merged in when it has the wanted
status already, then the region takes the status. -/
private theorem settleNext_spec {free : Bool} (h : WellFormed s (l1 ++ r :: l2)) :
    ∃ s1 m, settleNext s r free = .ok s1 ∧
      WellFormed (s1.setFree r free) (l1 ++ r :: m) ∧ SameHandler s (s1.setFree r free) ∧
      ((s1.setFree r free).region r).isFree = free ∧
      ∀ x, UsedAt (view (s1.setFree r free) (l1 ++ r :: m)) x ↔
        if (s.region r).extent.Holds x then free = false
        else UsedAt (view s (l1 ++ r :: l2)) x := by
  have hset : ∀ {s1 : MmState} {m : List Ptr}, WellFormed s1 (l1 ++ r :: m) → ∀ x,
      UsedAt (view (s1.setFree r free) (l1 ++ r :: m)) x ↔
        if (s1.region r).extent.Holds x then free = false else UsedAt (view s1 (l1 ++ m)) x := by
    intro s1 m h1 x
    obtain ⟨-, hv1, hv2, hr⟩ := setFree_chained free h1.toChained
    have ht := (setFree_wellFormed free h1).tiles
    rw [view_append, view_cons, hv1, hv2, hr] at ht ⊢
    rw [usedAt_mid ht, view_append]
    rfl
  have hfree : ∀ s1 : MmState, ((s1.setFree r free).region r).isFree = free := by
    intro s1
    simp [MmState.setFree, modify_region]
  have hkeep : ∀ x, UsedAt (view (s.setFree r free) (l1 ++ r :: l2)) x ↔
      if (s.region r).extent.Holds x then free = false
      else UsedAt (view s (l1 ++ r :: l2)) x := by
    intro x
    have ht := h.tiles
    rw [view_append, view_cons] at ht
    rw [hset h x, view_append, view_append, view_cons, usedAt_mid ht]
    split_ifs <;> rfl
  have hn : (s.region r).next = l2.head? := by simpa using h.linked.mid.2
  rw [settleNext, hn]
  rcases l2 with _ | ⟨n, l2⟩
  · exact ⟨s, [], rfl, setFree_wellFormed free h, .refl s, hfree s, hkeep⟩
  · by_cases hf : (s.region n).isFree = free
    · obtain ⟨s1, hm, hw, hs, hv1, hv2, hr⟩ := mergeRegion_wellFormed h
      refine ⟨s1, l2, by simp [hf, mergeChecked, hm], setFree_wellFormed free hw, hs, hfree s1,
        fun x => ?_⟩
      have ht : Tiles Extent.base Extent.size s.handler.base
          ((view s l1 ++ [(s.region r).extent]) ++ (s.region n).extent :: view s l2)
          (s.handler.base + s.handler.size) := by
        simpa [view_append] using h.tiles
      have hx := holds_of_touching (d := (s1.region r).extent) (e := (s.region r).extent)
        (c := (s.region n).extent) (x := x) (by rw [hr]; rfl) (by rw [hr]; rfl) h.adjacent
      have hu := usedAt_mid (x := x) ht
      have hfn : (s.region n).extent.isFree = free := hf
      rw [hset hw x, view_append, hv1, hv2]
      simp only [hx, hfn, view_append, view_cons, usedAt_append, usedAt_cons, usedAt_nil] at hu ⊢
      by_cases hxr : (s.region r).extent.Holds x
      · simp [hxr]
      · by_cases hxn : (s.region n).extent.Holds x <;> simp [hxr, hxn] at hu ⊢ <;> tauto
    · exact ⟨s, n :: l2, by simp [hf], setFree_wellFormed free h, .refl s, hfree s, hkeep⟩

theorem settleRegion_spec (free : Bool) (h : WellFormed s (l1 ++ r :: l2)) :
    ∃ s' l', settleRegion s r free = .ok s' ∧ WellFormed s' l' ∧ SameHandler s s' ∧
      ∀ x, UsedAt (view s' l') x ↔
        if (s.region r).extent.Holds x then free = false
        else UsedAt (view s (l1 ++ r :: l2)) x := by
  obtain ⟨s1, m, he, hw, hs, hf, hu⟩ := settleNext_spec h
  have hl : ((s1.setFree r free).region r).last = l1.getLast? := by simpa using hw.linked.mid.1
  rw [settleRegion, he]
  change ∃ s' l', settleLast (s1.setFree r free) r free = .ok s' ∧ _
  rw [settleLast, hl]
  rcases List.eq_nil_or_concat l1 with rfl | ⟨l1, p, rfl⟩
  · exact ⟨_, _, rfl, hw, hs, hu⟩
  · rw [List.concat_eq_append] at *
    rw [List.getLast?_concat]
    by_cases hp : ((s1.setFree r free).region p).isFree = free
    · have hw' : WellFormed (s1.setFree r free) (l1 ++ p :: r :: m) := by simpa using hw
      obtain ⟨s', hm, hw'', hs', hv1, hv2, hr⟩ := mergeRegion_wellFormed hw'
      refine ⟨s', l1 ++ p :: m, by simp [hp, mergeChecked, hm], hw'', hs.trans hs', fun x => ?_⟩
      have hx := holds_of_touching (d := (s'.region p).extent)
        (e := ((s1.setFree r free).region p).extent) (c := ((s1.setFree r free).region r).extent)
        (x := x) (by rw [hr]; rfl) (by rw [hr]; rfl) hw'.adjacent
      have hf' : (s'.region p).extent.isFree = ((s1.setFree r free).region p).isFree := by rw [hr]
      rw [← hu]
      simp only [view_append, view_cons, usedAt_append, usedAt_cons, hv1, hv2, hx, hf']
      simp only [MemoryRegion.extent, hp, hf, view, List.map_nil, usedAt_nil]
      tauto
    · exact ⟨_, _, by simp [hp], hw, hs, hu⟩

end Kot.Kernel.Mm
