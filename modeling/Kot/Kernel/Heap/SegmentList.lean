import Kot.Lib.Linked
import Kot.Kernel.Heap.Segments

/-! The segment list of the heap. Cutting, merging and expanding rewrite the linked list
around one node; everything else stays in place. -/
namespace Kot.Kernel.Heap
open Kot.Lib List HeapState

/-- What a segment occupies: its header at `base` and `length` bytes after it. -/
structure Segment where
  base : ℕ
  length : ℕ
  isFree : Bool
  deriving DecidableEq

def segmentAt (s : HeapState) (a : Ptr) : Segment where
  base := a
  length := (s.header a).length
  isFree := (s.header a).isFree

def view (s : HeapState) (l : List Ptr) : List Segment := l.map (segmentAt s)

/-- The list through `next` is the main segment `m` followed by `l`. -/
structure Chained (s : HeapState) (m : Ptr) (l : List Ptr) : Prop where
  nodup : (m :: l).Nodup
  linked : Linked (fun a => (s.header a).next) (fun a => (s.header a).last) none (m :: l) none
  main : s.mainSegment = some m
  final : s.lastSegment = (m :: l).getLast?

def SameVars (s s' : HeapState) : Prop := s' = { s with header := s'.header }

variable {s s' s'' : HeapState} {m a b p n z : Ptr} {l l1 l2 : List Ptr} {size length : ℕ}

theorem SameVars.refl (s : HeapState) : SameVars s s := rfl

theorem SameVars.trans (h : SameVars s s') (h' : SameVars s' s'') : SameVars s s'' := by
  unfold SameVars at *
  rw [h', h]

@[simp] theorem view_nil : view s [] = [] := rfl

@[simp] theorem view_cons (s : HeapState) (a : Ptr) (l : List Ptr) :
    view s (a :: l) = segmentAt s a :: view s l := rfl

@[simp] theorem view_append (s : HeapState) (l1 l2 : List Ptr) :
    view s (l1 ++ l2) = view s l1 ++ view s l2 := map_append

theorem view_congr (h : ∀ a ∈ l, segmentAt s' a = segmentAt s a) : view s' l = view s l :=
  map_congr_left h

theorem modify_header {x : Ptr} {f : Header → Header} :
    (s.modify a f).header x = if x = a then f (s.header x) else s.header x := by
  by_cases h : x = a
  · subst h
    simp [HeapState.modify]
  · simp [HeapState.modify, h]

@[simp] theorem modify_sameVars (s : HeapState) (a : Ptr) (f : Header → Header) :
    SameVars s (s.modify a f) := rfl

theorem Chained.around (h : Chained s m (l1 ++ a :: l2)) :
    (s.header a).last = (m :: l1).getLast? ∧ (s.header a).next = l2.head? ∧
      (∀ x ∈ m :: l1, x ≠ a ∧ x ∉ l2) ∧ ∀ x ∈ l2, x ≠ a := by
  have hk := h.linked
  rw [← cons_append] at hk
  have hd : ((m :: l1) ++ a :: l2).Nodup := h.nodup
  obtain ⟨hl, hn⟩ := hk.mid
  obtain ⟨-, hd, hd'⟩ := nodup_append.mp hd
  obtain ⟨hr, -⟩ := nodup_cons.mp hd
  refine ⟨by simpa using hl, by simpa using hn, fun x hx => ⟨?_, fun hx' => ?_⟩, ?_⟩
  · exact hd' x hx a (by simp)
  · exact hd' x hx x (by simp [hx']) rfl
  · rintro x hx rfl
    exact hr hx

theorem Chained.congr (h : Chained s m l) (hn : ∀ x, (s'.header x).next = (s.header x).next)
    (hl : ∀ x, (s'.header x).last = (s.header x).last)
    (hm : s'.mainSegment = s.mainSegment) (hf : s'.lastSegment = s.lastSegment) :
    Chained s' m l where
  nodup := h.nodup
  linked := h.linked.congr (fun x _ => hn x) (fun x _ => hl x)
  main := hm.trans h.main
  final := hf.trans h.final

theorem findSegment_eq {turns : ℕ} {q : Option Ptr} {r : Option Ptr}
    (h : Linked (fun a => (s.header a).next) (fun a => (s.header a).last) q l none)
    (hr : findSegment s size turns l.head? = .ok r) :
    r = l.find? fun a => (s.header a).isFree ∧
      (wadd size headerSize < (s.header a).length ∨ (s.header a).length = size) := by
  induction l generalizing turns q with
  | nil =>
    simp only [head?_nil, findSegment, Except.ok.injEq] at hr
    exact hr.symm
  | cons a l ih =>
    obtain ⟨-, hn, ht⟩ := h
    have hn : (s.header a).next = l.head? := by simpa using hn
    cases turns with
    | zero => simp [findSegment] at hr
    | succ turns =>
      rw [head?_cons, findSegment, hn] at hr
      rw [find?_cons]
      split at hr
      · next hp =>
        rw [decide_eq_true hp]
        exact (Except.ok.inj hr).symm
      · next hp =>
        rw [decide_eq_false hp]
        exact ih ht hr

private theorem exists_last : ∃ p, (m :: l).getLast? = some p :=
  ⟨_, getLast?_eq_some_getLast (cons_ne_nil m l)⟩

private theorem splitSegment_eq (hs : wadd size headerSize < (s.header a).length)
    (hl : (s.header a).last = some p) (hpa : p ≠ a) (hn : wsub (wadd a (s.header a).length) size = n)
    (hna : n ≠ a) (hnp : n ≠ p) (hf : (s.header a).next = none → s.lastSegment = some a) :
    ∃ s', splitSegment s a size = some (s', n) ∧ SameVars s s' ∧
      s'.header n = { isFree := true, length := size, next := some a, last := some p } ∧
      s'.header p = { s.header p with next := some n } ∧
      s'.header a = { s.header a with
        last := some n, length := wsub (s.header a).length (wadd size headerSize) } ∧
      ∀ x, x ≠ n → x ≠ p → x ≠ a → s'.header x = s.header x := by
  rw [splitSegment, if_pos hs, hn]
  have hh : ∀ f, ((s.modify n f).header a) = s.header a := fun f => by
    rw [modify_header, if_neg hna.symm]
  simp only [hh, hl]
  have hsame : (if (s.header a).next = none then
      { s.modify n fun _ => { isFree := true, length := size, next := some a, last := some p } with
        lastSegment := some a }
      else s.modify n fun _ => { isFree := true, length := size, next := some a, last := some p }) =
      s.modify n fun _ => { isFree := true, length := size, next := some a, last := some p } := by
    split
    · next hx =>
      rw [← hf hx]
      rfl
    · rfl
  rw [hsame]
  simp only [setNext, modify_header, hna.symm, if_false, hl]
  refine ⟨_, rfl, rfl, ?_⟩
  simp +contextual [modify_header, hna, hnp, hpa, hna.symm, hnp.symm, hpa.symm]

theorem splitSegment_chained (h : Chained s m (l1 ++ a :: l2))
    (hs : wadd size headerSize < (s.header a).length)
    (hn : wsub (wadd a (s.header a).length) size = n) (hnl : n ∉ m :: (l1 ++ a :: l2)) :
    ∃ s', splitSegment s a size = some (s', n) ∧ SameVars s s' ∧
      Chained s' m (l1 ++ n :: a :: l2) ∧ view s' (m :: l1) = view s (m :: l1) ∧
      view s' l2 = view s l2 ∧ segmentAt s' n = ⟨n, size, true⟩ ∧
      segmentAt s' a =
        ⟨a, wsub (s.header a).length (wadd size headerSize), (s.header a).isFree⟩ := by
  obtain ⟨hla, hna, hl1, hl2⟩ := h.around
  obtain ⟨p, hp⟩ := exists_last
  have hpm : p ∈ m :: l1 := mem_of_getLast? hp
  have hne : ∀ x ∈ m :: (l1 ++ a :: l2), x ≠ n := fun x hx he => hnl (he ▸ hx)
  have hpn : p ≠ n := hne p (by
    rcases mem_cons.mp hpm with rfl | hpm
    · simp
    · simp [hpm])
  have hfin : (s.header a).next = none → s.lastSegment = some a := by
    intro hx
    rw [hna, head?_eq_none_iff] at hx
    rw [h.final, hx, ← cons_append, getLast?_concat]
  obtain ⟨s', he, hv, hn', hp', ha', ho'⟩ := splitSegment_eq hs (hla.trans hp) (hl1 p hpm).1 hn
    (hne a (by simp)).symm hpn.symm hfin
  have hpa : p ≠ a := (hl1 p hpm).1
  have hx : ∀ x ∈ (m :: l1) ++ a :: l2,
      (s'.header x).next = (if (m :: l1).getLast? = some x then some n else (s.header x).next) ∧
      (s'.header x).last = (if (a :: l2).head? = some x then some n else (s.header x).last) ∧
      (x ≠ a → segmentAt s' x = segmentAt s x) := by
    intro x hx
    rw [hp, head?_cons]
    by_cases hxa : x = a
    · subst hxa
      simp [ha', hpa]
    · by_cases hxp : x = p
      · subst hxp
        simp [hp', hpa.symm, segmentAt]
      · rw [segmentAt, ho' x (hne x hx) hxp hxa]
        simp [segmentAt, Ne.symm hxa, Ne.symm hxp]
  refine ⟨s', he, hv, ⟨?_, ?_, ?_, ?_⟩, ?_, ?_, ?_, ?_⟩
  · have hperm : ((m :: l1) ++ n :: a :: l2).Perm (n :: ((m :: l1) ++ a :: l2)) :=
      perm_middle
    exact hperm.nodup_iff.mpr (nodup_cons.mpr ⟨hnl, h.nodup⟩)
  · have hk := h.linked
    rw [← cons_append] at hk
    exact hk.insert h.nodup (by simp [hn', hp]) (by simp [hn']) (fun x hxl => (hx x hxl).1)
      (fun x hxl => (hx x hxl).2.1)
  · rw [hv]
    exact h.main
  · have hlast : ((m :: l1) ++ n :: a :: l2).getLast? = ((m :: l1) ++ a :: l2).getLast? := by
      rw [getLast?_append_of_ne_nil _ (by simp), getLast?_append_of_ne_nil _ (by simp),
        getLast?_cons_cons]
    rw [hv]
    exact h.final.trans hlast.symm
  · exact view_congr fun x hxl =>
      (hx x (mem_append_left _ hxl)).2.2 (hl1 x hxl).1
  · exact view_congr fun x hxl => (hx x (by simp [hxl])).2.2 (hl2 x hxl)
  · simp [segmentAt, hn']
  · simp [segmentAt, ha']

/-- A merge rewrites the lower segment and the neighbour above the pair, and clears the
upper segment. Both merges of the source do this, named from either segment. -/
private theorem merge_eq (hb : (s.header b).last = some a) (ha : (s.header a).next = some b)
    (hl : (s.header a).last = some p) (hab : a ≠ b) (hpa : p ≠ a) (hpb : p ≠ b) :
    ∃ s', mergeLastToThis s b = .ok s' ∧ mergeThisToNext s a = .ok s' ∧ SameVars s s' ∧
      s'.header p = { s.header p with next := some b } ∧
      s'.header b = { s.header b with
        last := some p
        length := wadd (s.header b).length (wadd (s.header a).length headerSize) } ∧
      ∀ x, x ≠ a → x ≠ p → x ≠ b → s'.header x = s.header x := by
  simp only [mergeLastToThis, mergeThisToNext, hb, ha, hl, modify_header, if_true, hab, if_false]
  refine ⟨_, rfl, rfl, rfl, ?_⟩
  simp +contextual [HeapState.setNext, HeapState.clear, modify_header, hab.symm, hpa, hpb,
    hpb.symm]

theorem merge_chained (h : Chained s m (l1 ++ a :: b :: l2)) :
    ∃ s', mergeLastToThis s b = .ok s' ∧ mergeThisToNext s a = .ok s' ∧ SameVars s s' ∧
      Chained s' m (l1 ++ b :: l2) ∧ view s' (m :: l1) = view s (m :: l1) ∧
      view s' l2 = view s l2 ∧
      segmentAt s' b = ⟨b, wadd (s.header b).length (wadd (s.header a).length headerSize),
        (s.header b).isFree⟩ := by
  obtain ⟨hla, hna, hl1, hl2⟩ := h.around
  have h' : Chained s m ((l1 ++ [a]) ++ b :: l2) := by simpa using h
  obtain ⟨hlb, hnb, hl₁b, hl₂b⟩ := h'.around
  obtain ⟨p, hp⟩ := exists_last
  have hpm := mem_of_getLast? hp
  have hpa : p ≠ a := (hl1 p hpm).1
  have hpb : p ≠ b := fun he => (hl1 p hpm).2 (by simp [he])
  have hab : a ≠ b := (hl2 b (by simp)).symm
  have hlb : (s.header b).last = some a := by
    rw [hlb, ← cons_append, getLast?_concat]
  obtain ⟨s', he1, he2, hv, hp', hb', ho'⟩ := merge_eq hlb (by simpa using hna) (hla.trans hp) hab
    hpa hpb
  have hx : ∀ x ∈ (m :: l1) ++ b :: l2,
      (s'.header x).next = (if (m :: l1).getLast? = some x then (b :: l2).head?.or none
        else (s.header x).next) ∧
      (s'.header x).last = (if (b :: l2).head? = some x then (m :: l1).getLast?.or none
        else (s.header x).last) ∧
      (x ≠ b → segmentAt s' x = segmentAt s x) := by
    intro x hx
    rw [hp, head?_cons]
    have hxa : x ≠ a := by
      rcases mem_append.mp hx with hx | hx
      · exact (hl1 x hx).1
      · exact hl2 x hx
    by_cases hxb : x = b
    · subst hxb
      simp [hb', hpb]
    · by_cases hxp : x = p
      · subst hxp
        simp [hp', hpb.symm, segmentAt]
      · rw [segmentAt, ho' x hxa hxp hxb]
        simp [segmentAt, Ne.symm hxb, Ne.symm hxp]
  refine ⟨s', he1, he2, hv, ⟨?_, ?_, ?_, ?_⟩, ?_, ?_, ?_⟩
  · exact h.nodup.sublist (by simp)
  · have hk := h.linked
    rw [← cons_append] at hk
    exact hk.remove h.nodup (fun x hxl => (hx x hxl).1) (fun x hxl => (hx x hxl).2.1)
  · rw [hv]
    exact h.main
  · have hlast : ((m :: l1) ++ a :: b :: l2).getLast? = ((m :: l1) ++ b :: l2).getLast? := by
      rw [getLast?_append_of_ne_nil _ (by simp), getLast?_append_of_ne_nil _ (by simp),
        getLast?_cons_cons]
    rw [hv]
    exact h.final.trans hlast
  · exact view_congr fun x hxl => (hx x (mem_append_left _ hxl)).2.2
      fun he => (hl1 x hxl).2 (by simp [he])
  · exact view_congr fun x hxl => (hx x (by simp [hxl])).2.2 (hl₂b x hxl)
  · simp [segmentAt, hb']

theorem setFree_chained (f : Bool) (h : Chained s m (l1 ++ a :: l2)) :
    Chained (s.setFree a f) m (l1 ++ a :: l2) ∧
      view (s.setFree a f) (m :: l1) = view s (m :: l1) ∧ view (s.setFree a f) l2 = view s l2 ∧
      segmentAt (s.setFree a f) a = ⟨a, (s.header a).length, f⟩ := by
  obtain ⟨-, -, hl1, hl2⟩ := h.around
  have hx : ∀ x, ((s.setFree a f).header x).next = (s.header x).next ∧
      ((s.setFree a f).header x).last = (s.header x).last ∧
      (x ≠ a → segmentAt (s.setFree a f) x = segmentAt s x) := by
    intro x
    rw [segmentAt, setFree, modify_header]
    split <;> simp_all [segmentAt]
  refine ⟨h.congr (fun x => (hx x).1) (fun x => (hx x).2.1) rfl rfl, ?_, ?_, ?_⟩
  · exact view_congr fun x hxl => (hx x).2.2 (hl1 x hxl).1
  · exact view_congr fun x hxl => (hx x).2.2 (hl2 x hxl)
  · simp [segmentAt, setFree, modify_header]

private theorem attachSegment_chained (hd : (m :: l).Nodup) {q : Option Ptr}
    (hk : Linked (fun a => (s.header a).next) (fun a => (s.header a).last) none (m :: l) q)
    (hm : s.mainSegment = some m) (hp : (m :: l).getLast? = some p) (hn : n ∉ m :: l) :
    attachSegment s n (some p) length =
        { s with header := (attachSegment s n (some p) length).header, lastSegment := some n } ∧
      Chained (attachSegment s n (some p) length) m (l ++ [n]) ∧
      view (attachSegment s n (some p) length) (m :: l) = view s (m :: l) ∧
      segmentAt (attachSegment s n (some p) length) n = ⟨n, length, true⟩ := by
  have hne : ∀ x ∈ m :: l, x ≠ n := fun x hx he => hn (he ▸ hx)
  have hpn : p ≠ n := hne p (mem_of_getLast? hp)
  have hnode : (attachSegment s n (some p) length).header n =
      { isFree := true, length, last := some p, next := none } := by
    simp [attachSegment, setNext, modify_header, hpn.symm]
  have hx : ∀ x ∈ m :: l,
      ((attachSegment s n (some p) length).header x).next =
        (if (m :: l).getLast? = some x then some n else (s.header x).next) ∧
      ((attachSegment s n (some p) length).header x).last = (s.header x).last ∧
      segmentAt (attachSegment s n (some p) length) x = segmentAt s x := by
    intro x hx
    rw [hp]
    by_cases hxp : x = p
    · subst hxp
      simp [attachSegment, setNext, modify_header, segmentAt, hpn]
    · simp [attachSegment, setNext, modify_header, segmentAt, hxp, hne x hx,
        Ne.symm hxp]
  refine ⟨rfl, ⟨?_, ?_, hm, ?_⟩, view_congr fun x hxl => (hx x hxl).2.2, ?_⟩
  · rw [← cons_append]
    exact hd.append (nodup_singleton n) (disjoint_singleton.mpr hn)
  · rw [← cons_append]
    apply linked_append.mpr
    refine ⟨hk.relink_right hd (fun x hxl => (hx x hxl).1) (fun x hxl => (hx x hxl).2.1), ?_⟩
    simp [hnode, hp]
  · rw [← cons_append, getLast?_concat]
    rfl
  · rw [segmentAt, hnode]

theorem linkExpansion_absorb (h : Chained s m (l1 ++ [z])) (hf : (s.header z).isFree = true)
    (hn : n ∉ m :: l1) :
    linkExpansion s n length =
        { s with header := (linkExpansion s n length).header, lastSegment := some n } ∧
      Chained (linkExpansion s n length) m (l1 ++ [n]) ∧
      view (linkExpansion s n length) (m :: l1) = view s (m :: l1) ∧
      segmentAt (linkExpansion s n length) n =
        ⟨n, wsub (wadd (s.header z).length length) headerSize, true⟩ := by
  obtain ⟨p, hp⟩ := exists_last
  have hlast : s.lastSegment = some z := by
    rw [h.final, ← cons_append, getLast?_concat]
  have habs : absorbable s = some (z, p) := by
    simp [absorbable, hlast, h.around.1.trans hp, hf]
  have hk := h.linked
  rw [← cons_append] at hk
  have hd := h.nodup
  rw [linkExpansion, habs]
  exact attachSegment_chained (nodup_append.mp hd).1 (linked_append.mp hk).1 h.main hp hn

theorem linkExpansion_append (h : Chained s m l)
    (hf : ∀ x, l.getLast? = some x → (s.header x).isFree = false) (hn : n ∉ m :: l) :
    linkExpansion s n length =
        { s with header := (linkExpansion s n length).header, lastSegment := some n } ∧
      Chained (linkExpansion s n length) m (l ++ [n]) ∧
      view (linkExpansion s n length) (m :: l) = view s (m :: l) ∧
      segmentAt (linkExpansion s n length) n = ⟨n, wsub length headerSize, true⟩ := by
  obtain ⟨z, hz⟩ := exists_last
  have hlast := h.final.trans hz
  have habs : absorbable s = none := by
    rcases eq_nil_or_concat l with rfl | ⟨l0, y, rfl⟩
    · obtain rfl : m = z := by simpa using hz
      simp [absorbable, hlast, h.linked.1]
    · rw [concat_eq_append] at *
      obtain rfl : y = z := by
        rw [← cons_append, getLast?_concat] at hz
        exact Option.some.inj hz
      rw [absorbable, hlast]
      dsimp only
      split
      · rfl
      · rw [hf y (by simp)]
        simp
  rw [linkExpansion, habs, hlast]
  exact attachSegment_chained h.nodup h.linked h.main hz hn

end Kot.Kernel.Heap
