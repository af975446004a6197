import Kot.Fat.Chains

/-! Writing along a chain: the bytes go into its clusters and then into fresh ones that are linked
behind its end, and the flag for the end of the chain frees what is left behind the last one. -/
namespace Kot.Fat

open Kot.Kernel Kot.Lib Kot.Lib.Program List Function

variable {ctx : Context} {v v' : Volume} {c : ℕ} {l fs rest : List ℕ} {next : ℕ → ℕ}

/-- The links after fresh clusters are put behind the cluster `p`, one after the other. -/
def attach (next : ℕ → ℕ) : ℕ → List ℕ → ℕ → ℕ
  | _, [] => next
  | p, f :: fs => attach (update (update next f 0xFFFFFFF) p f) f fs

theorem attach_of_not_mem {p x : ℕ} (hp : x ≠ p) (hx : x ∉ fs) : attach next p fs x = next x := by
  induction fs generalizing next p with
  | nil => rfl
  | cons f fs ih =>
    obtain ⟨hf, hx⟩ : x ≠ f ∧ x ∉ fs := by simpa using hx
    rw [attach, ih hf hx, update_of_ne hp, update_of_ne hf]

theorem walk_attach {p : ℕ} (hp : p ∉ fs) (hnd : fs.Nodup) (hfs : ∀ f ∈ fs, ¬ IsEnd f)
    (hne : fs ≠ []) : Walk (attach next p fs) IsEnd (attach next p fs p) fs 0xFFFFFFF := by
  induction fs generalizing next p with
  | nil => exact absurd rfl hne
  | cons f fs ih =>
    obtain ⟨hpf, hp'⟩ : p ≠ f ∧ p ∉ fs := by simpa using hp
    obtain ⟨hf, hnd⟩ := nodup_cons.mp hnd
    have hhead : attach next p (f :: fs) p = f := by
      rw [attach, attach_of_not_mem hpf hp', update_self]
    rw [hhead]
    refine ⟨rfl, hfs f (by simp), ?_⟩
    rw [attach]
    by_cases hnil : fs = []
    · subst hnil
      simp [attach, update_of_ne (Ne.symm hpf)]
    · exact ih hf hnd (fun a ha => hfs a (by simp [ha])) hnil

theorem Chain.attach (h : Chain ctx next c l) (hs : ctx.Sound) (hl : l ≠ []) (hnd : (l ++ fs).Nodup)
    (hfs : ∀ f ∈ fs, ctx.IsData f) :
    Chain ctx (Fat.attach next (l.getLast hl) fs) c (l ++ fs) := by
  obtain ⟨⟨d, hw, hd⟩, hdata⟩ := h
  have hdata' : ∀ a ∈ l ++ fs, ctx.IsData a := fun a ha =>
    (mem_append.mp ha).elim (hdata a) (hfs a)
  by_cases hnil : fs = []
  · subst hnil
    rw [append_nil] at hdata' ⊢
    exact ⟨⟨d, hw, hd⟩, hdata'⟩
  · refine ⟨⟨0xFFFFFFF, ?_, by decide⟩, hdata'⟩
    obtain ⟨hndl, hndfs, hdisj⟩ := nodup_append.mp hnd
    set z := l.getLast hl with hz
    have hsplit : l.dropLast ++ [z] = l := dropLast_append_getLast hl
    have hzfs : z ∉ fs := fun hmem => hdisj z (getLast_mem hl) z hmem rfl
    have hzl : z ∉ l.dropLast := by
      rw [← hsplit] at hndl
      exact fun hmem => (nodup_append.mp hndl).2.2 z hmem z (by simp) rfl
    refine walk_append.mpr ⟨_, ?_, walk_attach hzfs hndfs (fun f hf => hs.not_isEnd (hfs f hf)) hnil⟩
    rw [← hsplit] at hw ⊢
    refine hw.redirect fun a ha => attach_of_not_mem ?_ ?_
    · rintro rfl
      exact hzl ha
    · intro hmem
      exact hdisj a (dropLast_subset l ha) a hmem rfl

theorem Chain.nodup_append_free (h : Chain ctx v.next c l) (hfree : v.freeList ctx = fs ++ rest) :
    (l ++ fs).Nodup := by
  have hnd : (fs ++ rest).Nodup := hfree ▸ View.freeList_nodup
  refine nodup_append.mpr ⟨h.nodup, (nodup_append.mp hnd).1, ?_⟩
  rintro a ha b hb rfl
  have hmem : a ∈ v.freeList ctx := by
    rw [hfree]
    exact mem_append_left _ hb
  exact h.next_ne_zero a ha (View.mem_freeList.mp hmem).2.2

variable {current start b a turns k : ℕ} {bytes data : List UInt8} {m : List ℕ}

/-- A turn of the writing loop goes on to the next cluster of the chain, or to a fresh one that it
links behind the last one. -/
theorem nextOrFresh_eq (hs : ctx.Sound) (h : Chain ctx v.next start l)
    (hcur : l = [] → ctx.IsData current ∧ v.next current ≠ 0)
    (hfree : v.freeList ctx = fs ++ rest) (hfs : ∀ b ∈ fs, ctx.IsData b) (hne : l ++ fs ≠ []) :
    ∃ v1 b fs', nextOrFresh ctx current start v = .ok (some b, v1) ∧
      l ++ fs = b :: (l.tail ++ fs') ∧
      fs'.length ≤ fs.length ∧ ctx.IsData b ∧ v1.next b ≠ 0 ∧ Chain ctx v1.next (v1.next b) l.tail ∧
      v1.freeList ctx = fs' ++ rest ∧ (∀ b ∈ fs', ctx.IsData b) ∧
      Becomes ctx v v1 v1.next (v.clusterBytes ctx) v1.nextFreeCluster ∧
      attach v.next (l.getLast?.getD current) fs = attach v1.next (l.tail.getLast?.getD b) fs' ∧
      fs.getLast?.getD v.nextFreeCluster = fs'.getLast?.getD v1.nextFreeCluster := by
  cases l with
  | cons b l =>
    obtain rfl : start = b := h.1.choose_spec.1.1
    have hb := h.2 start (by simp)
    refine ⟨v, start, fs, ?_, rfl, Nat.le_refl _, hb, h.next_ne_zero start (by simp), h.tail, hfree,
      hfs, .refl ctx v, ?_, rfl⟩
    · rw [nextOrFresh, if_neg (hs.not_isEnd hb)]
      rfl
    · rw [getLast?_cons]
      rfl
  | nil =>
    obtain ⟨hcd, hcn⟩ := hcur rfl
    cases fs with
    | nil => exact absurd rfl hne
    | cons i fs =>
      have hi := hfs i (by simp)
      have hmem : i ∈ v.freeList ctx := by rw [hfree]; simp
      have hzero := (View.mem_freeList.mp hmem).2.2
      have hic : i ≠ current := by rintro rfl; exact hcn hzero
      have hend : IsEnd start := by
        obtain ⟨⟨d, hw, hd⟩, _⟩ := h
        obtain rfl : start = d := hw
        exact isEnd_of_le hd
      obtain ⟨v1, h1, hv1, hfree1⟩ := allocateCluster_becomes hs hfree hi
      have hmod : i % 2 ^ 28 = i := Nat.mod_eq_of_lt
        (Nat.lt_trans (Nat.lt_of_lt_of_le hi.2 hs.entries_lt) (by decide))
      have hcn1 : v1.next current ≠ 0 := by
        rw [hv1.next, update_of_ne (Ne.symm hic)]
        exact hcn
      have hi2 := hi.1
      obtain ⟨v2, h2, hv2⟩ := setNextCluster_becomes (n := i) hs hcd hcn1 (by omega)
      have hnext : v2.next = update (update v.next i 0xFFFFFFF) current i := by
        rw [hv2.next, hmod, hv1.next]
      have hnexti : v2.next i = 0xFFFFFFF := by
        rw [hnext, update_of_ne hic, update_self]
      refine ⟨v2, i, fs, ?_, rfl, by simp, hi, by rw [hnexti]; decide,
        ⟨⟨0xFFFFFFF, hnexti, by decide⟩, by simp⟩, ?_, fun b hb => hfs b (by simp [hb]), ?_, ?_, ?_⟩
      · rw [nextOrFresh, if_pos hend, bind_of_ok h1]
        exact bind_of_ok h2
      · refine (freeList_congr (fun x => ?_) hv2.hint).trans hfree1
        rw [hv2.next]
        by_cases hx : x = current
        · subst hx
          rw [update_self, hmod]
          exact ⟨fun h => by omega, fun h => absurd h hcn1⟩
        · rw [update_of_ne hx]
      · have := hv1.trans hv2
        rwa [hv1.data, ← hv2.next, ← hv2.hint] at this
      · rw [hnext]
        rfl
      · rw [hv2.hint, hv1.hint, getLast?_cons]
        rfl

/-- What a write does that goes along the chain `l` and then into the fresh clusters `fs`, which it
links behind the cluster `p`. -/
structure Wrote (ctx : Context) (v v' : Volume) (p : ℕ) (l fs rest : List ℕ) (a : ℕ)
    (data : List UInt8) : Prop where
  next : v'.next = Fat.attach v.next p fs
  content : v'.content ctx (l ++ fs) = splice (v.content ctx (l ++ fs)) a data
  others : ∀ c, c ∉ l ++ fs → v'.clusterBytes ctx c = v.clusterBytes ctx c
  free : v'.freeList ctx = rest
  hint : v'.nextFreeCluster = fs.getLast?.getD v.nextFreeCluster
  buffer : v'.buffer = v.buffer
  counted : v.Counted ctx → v'.Counted ctx

theorem writeChunk_becomes (hs : ctx.Sound) (hb : ctx.IsData b)
    (hn : a + bytes.length ≤ ctx.clusterSize) :
    ∃ v', writeChunk ctx b a bytes v = .ok ((), v') ∧ Becomes ctx v v' v.next
        (update (v.clusterBytes ctx) b (splice (v.clusterBytes ctx b) a bytes))
        v.nextFreeCluster := by
  by_cases hne : bytes = []
  · subst hne
    rw [splice_nil, update_eq_self]
    exact ⟨v, rfl, .refl ctx v⟩
  · have hview := Volume.put_view (v := v) hs hb hn
    have hnext := congrArg View.next hview
    refine ⟨v.put ctx b a bytes, ?_, hnext, congrArg View.data hview, congrArg View.hint hview,
      Volume.put_buffer .., fun hv => hv.congr hnext (congrArg View.freeCount hview)⟩
    rw [writeChunk, if_neg hne, assertOk, bind_of_ok (Volume.writeCluster_eq hs hb hn)]
    rfl

theorem Wrote.cons {v1 : Volume} {p p' b a a' i : ℕ} {l' fs' : List ℕ} {d e data : List UInt8}
    (heq : l ++ fs = b :: (l' ++ fs')) (hnd : (l ++ fs).Nodup) (hmid : Becomes ctx v v1 v1.next
    (update (v.clusterBytes ctx) b (splice (v.clusterBytes ctx b) i d)) v1.nextFreeCluster)
    (h : Wrote ctx v1 v' p' l' fs' rest a' e)
    (hnext : Fat.attach v.next p fs = Fat.attach v1.next p' fs')
    (hhint : fs.getLast?.getD v.nextFreeCluster = fs'.getLast?.getD v1.nextFreeCluster)
    (hsplice : splice (v.clusterBytes ctx b ++ v.content ctx (l' ++ fs')) a data =
    splice (v.clusterBytes ctx b) i d ++ splice (v.content ctx (l' ++ fs')) a' e) :
    Wrote ctx v v' p l fs rest a data := by
  rw [heq] at hnd
  obtain ⟨hb, _⟩ := nodup_cons.mp hnd
  have hsame : ∀ c, c ≠ b → v1.clusterBytes ctx c = v.clusterBytes ctx c := by
    intro c hc
    rw [hmid.data, update_of_ne hc]
  have hcontent := content_congr fun c hc => hsame c (ne_of_mem_of_not_mem hc hb)
  refine ⟨h.next.trans hnext.symm, ?_, ?_, h.free, h.hint.trans hhint.symm,
    h.buffer.trans hmid.buffer, fun hv => h.counted (hmid.counted hv)⟩
  · rw [heq, content_cons, content_cons, h.others b hb, hmid.data, update_self, h.content,
      hcontent, hsplice]
  · intro c hc
    obtain ⟨hcb, hc⟩ : c ≠ b ∧ c ∉ l' ++ fs' := by
      rw [heq, mem_cons, not_or] at hc
      exact hc
    rw [h.others c hc, hsame c hcb]

section
variable (hs : ctx.Sound) (h : Chain ctx v.next start l) (hfs : ∀ b ∈ fs, ctx.IsData b)
  (hnd : (l ++ fs).Nodup) (hn : a + data.length < 2 ^ 64)
include hs h hfs hnd hn

/-- One turn of the writing loop: it puts the first `n` bytes into a cluster and goes on with the
others, or passes the cluster by. -/
theorem writeLoop_turn (hcur : l = [] → ctx.IsData current ∧ v.next current ≠ 0)
    (hfree : v.freeList ctx = fs ++ rest) (hne : l ++ fs ≠ []) (hwork : ¬ (data = [] ∧ a = 0))
    (last turns : ℕ) :
    ∃ v1 b fs' last' n, n = min data.length (ctx.clusterSize - a) ∧
      (∀ r w v', writeLoop ctx turns ⟨b, v1.next b, last'⟩ (a - ctx.clusterSize) (data.drop n) v1 =
          .ok ((r, w), v') →
        writeLoop ctx (turns + 1) ⟨current, start, last⟩ a data v = .ok ((r, n + w), v')) ∧
      l ++ fs = b :: (l.tail ++ fs') ∧ fs'.length ≤ fs.length ∧ ctx.IsData b ∧ v1.next b ≠ 0 ∧
      Chain ctx v1.next (v1.next b) l.tail ∧ v1.freeList ctx = fs' ++ rest ∧
      (∀ b ∈ fs', ctx.IsData b) ∧
      ∀ v' m rest', Wrote ctx v1 v' (l.tail.getLast?.getD b) l.tail fs' rest' (a - ctx.clusterSize)
          ((data.drop n).take m) →
        Wrote ctx v v' (l.getLast?.getD current) l fs rest' a (data.take (n + m)) := by
  obtain ⟨v1, b, fs', hfresh, heq, hle, hb, hbn, hchain, hfree1, hfs', hv1, hattach, hhint⟩ :=
    nextOrFresh_eq hs h hcur hfree hfs hne
  have hbytes := Volume.clusterBytes_length (v := v) hb
  by_cases ha : a < ctx.clusterSize
  · have hchunk := chunkSize_eq_min ha hn
    have htake : (data.take (chunkSize ctx a data.length)).length = chunkSize ctx a data.length := by
      rw [length_take]
      omega
    have hfit : a + (data.take (chunkSize ctx a data.length)).length ≤ ctx.clusterSize := by omega
    obtain ⟨v2, hwrite, hv2⟩ := writeChunk_becomes hs hb hfit
    have hfree2 := (freeList_congr (fun x => by rw [hv2.next]) hv2.hint).trans hfree1
    have hmid := hv1.trans hv2
    rw [hv1.data, ← hv2.next, ← hv2.hint] at hmid
    refine ⟨v2, b, fs', chunkSize ctx a data.length, chunkSize ctx a data.length, hchunk, ?_, heq, hle,
      hb, hv2.next ▸ hbn, hv2.next ▸ hchain, hfree2, hfs', ?_⟩
    · intro r w v' hloop
      rw [Nat.sub_eq_zero_of_le ha.le] at hloop
      rw [writeLoop, if_neg hwork, bind_of_ok hfresh]
      simp only
      rw [if_pos ha, bind_of_ok hwrite, bind_of_ok (getNextCluster_eq (hs.lt_fatEntryCount hb)),
        bind_of_ok hloop, pure_eq_ok]
    · intro v' m rest' hwrote
      refine hwrote.cons heq hnd hmid (by rw [hattach, hv2.next]) (by rw [hhint, hv2.hint]) ?_
      rw [Nat.sub_eq_zero_of_le ha.le]
      by_cases hall : a + chunkSize ctx a data.length = ctx.clusterSize
      · rw [take_add]
        exact splice_append (by omega)
      · have hnil : data.drop (chunkSize ctx a data.length) = [] := drop_eq_nil_of_le (by omega)
        rw [hnil, take_nil, splice_nil, take_of_length_le (by omega),
          take_of_length_le (by omega), splice_append_left (by omega)]
  · have hzero : ctx.clusterSize - a = 0 := by omega
    have hmid : Becomes ctx v v1 v1.next (update (v.clusterBytes ctx) b
        (splice (v.clusterBytes ctx b) 0 [])) v1.nextFreeCluster := by
      rw [splice_nil, update_eq_self]
      exact hv1
    refine ⟨v1, b, fs', last, 0, by rw [hzero, Nat.min_zero], ?_, heq, hle, hb, hbn, hchain, hfree1,
      hfs', ?_⟩
    · intro r w v' hloop
      rw [drop_zero] at hloop
      rw [writeLoop, if_neg hwork, bind_of_ok hfresh]
      simp only
      rw [if_neg ha, bind_of_ok (getNextCluster_eq (hs.lt_fatEntryCount hb)), hloop, Nat.zero_add]
    · intro v' m rest' hwrote
      refine hwrote.cons heq hnd hmid hattach hhint ?_
      rw [drop_zero, Nat.zero_add, splice_nil, splice_append_right (by omega), hbytes]

/-- The writing loop with as many clusters as it needs: `k` of them, where fresh ones are only taken
when the chain is too short. -/
theorem writeLoop_eq (current last : ℕ) (hcur : l = [] → ctx.IsData current ∧ v.next current ≠ 0)
    (hfree : v.freeList ctx = fs ++ rest) (hk : k ≤ (l ++ fs).length)
    (hhi : a + data.length ≤ k * ctx.clusterSize)
    (hlo : 0 < k → (k - 1) * ctx.clusterSize < a + data.length)
    (hfull : fs ≠ [] → k = (l ++ fs).length) (ht : k < turns) :
    ∃ v' cur, writeLoop ctx turns ⟨current, start, last⟩ a data v =
        .ok ((some cur, data.length), v') ∧
      Wrote ctx v v' (l.getLast?.getD current) l fs rest a data ∧
      Chain ctx v'.next cur.next (l.drop k) ∧
      (current :: (l ++ fs))[k]? = some cur.current := by
  induction k generalizing v l fs turns a current start last data with
  | zero =>
    obtain ⟨turns, rfl⟩ : ∃ t, turns = t + 1 := ⟨turns - 1, by omega⟩
    obtain ⟨rfl, hlen⟩ : a = 0 ∧ data.length = 0 := by omega
    obtain rfl := length_eq_zero_iff.mp hlen
    obtain rfl : fs = [] := by
      by_contra hne
      have hzero := hfull hne
      have hpos := length_pos_iff.mpr hne
      rw [length_append] at hzero
      omega
    rw [writeLoop, if_pos ⟨rfl, rfl⟩]
    exact ⟨v, _, rfl, ⟨rfl, by rw [splice_nil], fun _ _ => rfl, hfree, rfl, rfl, id⟩, h, rfl⟩
  | succ k ih =>
    obtain ⟨turns, rfl⟩ : ∃ t, turns = t + 1 := ⟨turns - 1, by omega⟩
    have hwork : ¬ (data = [] ∧ a = 0) := by
      rintro ⟨rfl, rfl⟩
      have := hlo (Nat.succ_pos k)
      simp at this
    have hne : l ++ fs ≠ [] := length_pos_iff.mp (by omega)
    obtain ⟨v1, b, fs', last', n, hchunk, hturn, heq, hle, hb, hbn, hchain, hfree1, hfs', hwrote⟩ :=
      writeLoop_turn hs h hfs hnd hn hcur hfree hne hwork last turns
    have hlen := congrArg List.length heq
    rw [length_cons] at hlen
    have hfull' : fs' ≠ [] → k = (l.tail ++ fs').length := by
      intro hne
      have hpos := length_pos_iff.mpr hne
      have hk' := hfull (length_pos_iff.mp (by omega))
      omega
    have hdrop : (data.drop n).length = data.length - n := length_drop
    have hlo := hlo (Nat.succ_pos k)
    rw [Nat.succ_sub_one] at hlo
    rw [Nat.succ_mul] at hhi
    have hhi' : a - ctx.clusterSize + (data.drop n).length ≤ k * ctx.clusterSize := by omega
    have hlo' : 0 < k → (k - 1) * ctx.clusterSize < a - ctx.clusterSize + (data.drop n).length := by
      intro hpos
      obtain ⟨j, rfl⟩ : ∃ j, k = j + 1 := ⟨k - 1, by omega⟩
      rw [Nat.succ_mul] at hlo
      rw [Nat.add_sub_cancel]
      omega
    obtain ⟨v', cur, hloop, hrest, hchain', hat⟩ := ih hchain hfs'
      (nodup_cons.mp (heq ▸ hnd)).2 (by omega) b last' (fun _ => ⟨hb, hbn⟩) hfree1 (by omega) hhi' hlo'
      hfull' (Nat.lt_of_succ_lt_succ ht)
    refine ⟨v', cur, ?_, ?_, ?_, ?_⟩
    · rw [hturn _ _ _ hloop, hdrop]
      congr 3
      omega
    · have hall := hwrote v' (data.drop n).length rest (by rwa [take_length])
      rwa [take_of_length_le (by omega)] at hall
    · rwa [drop_tail] at hchain'
    · rw [getElem?_cons_succ, heq]
      exact hat

theorem writeLoop_full (current last : ℕ) (hcur : l = [] → ctx.IsData current ∧ v.next current ≠ 0)
    (hfree : v.freeList ctx = fs) (hlo : (l ++ fs).length * ctx.clusterSize < a + data.length)
    (ht : (l ++ fs).length < turns) :
    ∃ v' written, writeLoop ctx turns ⟨current, start, last⟩ a data v = .ok ((none, written), v') ∧
      Wrote ctx v v' (l.getLast?.getD current) l fs [] a
        (data.take ((l ++ fs).length * ctx.clusterSize - a)) := by
  induction turns generalizing v l fs a current start last data with
  | zero => omega
  | succ turns ih =>
    have hwork : ¬ (data = [] ∧ a = 0) := by
      rintro ⟨rfl, rfl⟩
      simp at hlo
    by_cases hnil : l ++ fs = []
    · obtain ⟨rfl, rfl⟩ := append_eq_nil_iff.mp hnil
      have hend : IsEnd start := by
        obtain ⟨⟨d, hw, hd⟩, _⟩ := h
        obtain rfl : start = d := hw
        exact isEnd_of_le hd
      have hnone : nextOrFresh ctx current start v = .ok (none, v) := by
        rw [nextOrFresh, if_pos hend, bind_of_ok (Volume.allocateCluster_none hs hfree)]
        rfl
      rw [writeLoop, if_neg hwork, bind_of_ok hnone]
      refine ⟨v, 0, rfl, ⟨rfl, ?_, fun _ _ => rfl, hfree, rfl, rfl, id⟩⟩
      simp [splice_nil]
    · have hfree' : v.freeList ctx = fs ++ [] := by rw [hfree, append_nil]
      obtain ⟨v1, b, fs', last', n, hchunk, hturn, heq, hle, hb, hbn, hchain, hfree1, hfs', hwrote⟩ :=
        writeLoop_turn hs h hfs hnd hn hcur hfree' hnil hwork last turns
      rw [append_nil] at hfree1
      have hlen := congrArg List.length heq
      rw [length_cons] at hlen
      have hdrop : (data.drop n).length = data.length - n := length_drop
      rw [hlen, Nat.succ_mul] at hlo ⊢
      have hlo' : (l.tail ++ fs').length * ctx.clusterSize <
          a - ctx.clusterSize + (data.drop n).length := by omega
      obtain ⟨v', written, hloop, hrest⟩ := ih hchain hfs'
        (nodup_cons.mp (heq ▸ hnd)).2 (by omega) b last' (fun _ => ⟨hb, hbn⟩) hfree1 hlo' (by omega)
      refine ⟨v', n + written, hturn _ _ _ hloop, ?_⟩
      have hall := hwrote v' _ [] hrest
      have hsize : n + ((l.tail ++ fs').length * ctx.clusterSize - (a - ctx.clusterSize)) =
          (l.tail ++ fs').length * ctx.clusterSize + ctx.clusterSize - a := by omega
      rwa [hsize] at hall

end

theorem Chain.cut {z : ℕ} {next' : ℕ → ℕ} (h : Chain ctx next c (l ++ z :: m))
    (hn : ∀ a ∈ l, next' a = next a) (hz : next' z = 0xFFFFFFF) : Chain ctx next' c (l ++ [z]) := by
  obtain ⟨⟨d, hw, _⟩, hdata⟩ := h
  rw [append_cons] at hw
  obtain ⟨e, hw, _⟩ := walk_append.mp hw
  refine ⟨⟨next' z, hw.redirect hn, by rw [hz]; decide⟩, fun a ha => hdata a ?_⟩
  simp only [mem_append, mem_cons, not_mem_nil, or_false] at ha ⊢
  tauto

theorem endChain_eq (hs : ctx.Sound) {cur : Cursor}
    (h : Chain ctx v.next c (l ++ cur.current :: m)) (hnext : Chain ctx v.next cur.next m) :
    ∃ v', endChain ctx cur v = .ok ((), v') ∧ Chain ctx v'.next c (l ++ [cur.current]) ∧
      v'.clusterBytes ctx = v.clusterBytes ctx ∧ v'.buffer = v.buffer := by
  have hz := h.2 cur.current (by simp)
  have hzn := h.next_ne_zero cur.current (by simp)
  have hnd := nodup_append.mp h.nodup
  obtain ⟨hzm, _⟩ := nodup_cons.mp hnd.2.1
  cases m with
  | nil =>
    have hend : IsEnd cur.next := by
      obtain ⟨⟨d, hw, hd⟩, _⟩ := hnext
      obtain rfl : cur.next = d := hw
      exact isEnd_of_le hd
    exact ⟨v, by rw [endChain, if_pos hend]; rfl, h, rfl, rfl⟩
  | cons b m =>
    have hend : ¬ IsEnd cur.next := by
      obtain rfl : cur.next = b := hnext.1.choose_spec.1.1
      exact hs.not_isEnd (hnext.2 cur.next (by simp))
    obtain ⟨v1, h1, hv1⟩ := freeAllFollowingClusters_eq hs hnext
    have hzn1 : v1.next cur.current ≠ 0 := by
      rw [hv1.next, release, if_neg hzm]
      exact hzn
    obtain ⟨v2, h2, hv2⟩ := setNextCluster_becomes (n := endOfClusterchain) hs hz hzn1 (by decide)
    refine ⟨v2, ?_, ?_, ?_, ?_⟩
    · rw [endChain, if_neg hend, bind_of_ok h1, h2]
    · refine h.cut (fun a ha => ?_) ?_
      · have hza := hnd.2.2 a ha cur.current (by simp)
        have ham : a ∉ b :: m := fun hmem => hnd.2.2 a ha a (mem_cons_of_mem _ hmem) rfl
        rw [hv2.next, update_of_ne hza, hv1.next, release, if_neg ham]
      · rw [hv2.next, update_self]
        rfl
    · rw [hv2.data, hv1.data]
    · rw [hv2.buffer, hv1.buffer]

theorem getLast?_getD (hl : l ≠ []) {p : ℕ} : l.getLast?.getD p = l.getLast hl := by
  rw [getLast?_eq_some_getLast hl]
  rfl

theorem writeClusterChain_eq (hs : ctx.Sound) (h : Chain ctx v.next c l) (hl : l ≠ []) (hfree : v.freeList ctx = fs ++ rest)
    (hfs : ∀ b ∈ fs, ctx.IsData b) (hk : k + 1 ≤ (l ++ fs).length)
    (hhi : a + data.length ≤ (k + 1) * ctx.clusterSize) (hlo : k * ctx.clusterSize < a + data.length)
    (hfull : fs ≠ [] → k + 1 = (l ++ fs).length) (ha : a < 2 ^ 32) (hn : a + data.length < 2 ^ 64) :
    ∃ v', fatWriteClusterChain ctx c a data true false v = .ok ((none, data.length), v') ∧
      Chain ctx v'.next c ((l ++ fs).take (k + 1)) ∧
      v'.content ctx ((l ++ fs).take (k + 1)) =
        splice (v.content ctx ((l ++ fs).take (k + 1))) a data ∧ v'.buffer = v.buffer := by
  have hnd := h.nodup_append_free hfree
  have hattach := h.attach hs hl hnd hfs
  have hlen := hattach.length_lt hs
  obtain ⟨v1, cur, hloop, hwrote, hrest, hat⟩ := writeLoop_eq hs h hfs hnd hn c 0
    (fun hnil => absurd hnil hl) hfree hk hhi (fun _ => hlo) hfull (Nat.lt_of_le_of_lt hk hlen)
  rw [getElem?_cons_succ] at hat
  obtain ⟨hkl, hcur⟩ := List.getElem?_eq_some_iff.mp hat
  have hsplit : l ++ fs = (l ++ fs).take k ++ cur.current :: (l ++ fs).drop (k + 1) := by
    rw [← hcur, getElem_cons_drop, take_append_drop]
  have htake : (l ++ fs).take k ++ [cur.current] = (l ++ fs).take (k + 1) := by
    rw [← hcur, take_append_getElem]
  have hrest' : Chain ctx v1.next cur.next ((l ++ fs).drop (k + 1)) := by
    by_cases hnil : fs = []
    · rwa [hnil, append_nil]
    · have hk' := hfull hnil
      rw [length_append] at hk'
      rw [drop_eq_nil_of_le (by omega)] at hrest
      rwa [drop_eq_nil_of_le (by rw [length_append]; omega)]
  rw [getLast?_getD hl] at hwrote
  rw [← hwrote.next, hsplit] at hattach
  obtain ⟨v2, hend, hchain, hbytes, hbuffer⟩ := endChain_eq hs hattach hrest'
  rw [htake] at hchain
  refine ⟨v2, ?_, hchain, ?_, hbuffer.trans hwrote.buffer⟩
  · rw [fatWriteClusterChain, Nat.mod_eq_of_lt ha, bind_of_ok hloop]
    exact (bind_of_ok pure_eq_ok).trans (bind_of_ok hend)
  · have hdata := hchain.2
    have hsize := content_length (v := v) hdata
    rw [length_take, Nat.min_eq_left hk] at hsize
    have hall := hwrote.content
    rw [← take_append_drop (k + 1) (l ++ fs), content_append, content_append,
      splice_append_left (by omega)] at hall
    have hlength := content_length (v := v1) hdata
    rw [length_take, Nat.min_eq_left hk] at hlength
    rw [content_congr fun b _ => congrFun hbytes b]
    exact (append_inj hall (by rw [splice_length (by omega), hlength, hsize])).1

theorem writeClusterChain_full (hs : ctx.Sound) (h : Chain ctx v.next c l) (hl : l ≠ []) (hfree : v.freeList ctx = fs)
    (hfs : ∀ b ∈ fs, ctx.IsData b) (hlo : (l ++ fs).length * ctx.clusterSize < a + data.length)
    (ha : a < 2 ^ 32) (hn : a + data.length < 2 ^ 64) {eoc fwz : Bool} :
    ∃ v' written, fatWriteClusterChain ctx c a data eoc fwz v = .ok ((some .eio, written), v') ∧
      Chain ctx v'.next c (l ++ fs) ∧
      v'.content ctx (l ++ fs) = splice (v.content ctx (l ++ fs)) a
        (data.take ((l ++ fs).length * ctx.clusterSize - a)) ∧ v'.buffer = v.buffer := by
  have hfree' : v.freeList ctx = fs ++ [] := by rw [hfree, append_nil]
  have hnd := h.nodup_append_free hfree'
  have hattach := h.attach hs hl hnd hfs
  obtain ⟨v1, written, hloop, hwrote⟩ := writeLoop_full hs h hfs hnd hn c 0
    (fun hnil => absurd hnil hl) hfree hlo (hattach.length_lt hs)
  refine ⟨v1, written, ?_, ?_, hwrote.content, hwrote.buffer⟩
  · rw [fatWriteClusterChain, Nat.mod_eq_of_lt ha, bind_of_ok hloop]
    rfl
  · rw [hwrote.next, getLast?_getD hl]
    exact hattach

end Kot.Fat
