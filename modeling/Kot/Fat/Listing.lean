import Kot.Fat.Scan
import Mathlib.Algebra.BigOperators.Intervals

/-! Listings of a directory in several calls: a call stops right behind a short entry, where nothing
but the position has to be kept. -/
namespace Kot.Fat

open Kot.Kernel Kot.Lib List

variable {ctx : Context} {v : Volume} {cs : List ℕ} {dir : Entry}

/-- `sizeof(dirent_t)`: two fields of 8 bytes, one of 2, one of 1 and the name, rounded up to a
multiple of 8. -/
def sizeofDirent : ℕ := 1048

/-- `uint32_t max_entry_count = max_size / sizeof(dirent_t)`. -/
def maxEntryCount (maxSize : ℕ) : ℕ := maxSize / sizeofDirent % 2 ^ 32

def Item.dirent (rootCluster : ℕ) (x : Item) : Dirent :=
  ⟨if x.entry.cluster = 0 then rootCluster else x.entry.cluster, x.index, x.entry.isDirectory, x.name⟩

section

variable {rs : List Entry} {rootCluster count : ℕ}

/-- The scan of one call from a position on: the entries listed, then a stop where the remaining ones
begin. -/
def Lists (rs : List Entry) (rootCluster count : ℕ) (xs : List Item) (acc : List Dirent)
    (r : Except Fault (List Dirent × Scan × Unit)) : Prop :=
  ∃ s' : Scan, r = .ok (acc ++ (xs.take (count - acc.length)).map (Item.dirent rootCluster), s', ()) ∧
    s'.index ≤ rs.length ∧ Complete 78 (rs.drop s'.index) ∧
    items rs s'.index = xs.drop (count - acc.length)

def listScan (rs : List Entry) (rootCluster count turns : ℕ) (s : Scan) (acc : List Dirent) :
    Except Fault (List Dirent × Scan × Unit) :=
  scanLoop (listReader rs) 1024 (fun l => l.length < count)
    (fun l x => (l ++ [x.dirent rootCluster], false)) turns s () acc

theorem lists_full {s : Scan} {acc : List Dirent} (hacc : acc.length = count)
    (hp : s.pending = none) (hc : Complete 78 (rs.drop s.index)) (hi : s.index ≤ rs.length)
    {turns : ℕ} (ht : 0 < turns) :
    Lists rs rootCluster count (itemsFrom 0 s.pending s.index (rs.drop s.index)) acc
      (listScan rs rootCluster count turns s acc) := by
  obtain ⟨turns, rfl⟩ : ∃ t, turns = t + 1 := ⟨turns - 1, by omega⟩
  have hcount : count - acc.length = 0 := by omega
  refine ⟨s, ?_, hi, hc, ?_⟩
  · rw [hcount, take_zero, map_nil, append_nil]
    exact scanLoop_enough (by simp [hacc]) s turns
  · rw [hcount, drop_zero, items, hp]

theorem lists_of_complete (hlen : rs.length < 2 ^ 32) {xs : List Item} {s : Scan}
    {acc : List Dirent} (hacc : acc.length ≤ count) (hfull : acc.length = count → s.pending = none)
    (hc : Complete 78 (rs.drop s.index)) (hi : s.index ≤ rs.length)
    (hxs : itemsFrom 0 s.pending s.index (rs.drop s.index) = xs) {turns : ℕ}
    (ht : rs.length - s.index < turns) :
    Lists rs rootCluster count xs acc (listScan rs rootCluster count turns s acc) := by
  induction xs generalizing s acc turns with
  | nil =>
    obtain heq | hlt := hacc.eq_or_lt
    · rw [← hxs]
      exact lists_full heq (hfull heq) hc hi (by omega)
    obtain ⟨_, s', hst', hscan⟩ | ⟨x, _, _, _, _, hcons, _⟩ :=
      scanLoop_next (fun l => decide (l.length < count))
        (fun l x => (l ++ [x.dirent rootCluster], false)) hlen (by decide : 13 * 78 < 1024)
        (decide_eq_true hlt) hc rfl hi (by rwa [length_drop])
    · refine ⟨s', ?_, hst'.le, ?_, ?_⟩
      · rw [take_nil, map_nil, append_nil]
        exact hscan
      · rw [hst', drop_length]
        exact .nil
      · rw [items, hst', drop_length, drop_nil]
        rfl
    · rw [hxs] at hcons
      cases hcons
  | cons y xs ih =>
    obtain heq | hlt := hacc.eq_or_lt
    · rw [← hxs]
      exact lists_full heq (hfull heq) hc hi (by omega)
    obtain ⟨hnil, _⟩ | ⟨x, name, lfnFirst, turns', hx, hcons, hc', ht', hscan⟩ :=
      scanLoop_next (fun l => decide (l.length < count))
        (fun l x => (l ++ [x.dirent rootCluster], false)) hlen (by decide : 13 * 78 < 1024)
        (decide_eq_true hlt) hc rfl hi (by rwa [length_drop])
    · rw [hxs] at hnil
      cases hnil
    · rw [hxs] at hcons
      obtain ⟨rfl, rfl⟩ := List.cons.inj hcons
      have hacc' : (acc ++ [y.dirent rootCluster]).length = acc.length + 1 := by simp
      have hcount : count - acc.length = count - (acc.length + 1) + 1 := by omega
      obtain ⟨s', hrest, hi', hc'', hitems⟩ := ih
        (s := ⟨y.index + 1, false, name, lfnFirst⟩) (hacc'.trans_le hlt) (fun _ => rfl) hc' hx rfl ht'
      rw [hacc'] at hrest hitems
      refine ⟨s', ?_, hi', hc'', ?_⟩
      · rw [hcount, take_succ_cons, map_cons, ← singleton_append, ← append_assoc,
          ← hrest]
        exact hscan
      · rw [hcount, drop_succ_cons, hitems]

end

def Volume.withBuffer (v : Volume) (buffer : List UInt8) : Volume := { v with buffer }

section
variable (hs : ctx.Sound) (hc : Chain ctx v.next (fatGetClusterEntry ctx dir) cs) (hne : cs ≠ [])
include hs hc hne

theorem fatListDir_eq (env : Env) (count : ℕ) {position : ℕ} (hp : position < 2 ^ 32) :
    ∃ buffer, fatListDir ctx env dir count position v =
      (listScan (records ctx v cs) ctx.bpb.rootClusterNumber.toNat count loopBound (.start position)
        []).map fun r => ((r.1, r.2.1.index), v.withBuffer buffer) := by
  have hreads := reads_cache (v := v.withBuffer (freshBlock env.stale ctx.clusterSize)) hs hc hne
  obtain ⟨f, hlist, hread⟩ | ⟨l, s, k, hlist, hread⟩ := scanLoop_reads hreads 1024
    (fun l : List Dirent => decide (l.length < count))
    (fun l x => (l ++ [x.dirent ctx.bpb.rootClusterNumber.toNat], false)) loopBound
    (s := .start position) hp
    (cacheFine_empty ctx _ cs (freshBlock env.stale ctx.clusterSize)) []
  · refine ⟨[], ?_⟩
    refine .trans ?_ (congrArg (Except.map _) hlist.symm)
    rw [fatListDir]
    refine (Program.bind_of_ok (Program.modify_eq_ok _)).trans (Program.bind_of_error ?_)
    exact congrArg (· >>= _) (congrArg (· >>= _) hread)
  · refine ⟨k.buffer, ?_⟩
    refine .trans ?_ (congrArg (Except.map _) hlist.symm)
    rw [fatListDir]
    refine (Program.bind_of_ok (Program.modify_eq_ok _)).trans
      ((Program.bind_of_ok (a := ((l, s), k)) ?_).trans rfl)
    exact congrArg (· >>= _) (congrArg (· >>= _) hread)

theorem fatListDir_page (hlen : (records ctx v cs).length < 2 ^ 32) (env : Env) (count position : ℕ)
    (hp : position ≤ (records ctx v cs).length)
    (hcomplete : Complete 78 ((records ctx v cs).drop position)) :
    ∃ position' buffer, fatListDir ctx env dir count position v =
        .ok ((((items (records ctx v cs) position).take count).map
          (Item.dirent ctx.bpb.rootClusterNumber.toNat), position'), v.withBuffer buffer) ∧
      position' ≤ (records ctx v cs).length ∧
      Complete 78 ((records ctx v cs).drop position') ∧
      items (records ctx v cs) position' = (items (records ctx v cs) position).drop count := by
  obtain ⟨buffer, heq⟩ := fatListDir_eq hs hc hne env count (hp.trans_lt hlen)
  have hturns : (records ctx v cs).length - position < loopBound := by
    unfold loopBound
    omega
  have hroom : ([] : List Dirent).length ≤ count := Nat.zero_le _
  obtain ⟨s, hscan, hi, hc', hitems⟩ := lists_of_complete
    hlen (s := .start position) hroom (fun _ => rfl) hcomplete hp rfl hturns
  refine ⟨s.index, buffer, ?_, hi, hc', ?_⟩
  · rw [heq, hscan]
    rfl
  · exact hitems

theorem fatListDir_endless (hlen : 2 ^ 32 ≤ (records ctx v cs).length) {env : Env} {count position : ℕ}
    (hp : position < 2 ^ 32) {page : List Dirent} {position' : ℕ} {v' : Volume}
    (h : fatListDir ctx env dir count position v = .ok ((page, position'), v')) :
    count ≤ page.length ∧ position' < 2 ^ 32 ∧ ∃ buffer, v' = v.withBuffer buffer := by
  obtain ⟨buffer, heq⟩ := fatListDir_eq hs hc hne env count hp
  rw [heq] at h
  cases hscan : listScan (records ctx v cs) ctx.bpb.rootClusterNumber.toNat count loopBound
      (.start position) [] with
  | error f =>
    rw [hscan] at h
    cases h
  | ok r =>
    rw [hscan] at h
    obtain ⟨l, s, u⟩ := r
    cases h
    obtain ⟨henough, hindex⟩ := scanLoop_endless
      (fun l : List Dirent => decide (l.length < count)) _ hlen (fun _ _ => rfl)
      hp hscan
    exact ⟨Nat.not_lt.mp (of_decide_eq_false henough), hindex, buffer, rfl⟩

end

/-- The entries of the calls with buffers of the given sizes, up to the first call that returns none. -/
inductive Concatenates (ctx : Context) (dir : Entry) : (ℕ → Env) → (ℕ → ℕ) → Volume → ℕ →
    List Dirent → Prop
  | done {envs : ℕ → Env} {sizes : ℕ → ℕ} {v v' : Volume} {position position' : ℕ} :
      fatListDir ctx (envs 0) dir (maxEntryCount (sizes 0)) position v = .ok (([], position'), v') →
      Concatenates ctx dir envs sizes v position []
  | more {envs : ℕ → Env} {sizes : ℕ → ℕ} {v v' : Volume} {position position' : ℕ}
      {page rest : List Dirent} :
      fatListDir ctx (envs 0) dir (maxEntryCount (sizes 0)) position v =
        .ok ((page, position'), v') → page ≠ [] →
      Concatenates ctx dir (fun i => envs (i + 1)) (fun i => sizes (i + 1)) v' position' rest →
      Concatenates ctx dir envs sizes v position (page ++ rest)

/-- As long as entries remain, a call has room for one of them. -/
def Rooms (sizes : ℕ → ℕ) (remaining : ℕ) : Prop :=
  ∀ j, ∑ i ∈ Finset.range j, maxEntryCount (sizes i) < remaining → maxEntryCount (sizes j) ≠ 0

theorem rooms_iff {sizes : ℕ → ℕ} {remaining : ℕ} (h : remaining ≠ 0) :
    Rooms sizes remaining ↔ maxEntryCount (sizes 0) ≠ 0 ∧
      Rooms (fun i => sizes (i + 1)) (remaining - maxEntryCount (sizes 0)) := by
  constructor
  · intro hr
    refine ⟨hr 0 ?_, fun j hj => hr (j + 1) ?_⟩
    · rw [Finset.sum_range_zero]
      omega
    · rw [Finset.sum_range_succ']
      exact Nat.add_lt_of_lt_sub hj
  · rintro ⟨h0, hr⟩ j hj
    cases j with
    | zero => exact h0
    | succ j =>
      rw [Finset.sum_range_succ'] at hj
      exact hr j (Nat.lt_sub_of_add_lt hj)

theorem Concatenates.of_rooms (hs : ctx.Sound) (hne : cs ≠ []) {rs : List Entry}
    (hlen : rs.length < 2 ^ 32) {xs : List Item} {v : Volume}
    (hc : Chain ctx v.next (fatGetClusterEntry ctx dir) cs) (hrs : records ctx v cs = rs)
    {envs : ℕ → Env} {sizes : ℕ → ℕ} {position : ℕ} (hp : position ≤ rs.length)
    (hcomplete : Complete 78 (rs.drop position)) (hxs : items rs position = xs)
    (hr : Rooms sizes xs.length) :
    Concatenates ctx dir envs sizes v position
      (xs.map (Item.dirent ctx.bpb.rootClusterNumber.toNat)) := by
  induction hn : xs.length using Nat.strong_induction_on generalizing xs v envs sizes position with
  | _ n ih =>
    obtain ⟨position', buffer, hcall, hp', hcomplete', hitems⟩ := fatListDir_page hs hc hne
      (hrs ▸ hlen) (envs 0) (maxEntryCount (sizes 0)) position (hrs ▸ hp) (hrs ▸ hcomplete)
    rw [hrs] at hcall hp' hcomplete' hitems
    rw [hxs] at hcall hitems
    by_cases hnil : xs = []
    · subst hnil
      rw [take_nil] at hcall
      exact .done hcall
    · obtain ⟨hroom, hrooms⟩ := (rooms_iff (mt length_eq_zero_iff.mp hnil)).mp hr
      have hpos := length_pos_iff.mpr hnil
      have hrest : (xs.drop (maxEntryCount (sizes 0))).length =
          xs.length - maxEntryCount (sizes 0) := length_drop
      have hpage : (xs.take (maxEntryCount (sizes 0))).map
          (Item.dirent ctx.bpb.rootClusterNumber.toNat) ≠ [] := by
        simp [take_eq_nil_iff, hroom, hnil]
      have hmore := Concatenates.more hcall hpage <| ih _ (by omega) (v := v.withBuffer buffer) hc hrs
        hp' hcomplete' hitems (hrest ▸ hrooms) rfl
      rwa [← map_append, take_append_drop] at hmore

theorem Concatenates.rooms (hs : ctx.Sound) (hne : cs ≠ []) {rs : List Entry}
    (hlen : rs.length < 2 ^ 32) {envs : ℕ → Env} {sizes : ℕ → ℕ} {v : Volume} {position : ℕ}
    {l : List Dirent} (h : Concatenates ctx dir envs sizes v position l)
    (hc : Chain ctx v.next (fatGetClusterEntry ctx dir) cs) (hrs : records ctx v cs = rs)
    (hp : position ≤ rs.length) (hcomplete : Complete 78 (rs.drop position))
    (hl : l.length = (items rs position).length) : Rooms sizes (items rs position).length := by
  induction h with
  | done hcall =>
    rw [← hl]
    intro j hj
    exact absurd hj (Nat.not_lt_zero _)
  | @more envs sizes v v' position position' page rest hcall hpage _ ih =>
    obtain ⟨position1, buffer, hcall1, hp1, hcomplete1, hitems⟩ := fatListDir_page hs hc hne
      (hrs ▸ hlen) (envs 0) (maxEntryCount (sizes 0)) position (hrs ▸ hp) (hrs ▸ hcomplete)
    rw [hrs] at hcall1 hp1 hcomplete1 hitems
    rw [hcall1] at hcall
    obtain ⟨⟨rfl, rfl⟩, rfl⟩ : (_ ∧ _) ∧ _ := by simpa using hcall
    have hcount : maxEntryCount (sizes 0) ≠ 0 := by
      rintro h0
      rw [h0] at hpage
      exact hpage rfl
    have hlen' := congrArg List.length hitems
    rw [length_drop] at hlen'
    rw [length_append, length_take, length_map] at hl
    have hpos : (items rs position).length ≠ 0 := by
      intro h0
      rw [length_eq_zero_iff.mp h0] at hpage
      exact hpage (by simp)
    refine (rooms_iff hpos).mpr ⟨hcount, ?_⟩
    rw [← hlen']
    exact ih hc hrs hp1 hcomplete1 (by omega)

/-- A call that returns the given entries and leaves none for any later call. -/
def ListsAll (ctx : Context) (dir : Entry) (v : Volume) (maxSize : ℕ) (env : Env) (l : List Dirent) :
    Prop :=
  ∃ position v', fatListDir ctx env dir (maxEntryCount maxSize) 0 v = .ok ((l, position), v') ∧
    ∀ env' size, ∃ position'' v'', fatListDir ctx env' dir (maxEntryCount size) position v' =
      .ok (([], position''), v'')

section
variable (hs : ctx.Sound) (hc : Chain ctx v.next (fatGetClusterEntry ctx dir) cs) (hne : cs ≠ [])
include hs hc hne

theorem not_listsAll_endless (hlen : 2 ^ 32 ≤ (records ctx v cs).length) (maxSize : ℕ) (env : Env)
    (l : List Dirent) : ¬ ListsAll ctx dir v maxSize env l := by
  rintro ⟨position, v', hcall, hnone⟩
  obtain ⟨_, hp, buffer, rfl⟩ := fatListDir_endless hs hc hne hlen (by decide) hcall
  obtain ⟨_, _, hr⟩ := hnone env sizeofDirent
  have hroom : maxEntryCount sizeofDirent = 1 := by decide
  obtain ⟨hle, _⟩ := fatListDir_endless hs hc hne hlen hp hr
  rw [hroom] at hle
  exact absurd hle (by decide)

theorem complete_of_fatListDir
    (hlen : (records ctx v cs).length < 2 ^ 32) {env : Env} {count position position' : ℕ}
    (hp : position ≤ (records ctx v cs).length) {page : List Dirent} {v' : Volume}
    (h : fatListDir ctx env dir count position v = .ok ((page, position'), v')) :
    (∃ buffer, v' = v.withBuffer buffer) ∧
      (page.length < count ∨ Complete 78 ((records ctx v cs).drop position') →
        Complete 78 ((records ctx v cs).drop position)) := by
  obtain ⟨buffer, heq⟩ := fatListDir_eq hs hc hne env count (hp.trans_lt hlen)
  rw [heq] at h
  cases hscan : listScan (records ctx v cs) ctx.bpb.rootClusterNumber.toNat count loopBound
      (.start position) [] with
  | error f =>
    rw [hscan] at h
    cases h
  | ok r =>
    rw [hscan] at h
    obtain ⟨l, s, u⟩ := r
    cases h
    refine ⟨⟨buffer, rfl⟩, fun hend => ?_⟩
    exact complete_of_scanLoop hlen (by decide) (fun _ _ => rfl) hp hscan
      (hend.imp_left decide_eq_true)

theorem ListsAll.complete (hlen : (records ctx v cs).length < 2 ^ 32) {maxSize : ℕ} {env : Env}
    {l : List Dirent} (h : ListsAll ctx dir v maxSize env l) : Complete 78 (records ctx v cs) := by
  obtain ⟨position, v', hcall, hnone⟩ := h
  obtain ⟨⟨buffer, rfl⟩, hfirst⟩ := complete_of_fatListDir hs hc hne hlen (Nat.zero_le _) hcall
  refine hfirst (.inr ?_)
  by_cases hp : position ≤ (records ctx v cs).length
  · obtain ⟨_, _, hcall'⟩ := hnone env sizeofDirent
    exact (complete_of_fatListDir hs hc hne hlen hp hcall').2
      (.inl (by decide))
  · rw [drop_eq_nil_of_le (Nat.le_of_not_le hp)]
    exact .nil

theorem listsAll_iff (hlen : (records ctx v cs).length < 2 ^ 32)
    (hcomplete : Complete 78 (records ctx v cs)) (maxSize : ℕ) (env : Env) (l : List Dirent) :
    ListsAll ctx dir v maxSize env l ↔ (items (records ctx v cs) 0).length ≤ maxEntryCount maxSize ∧
        l = (items (records ctx v cs) 0).map (Item.dirent ctx.bpb.rootClusterNumber.toNat) := by
  obtain ⟨position, buffer, hcall, hp, hc', hitems⟩ := fatListDir_page hs hc hne hlen env
    (maxEntryCount maxSize) 0 (Nat.zero_le _) hcomplete
  constructor
  · rintro ⟨position1, v1, hcall1, hnone⟩
    rw [hcall] at hcall1
    obtain ⟨⟨rfl, rfl⟩, rfl⟩ : (_ ∧ _) ∧ _ := by simpa using hcall1
    obtain ⟨_, _, hr⟩ := hnone env sizeofDirent
    obtain ⟨position2, buffer2, hcall2, _⟩ := fatListDir_page (v := v.withBuffer buffer)
      hs hc hne hlen env (maxEntryCount sizeofDirent) position hp hc'
    have hitems' : items (records ctx (v.withBuffer buffer) cs) position = _ := hitems
    have hroom : maxEntryCount sizeofDirent = 1 := by decide
    rw [hr, hitems', hroom] at hcall2
    have hempty := (Prod.mk.inj (Prod.mk.inj (Except.ok.inj hcall2)).1).1
    have hle : (items (records ctx v cs) 0).length ≤ maxEntryCount maxSize := by
      simpa [take_eq_nil_iff] using hempty
    exact ⟨hle, take_of_length_le (by rwa [length_map])⟩
  · rintro ⟨hle, rfl⟩
    refine ⟨position, v.withBuffer buffer, ?_, ?_⟩
    · rw [hcall, take_of_length_le hle]
    · intro env' size
      obtain ⟨position2, buffer2, hcall2, _⟩ := fatListDir_page (v := v.withBuffer buffer)
        hs hc hne hlen env' (maxEntryCount size) position hp hc'
      have hitems' : items (records ctx (v.withBuffer buffer) cs) position = _ := hitems
      rw [hitems', drop_of_length_le hle, take_nil] at hcall2
      exact ⟨position2, _, hcall2⟩

theorem listsAll_exists_iff (env : Env) (l : List Dirent) :
    (∃ maxSize, ListsAll ctx dir v maxSize env l) ↔
      (records ctx v cs).length < 2 ^ 32 ∧ Complete 78 (records ctx v cs) ∧
        l = (items (records ctx v cs) 0).map (Item.dirent ctx.bpb.rootClusterNumber.toNat) := by
  constructor
  · rintro ⟨maxSize, hall⟩
    have hlen : (records ctx v cs).length < 2 ^ 32 := by
      by_contra hlen
      exact not_listsAll_endless hs hc hne (Nat.le_of_not_lt hlen) maxSize env l hall
    have hcomplete := hall.complete hs hc hne hlen
    exact ⟨hlen, hcomplete, ((listsAll_iff hs hc hne hlen hcomplete maxSize env l).mp hall).2⟩
  · rintro ⟨hlen, hcomplete, rfl⟩
    have hcount : maxEntryCount (sizeofDirent * (2 ^ 32 - 1)) = 2 ^ 32 - 1 := by decide
    have hle : (items (records ctx v cs) 0).length ≤ (records ctx v cs).length :=
      itemsFrom_length_le ..
    exact ⟨sizeofDirent * (2 ^ 32 - 1),
      (listsAll_iff hs hc hne hlen hcomplete _ env _).mpr ⟨by omega, rfl⟩⟩

end

/-- The pages of a listing, put together up to the first empty one, are what a single call with a
large enough buffer returns: exactly when the directory has less than 2^32 records and, as long as
entries remain, no buffer has a multiple of 2^32 places. -/
theorem pagedListing_iff (ctx : Context) (hs : ctx.Sound) (v : Volume) (dir : Entry) (cs : List ℕ)
    (hc : Chain ctx v.next (fatGetClusterEntry ctx dir) cs) (hne : cs ≠ [])
    (hcomplete : Complete 20 (records ctx v cs)) (env : Env) (envs : ℕ → Env) (sizes : ℕ → ℕ) :
    (∃ maxSize l, ListsAll ctx dir v maxSize env l ∧ Concatenates ctx dir envs sizes v 0 l) ↔
      (records ctx v cs).length < 2 ^ 32 ∧ Rooms sizes (items (records ctx v cs) 0).length := by
  have hcomplete' := hcomplete.mono (by decide : 20 ≤ 78)
  constructor
  · rintro ⟨maxSize, l, hall, hpages⟩
    obtain ⟨hlen, _, rfl⟩ := (listsAll_exists_iff hs hc hne env l).mp ⟨maxSize, hall⟩
    exact ⟨hlen, hpages.rooms hs hne hlen hc rfl (Nat.zero_le _) hcomplete' (length_map _)⟩
  · rintro ⟨hlen, hrooms⟩
    obtain ⟨maxSize, hall⟩ := (listsAll_exists_iff hs hc hne env _).mpr ⟨hlen, hcomplete', rfl⟩
    exact ⟨maxSize, _, hall, .of_rooms hs hne hlen hc rfl (Nat.zero_le _) hcomplete' rfl hrooms⟩

def listedVolume : Volume :=
  let start := smallContext.partition.start + smallContext.clusterPosition 2
  { smallVolume with disk := fun p => if p = start ∨ p = start + 32 then 0x41 else 0 }

theorem listedVolume_chain : Chain smallContext listedVolume.next
    (fatGetClusterEntry smallContext smallContext.rootDir) [2, 3, 4] := by
  have hroot : fatGetClusterEntry smallContext smallContext.rootDir = 2 := by decide +kernel
  rw [hroot]
  exact smallVolume_chain

theorem listedVolume_length : (records smallContext listedVolume [2, 3, 4]).length < 2 ^ 32 := by
  rw [records_length]
  decide +kernel

theorem listedVolume_complete : Complete 20 (records smallContext listedVolume [2, 3, 4]) :=
  complete_of_short (by decide +kernel)

def Env.idle : Env := ⟨0, 0, fun _ => 0, fun _ => 0⟩

theorem listedVolume_items : (items (records smallContext listedVolume [2, 3, 4]) 0).length = 2 := by
  decide +kernel

theorem pagedListing_two :
    ∃ maxSize l, ListsAll smallContext smallContext.rootDir listedVolume maxSize .idle l ∧
      Concatenates smallContext smallContext.rootDir (fun _ => .idle) (fun _ => sizeofDirent)
        listedVolume 0 l :=
  (pagedListing_iff smallContext smallContext_sound listedVolume smallContext.rootDir [2, 3, 4]
    listedVolume_chain (by decide) listedVolume_complete .idle (fun _ => .idle)
    (fun _ => sizeofDirent)).mpr
      ⟨listedVolume_length, fun _ _ => show maxEntryCount sizeofDirent ≠ 0 by decide⟩

/-- A buffer with 2^32 places is taken for one without: the first call returns none of the two
entries. -/
theorem large_buffer_lists_nothing :
    sizeofDirent ≤ 2 ^ 32 * sizeofDirent ∧ 2 ^ 32 * sizeofDirent < 2 ^ 64 ∧
      Complete 20 (records smallContext listedVolume [2, 3, 4]) ∧
      Concatenates smallContext smallContext.rootDir (fun _ => .idle)
        (fun _ => 2 ^ 32 * sizeofDirent) listedVolume 0 [] ∧
      ∃ l, ListsAll smallContext smallContext.rootDir listedVolume (2 * sizeofDirent) .idle l ∧
        l.length = 2 := by
  refine ⟨by decide, by decide, listedVolume_complete, ?_, _, (listsAll_iff smallContext_sound
    listedVolume_chain (by decide) listedVolume_length (listedVolume_complete.mono (by decide)) _ _ _).mpr ⟨?_, rfl⟩, ?_⟩
  · obtain ⟨position, buffer, hcall, _⟩ := fatListDir_page smallContext_sound listedVolume_chain
      (by decide) listedVolume_length .idle (maxEntryCount (2 ^ 32 * sizeofDirent)) 0
      (Nat.zero_le _) (listedVolume_complete.mono (by decide))
    have hnone : maxEntryCount (2 ^ 32 * sizeofDirent) = 0 := by decide
    rw [hnone, take_zero, map_nil, ← hnone] at hcall
    exact .done hcall
  · rw [listedVolume_items]
    decide
  · rw [length_map, listedVolume_items]

end Kot.Fat
