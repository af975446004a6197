import Kot.Fat.Cache
import Kot.Fat.LongNames

/-! Scans of a directory as scans of the list of its records: the cache always finds the right
record while a scan goes on, and the entries that a scan visits are a function of the list. -/
namespace Kot.Fat

open Kot.Kernel Kot.Lib List

variable {ctx : Context} {v : Volume} {base : ℕ} {cs : List ℕ}

def records (ctx : Context) (v : Volume) (cs : List ℕ) : List Entry :=
  cs.flatMap fun c => (List.range ctx.entriesPerCluster).map (entryAt (v.clusterBytes ctx c))

theorem records_cons {c : ℕ} : records ctx v (c :: cs) =
    (List.range ctx.entriesPerCluster).map (entryAt (v.clusterBytes ctx c)) ++ records ctx v cs :=
  rfl

@[simp] theorem records_length (ctx : Context) (v : Volume) (cs : List ℕ) :
    (records ctx v cs).length = cs.length * ctx.entriesPerCluster := by
  induction cs with
  | nil => simp [records]
  | cons c cs ih =>
    rw [records_cons, length_append, length_map, length_range, ih, length_cons,
      Nat.succ_mul, Nat.add_comm]

theorem records_getElem? (hpos : 0 < ctx.entriesPerCluster) {n : ℕ} :
    (records ctx v cs)[n]? = plainEntry ctx v cs n := by
  induction cs generalizing n with
  | nil => rfl
  | cons c cs ih =>
    rw [records_cons, plainEntry]
    by_cases hn : n < ctx.entriesPerCluster
    · rw [getElem?_append_left (by simpa using hn), getElem?_map,
        getElem?_range hn, Nat.div_eq_of_lt hn, Nat.mod_eq_of_lt hn]
      rfl
    · have hle := Nat.le_of_not_lt hn
      rw [getElem?_append_right (by simpa using hle), length_map, length_range, ih,
        plainEntry, Nat.div_eq_sub_div hpos hle, getElem?_cons_succ, Nat.mod_eq_sub_mod hle]

section

variable {κ β : Type} {read : ℕ → κ → Except Fault (Option Entry × κ)} {I : κ → Prop}
  {rs : List Entry}

/-- The reader finds the records of the list, in every state that the scan can be in. After a
request beyond the end the state may be another one. -/
def Reads (read : ℕ → κ → Except Fault (Option Entry × κ)) (I : κ → Prop) (rs : List Entry) : Prop :=
  ∀ n < 2 ^ 32, ∀ k, I k → ∃ k', read n k = .ok (rs[n]?, k') ∧ (n < rs.length → I k')

/-- The variables of a scan: the cache holds the cluster that it takes itself for. -/
def CacheFine (ctx : Context) (v : Volume) (cs : List ℕ) (k : Cache) : Prop :=
  ∃ stale h, Matches ctx v cs stale h k ∧ (h = .empty ∨ h.place = some h.label)

theorem cacheFine_empty (ctx : Context) (v : Volume) (cs : List ℕ) (stale : List UInt8) :
    CacheFine ctx v cs ⟨stale, 0, 0⟩ :=
  ⟨stale, .empty, matches_empty, .inl rfl⟩

theorem Matches.right {stale : List UInt8} {h : Held} {k : Cache} (hm : Matches ctx v cs stale h k)
    (hfine : h = .empty ∨ h.place = some h.label) {m : ℕ} (hlt : m < 2 ^ 32 - 1) :
    h.Right cs.length m := by
  unfold Held.Right Held.answer
  obtain rfl | hplace := hfine
  · have hlabel : m ≠ Held.empty.label := hlt.ne
    have hwalk : ¬ (Held.empty.label ≠ 0 ∧ Held.empty.label < m) := fun hw => hw.2.not_gt hlt
    rw [if_neg hlabel, if_neg hwalk]
  · obtain ⟨c, hc, _⟩ := hm.held _ hplace
    have hin := (List.getElem?_eq_some_iff.mp hc).1
    by_cases hlabel : m = h.label
    · rw [if_pos hlabel, hplace, if_pos (hlabel ▸ hin), hlabel]
      rfl
    · rw [if_neg hlabel]
      by_cases hwalk : h.label ≠ 0 ∧ h.label < m
      · rw [if_pos hwalk, hplace, Option.map_some, Nat.add_sub_of_le hwalk.2.le]
      · rw [if_neg hwalk]

theorem reads_cache (hs : ctx.Sound) (hc : Chain ctx v.next base cs) (hne : cs ≠ []) :
    Reads (fatReadEntryWithCache ctx v base) (CacheFine ctx v cs) (records ctx v cs) := by
  rintro n hn k ⟨stale, h, hm, hfine⟩
  have hpos := hs.entriesPerCluster_pos
  have hcount : n / ctx.entriesPerCluster < 2 ^ 32 - 1 := by
    have hsectors := hs.sectors_pos
    have hmul : 16 * (n / ctx.entriesPerCluster) ≤ n := by
      calc 16 * (n / ctx.entriesPerCluster)
          ≤ ctx.entriesPerCluster * (n / ctx.entriesPerCluster) := by
            apply Nat.mul_le_mul_right
            rw [entriesPerCluster_eq]
            omega
        _ ≤ n := Nat.mul_div_le ..
    omega
  obtain ⟨k', hk', hm'⟩ := readEntryWithCache_right hs hc hne hm hn (hm.right hfine hcount)
  refine ⟨k', ?_, ?_⟩
  · rw [records_getElem? hpos]
    exact hk'
  · intro hin
    rw [records_length, ← Nat.div_lt_iff_lt_mul hpos] at hin
    rw [if_pos hin] at hm'
    refine ⟨stale, _, hm', ?_⟩
    rw [Held.after]
    split_ifs
    · exact hfine
    · exact .inr rfl

theorem readLfn_reads (h : Reads read I rs) {order : ℕ} {index : ℕ} (hi : index < 2 ^ 32)
    (name : List UInt8) {k : κ} (hk : I k) :
    (∃ f, readLfn (listReader rs) order index name () = .error f ∧
      readLfn read order index name k = .error f) ∨
    ∃ r k', readLfn (listReader rs) order index name () = .ok (r, ()) ∧
      readLfn read order index name k = .ok (r, k') ∧ I k' := by
  induction order generalizing index name k with
  | zero => exact .inr ⟨_, k, rfl, rfl, hk⟩
  | succ order ih =>
    obtain ⟨k', hk', hI⟩ := h index hi k hk
    rw [readLfn, readLfn, hk', listReader]
    simp only [ok_bind]
    cases he : rs[index]? with
    | none => exact .inl ⟨_, rfl, rfl⟩
    | some e => exact ih (Nat.mod_lt _ (by decide)) _ (hI (List.getElem?_eq_some_iff.mp he).1)

theorem scanLoop_reads (h : Reads read I rs) (nameSize : ℕ) (more : β → Bool)
    (visit : β → Item → β × Bool) (turns : ℕ) {s : Scan} (hi : s.index < 2 ^ 32) {k : κ} (hk : I k)
    (b : β) :
    (∃ f, scanLoop (listReader rs) nameSize more visit turns s () b = .error f ∧
      scanLoop read nameSize more visit turns s k b = .error f) ∨
    ∃ b' s' k', scanLoop (listReader rs) nameSize more visit turns s () b = .ok (b', s', ()) ∧
      scanLoop read nameSize more visit turns s k b = .ok (b', s', k') := by
  induction turns generalizing s k b with
  | zero => exact .inl ⟨_, rfl, rfl⟩
  | succ turns ih =>
    have hmod : ∀ a, a % 2 ^ 32 < 2 ^ 32 := fun a => Nat.mod_lt _ (by decide)
    obtain ⟨k', hk', hI⟩ := h s.index hi k hk
    rw [scanLoop, scanLoop, hk', listReader]
    simp only [ok_bind]
    cases he : rs[s.index]? with
    | none => exact .inr ⟨_, _, _, rfl, rfl⟩
    | some e =>
      have hI := hI (List.getElem?_eq_some_iff.mp he).1
      by_cases hmore : (!more b) = true
      · simp only [if_pos hmore]
        exact .inr ⟨_, _, _, rfl, rfl⟩
      by_cases hvalid : ¬ e.Valid
      · simp only [if_neg hmore, if_pos hvalid]
        exact ih (hmod _) hI _
      by_cases hlfn : e.IsLfn
      · by_cases hsize : nameSize ≤ lfnNameSize * e.order
        · simp only [if_neg hmore, if_neg hvalid, if_pos hlfn, if_pos hsize]
          exact .inl ⟨_, rfl, rfl⟩
        · simp only [if_neg hmore, if_neg hvalid, if_pos hlfn, if_neg hsize]
          obtain ⟨f, hl, hr⟩ | ⟨name, k2, hl, hr, hk2⟩ := readLfn_reads h hi [] hI
          · exact .inl ⟨f, by rw [hl]; rfl, by rw [hr]; rfl⟩
          · rw [hl, hr]
            exact ih (hmod _) hk2 _
      · simp only [if_neg hmore, if_neg hvalid, if_neg hlfn]
        by_cases hstop : (visit b (s.item e)).2 = true
        · simp only [if_pos hstop]
          exact .inr ⟨_, _, _, rfl, rfl⟩
        · simp only [if_neg hstop]
          exact ih (hmod _) hI _

end

/-- Directories whose runs of records for a long name have between 1 and `bound` records, as their
first record says, and do not go beyond the end. -/
inductive Complete (bound : ℕ) : List Entry → Prop
  | nil : Complete bound []
  | invalid {e : Entry} {rs : List Entry} : ¬ e.Valid → Complete bound rs → Complete bound (e :: rs)
  | short {e : Entry} {rs : List Entry} : e.Valid → ¬ e.IsLfn → Complete bound rs →
      Complete bound (e :: rs)
  | run {e : Entry} {es rs : List Entry} : e.Valid → e.IsLfn → e.order = es.length + 1 →
      e.order ≤ bound → Complete bound rs → Complete bound (e :: (es ++ rs))

/-- The name in a run of records; the first record has the last piece. -/
def runName (run : List Entry) : Name := (run.reverse.flatMap fatParseLfn).takeWhile (· ≠ 0)

/-- The long name that the next short entry gets and the place where it starts. -/
def Scan.pending (s : Scan) : Option (Name × ℕ) :=
  if s.isLastEntryLfn then some (s.name, s.lfnFirst) else none

def pendingItem (p : Option (Name × ℕ)) (index : ℕ) (e : Entry) : Item :=
  match p with
  | some (name, lfnFirst) => ⟨e, name, index, lfnFirst⟩
  | none => ⟨e, fatParseSfn e, index, noLfn⟩

theorem pendingItem_index (p : Option (Name × ℕ)) (index : ℕ) (e : Entry) :
    (pendingItem p index e).index = index := by
  cases p <;> rfl

theorem pendingItem_entry (p : Option (Name × ℕ)) (index : ℕ) (e : Entry) :
    (pendingItem p index e).entry = e := by
  cases p <;> rfl

theorem Scan.item_eq (s : Scan) (e : Entry) : s.item e = pendingItem s.pending s.index e := by
  rw [Scan.item, Scan.pending]
  split_ifs <;> rfl

/-- The short entries of a list of records that begins at the place `index`. The first `skip` records
belong to a run that has been read. -/
def itemsFrom : (skip : ℕ) → Option (Name × ℕ) → (index : ℕ) → List Entry → List Item
  | _, _, _, [] => []
  | skip + 1, p, index, _ :: rs => itemsFrom skip p (index + 1) rs
  | 0, p, index, e :: rs =>
    if ¬ e.Valid then itemsFrom 0 p (index + 1) rs
    else if e.IsLfn then
      itemsFrom (e.order - 1) (some (runName ((e :: rs).take e.order), index)) (index + 1) rs
    else pendingItem p index e :: itemsFrom 0 none (index + 1) rs

/-- The entries of a directory from a record on. -/
def items (rs : List Entry) (position : ℕ) : List Item := itemsFrom 0 none position (rs.drop position)

theorem Complete.mono {bound bound' : ℕ} {rs : List Entry} (h : Complete bound rs)
    (hle : bound ≤ bound') : Complete bound' rs := by
  induction h with
  | nil => exact .nil
  | invalid hvalid _ ih => exact .invalid hvalid ih
  | short hvalid hlfn _ ih => exact .short hvalid hlfn ih
  | run hvalid hlfn horder hbound _ ih => exact .run hvalid hlfn horder (hbound.trans hle) ih

theorem complete_of_short {bound : ℕ} {rs : List Entry} (h : ∀ e ∈ rs, e.Valid → ¬ e.IsLfn) :
    Complete bound rs := by
  induction rs with
  | nil => exact .nil
  | cons e rs ih =>
    have hrest := ih fun x hx => h x (by simp [hx])
    by_cases hvalid : e.Valid
    · exact .short hvalid (h e (by simp) hvalid) hrest
    · exact .invalid hvalid hrest

theorem itemsFrom_length_le (skip : ℕ) (p : Option (Name × ℕ)) (index : ℕ) (rs : List Entry) :
    (itemsFrom skip p index rs).length ≤ rs.length := by
  fun_induction itemsFrom skip p index rs with
  | case1 => exact Nat.le_refl _
  | case2 skip p index e rs ih => exact ih.trans (Nat.le_succ _)
  | case3 p index e rs hvalid ih => exact ih.trans (Nat.le_succ _)
  | case4 p index e rs hvalid hlfn ih => exact ih.trans (Nat.le_succ _)
  | case5 p index e rs hvalid hlfn ih => exact Nat.succ_le_succ ih

theorem itemsFrom_skip {p : Option (Name × ℕ)} {index : ℕ} {es rs : List Entry} :
    itemsFrom es.length p index (es ++ rs) = itemsFrom 0 p (index + es.length) rs := by
  induction es generalizing index with
  | nil => rfl
  | cons e es ih =>
    rw [length_cons, cons_append, itemsFrom, ih]
    congr 1
    omega

theorem itemsFrom_run {e : Entry} {es : List Entry} (hvalid : e.Valid) (hlfn : e.IsLfn)
    (horder : e.order = es.length + 1) (p : Option (Name × ℕ)) (index : ℕ) (rs : List Entry) :
    itemsFrom 0 p index (e :: (es ++ rs)) =
      itemsFrom 0 (some (runName (e :: es), index)) (index + e.order) rs := by
  rw [itemsFrom, if_neg (not_not.mpr hvalid), if_pos hlfn, horder, Nat.add_sub_cancel,
    itemsFrom_skip, take_succ_cons, take_left, Nat.add_right_comm, Nat.add_assoc]

theorem readLfn_list {rs : List Entry} (hlen : rs.length < 2 ^ 32) (run rest : List Entry)
    {index : ℕ} (hdrop : rs.drop index = run ++ rest) (hi : index ≤ rs.length) (name : List UInt8) :
    readLfn (listReader rs) run.length index name () =
      .ok ((run.reverse.flatMap fatParseLfn ++ name).takeWhile (· ≠ 0), ()) := by
  induction run generalizing index name with
  | nil => rfl
  | cons e run ih =>
    have he : rs[index]? = some e := by
      rw [← Nat.add_zero index, ← getElem?_drop, hdrop]
      rfl
    have hlt := (List.getElem?_eq_some_iff.mp he).1
    have htail : rs.drop (index + 1) = run ++ rest := by
      rw [← drop_drop, hdrop]
      rfl
    rw [length_cons, readLfn, listReader, he]
    simp only [ok_bind]
    rw [Nat.mod_eq_of_lt (by omega), ih htail (by omega), reverse_cons, flatMap_append,
      append_assoc]
    simp

section

variable {β : Type} {rs : List Entry} {bound nameSize : ℕ} {more : β → Bool}
  {visit : β → Item → β × Bool}

variable {e : Entry} {l : List Entry} {b b' : β} {s s' : Scan} {turns : ℕ} {u : Unit}

theorem getElem?_of_drop {index : ℕ} (h : rs.drop index = e :: l) :
    rs[index]? = some e ∧ rs.drop (index + 1) = l := by
  constructor
  · rw [← Nat.add_zero index, ← getElem?_drop, h]
    rfl
  · rw [← drop_drop, h]
    rfl

theorem scanLoop_enough (hmore : more b = false) (s : Scan) (turns : ℕ) :
    scanLoop (listReader rs) nameSize more visit (turns + 1) s () b = .ok (b, s, ()) := by
  rw [scanLoop, listReader]
  simp only [ok_bind, hmore, Bool.not_false, if_true]
  cases rs[s.index]? <;> rfl

theorem scanLoop_run (hlen : rs.length < 2 ^ 32) (hmore : more b = true)
    {es rest : List Entry} (hdrop : rs.drop s.index = e :: (es ++ rest))
    (hvalid : e.Valid) (hlfn : e.IsLfn) (horder : e.order = es.length + 1)
    (hsize : 13 * e.order < nameSize) :
    scanLoop (listReader rs) nameSize more visit (turns + 1) s () b =
      scanLoop (listReader rs) nameSize more visit turns
        ⟨s.index + e.order, true, runName (e :: es), s.index⟩ () b := by
  have he := (getElem?_of_drop hdrop).1
  have hlt := (List.getElem?_eq_some_iff.mp he).1
  have hrun := readLfn_list hlen (e :: es) rest hdrop hlt.le []
  have hend := congrArg List.length hdrop
  rw [length_drop, length_cons, length_append] at hend
  rw [length_cons, ← horder, append_nil] at hrun
  rw [scanLoop, listReader, he]
  simp only [ok_bind, hmore, Bool.not_true, Bool.false_eq_true, if_false, not_not.mpr hvalid,
    if_pos hlfn, lfnNameSize, if_neg (Nat.not_le.mpr hsize), hrun]
  rw [Nat.mod_eq_of_lt (by omega)]
  rfl

theorem scanLoop_short (hlen : rs.length < 2 ^ 32) (hmore : more b = true)
    (he : rs[s.index]? = some e) (hvalid : e.Valid) (hlfn : ¬ e.IsLfn) :
    ∃ name lfnFirst, scanLoop (listReader rs) nameSize more visit (turns + 1) s () b =
      if (visit b (pendingItem s.pending s.index e)).2 = true then
        .ok ((visit b (pendingItem s.pending s.index e)).1, ⟨s.index, false, name, lfnFirst⟩, ())
      else scanLoop (listReader rs) nameSize more visit turns ⟨s.index + 1, false, name, lfnFirst⟩ ()
        (visit b (pendingItem s.pending s.index e)).1 := by
  have hlt := (List.getElem?_eq_some_iff.mp he).1
  refine ⟨(s.item e).name, (s.item e).lfnFirst, ?_⟩
  rw [scanLoop, listReader, he, ← Scan.item_eq]
  simp only [ok_bind, hmore, Bool.not_true, Bool.false_eq_true, if_false, not_not.mpr hvalid,
    if_neg hlfn]
  rw [Nat.mod_eq_of_lt (by omega)]

/-- What a scan does next: it comes to the end, or to the next of the entries, with which it ends or
behind which it goes on with no long name pending. -/
theorem scanLoop_next (more : β → Bool) (visit : β → Item → β × Bool) (hlen : rs.length < 2 ^ 32)
    (hsize : 13 * bound < nameSize)
    (hmore : more b = true) (hl : Complete bound l)
    (hdrop : rs.drop s.index = l) (hi : s.index ≤ rs.length) (ht : l.length < turns) :
    (itemsFrom 0 s.pending s.index l = [] ∧ ∃ s' : Scan, s'.index = rs.length ∧
      scanLoop (listReader rs) nameSize more visit turns s () b = .ok (b, s', ())) ∨
    ∃ x name lfnFirst turns', x.index < rs.length ∧
      itemsFrom 0 s.pending s.index l = x :: items rs (x.index + 1) ∧
      Complete bound (rs.drop (x.index + 1)) ∧ rs.length - (x.index + 1) < turns' ∧
      scanLoop (listReader rs) nameSize more visit turns s () b =
        if (visit b x).2 = true then .ok ((visit b x).1, ⟨x.index, false, name, lfnFirst⟩, ())
        else scanLoop (listReader rs) nameSize more visit turns' ⟨x.index + 1, false, name, lfnFirst⟩
          () (visit b x).1 := by
  induction hl generalizing s turns with
  | nil =>
    obtain ⟨turns, rfl⟩ : ∃ t, turns = t + 1 := ⟨turns - 1, by omega⟩
    have hend := drop_eq_nil_iff.mp hdrop
    refine .inl ⟨rfl, s, by omega, ?_⟩
    rw [scanLoop, listReader, getElem?_eq_none hend]
    rfl
  | @invalid e l hvalid hl ih =>
    obtain ⟨turns, rfl⟩ : ∃ t, turns = t + 1 := ⟨turns - 1, by omega⟩
    obtain ⟨he, htail⟩ := getElem?_of_drop hdrop
    have hlt := (List.getElem?_eq_some_iff.mp he).1
    have hitems : itemsFrom 0 s.pending s.index (e :: l) =
        itemsFrom 0 s.pending (s.index + 1) l := by
      rw [itemsFrom, if_pos hvalid]
    rw [scanLoop, listReader, he, hitems]
    simp only [ok_bind, hmore, Bool.not_true, Bool.false_eq_true, if_false, if_pos hvalid]
    rw [Nat.mod_eq_of_lt (by omega)]
    exact ih (s := { s with index := s.index + 1 }) htail hlt
      (by rw [length_cons] at ht; omega)
  | @short e l hvalid hlfn hl ih =>
    obtain ⟨turns, rfl⟩ : ∃ t, turns = t + 1 := ⟨turns - 1, by omega⟩
    obtain ⟨he, htail⟩ := getElem?_of_drop hdrop
    have hlt := (List.getElem?_eq_some_iff.mp he).1
    obtain ⟨name, lfnFirst, hstep⟩ := scanLoop_short hlen hmore he hvalid hlfn
    have hindex := pendingItem_index s.pending s.index e
    have hrest : rs.length - (s.index + 1) = l.length := by rw [← htail, length_drop]
    refine .inr ⟨pendingItem s.pending s.index e, name, lfnFirst, turns, ?_, ?_, ?_, ?_, ?_⟩
    · rw [hindex]
      exact hlt
    · rw [itemsFrom, if_neg (not_not.mpr hvalid), if_neg hlfn, hindex, items, htail]
    · rw [hindex, htail]
      exact hl
    · rw [length_cons] at ht
      omega
    · rw [hstep, hindex]
  | @run e es l hvalid hlfn horder hbound hl ih =>
    obtain ⟨turns, rfl⟩ : ∃ t, turns = t + 1 := ⟨turns - 1, by omega⟩
    have hend := congrArg List.length hdrop
    rw [length_drop, length_cons, length_append] at hend
    rw [length_cons, length_append] at ht
    have htail : rs.drop (s.index + e.order) = l := by
      rw [← drop_drop, hdrop, horder, drop_succ_cons, drop_left]
    rw [scanLoop_run hlen hmore hdrop hvalid hlfn horder (by omega), itemsFrom_run hvalid hlfn horder]
    exact ih (s := ⟨s.index + e.order, true, runName (e :: es), s.index⟩) htail
      (by show s.index + e.order ≤ rs.length; omega) (by omega)

theorem readLfn_inside (hlen : rs.length < 2 ^ 32) {order index : ℕ} (hi : index ≤ rs.length)
    {name : List UInt8} {r : Name × Unit}
    (h : readLfn (listReader rs) order index name () = .ok r) : index + order ≤ rs.length := by
  induction order generalizing index name with
  | zero => exact hi
  | succ order ih =>
    rw [readLfn, listReader] at h
    simp only [ok_bind] at h
    cases he : rs[index]? with
    | none =>
      rw [he] at h
      cases h
    | some e =>
      have hlt := (List.getElem?_eq_some_iff.mp he).1
      rw [he] at h
      simp only [Nat.mod_eq_of_lt (by omega)] at h
      have := ih (by omega) h
      omega

theorem complete_of_scanLoop (hlen : rs.length < 2 ^ 32) (hsize : nameSize ≤ 13 * (bound + 1))
    (hvisit : ∀ b x, (visit b x).2 = false) (hi : s.index ≤ rs.length)
    (h : scanLoop (listReader rs) nameSize more visit turns s () b = .ok (b', s', u))
    (hend : more b' = true ∨ Complete bound (rs.drop s'.index)) :
    Complete bound (rs.drop s.index) := by
  induction turns generalizing s b with
  | zero => cases h
  | succ turns ih =>
    rw [scanLoop, listReader] at h
    simp only [ok_bind] at h
    cases he : rs[s.index]? with
    | none =>
      rw [drop_eq_nil_of_le (getElem?_eq_none_iff.mp he)]
      exact .nil
    | some e =>
      obtain ⟨hlt, hget⟩ := List.getElem?_eq_some_iff.mp he
      have hdrop : rs.drop s.index = e :: rs.drop (s.index + 1) := by
        rw [← hget, getElem_cons_drop]
      have hmod : (s.index + 1) % 2 ^ 32 = s.index + 1 := Nat.mod_eq_of_lt (by omega)
      simp only [he, hmod] at h
      split_ifs at h with hmore hvalid hlfn hname hstop
      · obtain ⟨rfl, rfl⟩ : b = b' ∧ s = s' := by simpa using h
        exact hend.resolve_left (by simpa using hmore)
      · obtain ⟨⟨name, k⟩, hrun, h⟩ := Kernel.bind_eq_ok h
        have hinside := readLfn_inside hlen hi hrun
        rw [Nat.mod_eq_of_lt (by omega : s.index + e.order < 2 ^ 32)] at h
        have hrest := ih hinside h
        rw [lfnNameSize] at hname
        obtain ⟨n, hn⟩ | h0 : (∃ n, e.order = n + 1) ∨ e.order = 0 := by
          cases e.order with
          | zero => exact .inr rfl
          | succ n => exact .inl ⟨n, rfl⟩
        · have hsplit : rs.drop (s.index + 1) =
              (rs.drop (s.index + 1)).take n ++ rs.drop (s.index + e.order) := by
            rw [hn, Nat.add_comm n 1, ← Nat.add_assoc, ← drop_drop (i := n), take_append_drop]
          rw [hdrop, hsplit]
          refine .run hvalid hlfn ?_ (by omega) hrest
          rw [length_take, length_drop]
          omega
        · rwa [h0] at hrest
      · rw [hvisit] at hstop
        cases hstop
      · rw [hdrop]
        exact .short hvalid hlfn (ih (s := ⟨s.index + 1, _, _, _⟩) hlt h)
      · rw [hdrop]
        exact .invalid hvalid (ih (s := ⟨s.index + 1, _, _, _⟩) hlt h)

/-- Where no record number is beyond the end, a scan that does not stop by itself ends only when it
has enough. -/
theorem scanLoop_endless (more : β → Bool) (visit : β → Item → β × Bool) (hlen : 2 ^ 32 ≤ rs.length) (hvisit : ∀ b x, (visit b x).2 = false)
    (hi : s.index < 2 ^ 32) (h : scanLoop (listReader rs) nameSize more visit turns s () b = .ok (b', s', u)) :
    more b' = false ∧ s'.index < 2 ^ 32 := by
  induction turns generalizing s b with
  | zero => cases h
  | succ turns ih =>
    have hmod : ∀ a, a % 2 ^ 32 < 2 ^ 32 := fun a => Nat.mod_lt _ (by decide)
    have he : rs[s.index]? = some (rs.get ⟨s.index, by omega⟩) :=
      getElem?_eq_getElem (by omega)
    rw [scanLoop, listReader, he] at h
    simp only [ok_bind] at h
    split_ifs at h with hmore hvalid hlfn hsize hstop
    · cases h
      exact ⟨by simpa using hmore, hi⟩
    · obtain ⟨⟨name, k⟩, _, h⟩ := Kernel.bind_eq_ok h
      exact ih (hmod _) h
    · rw [hvisit] at hstop
      cases hstop
    · exact ih (hmod _) h
    · exact ih (hmod _) h

end

end Kot.Fat
