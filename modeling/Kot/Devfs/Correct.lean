import Kot.Devfs.Tree
import Kot.Lib.Lists

/-! When the operations of `devfs` keep a tree and report what they did. -/
namespace Kot.Devfs

open List Function
open Kot.Kernel (Fault ok_bind bind_eq_ok vectorPush vectorRemove vectorRemove_ok vectorRemove_last)
open Kot.Lib (Run Guarded getElem?_concat_eq_some)

variable {s s' : State} {c d e : ℕ} {x y : Entry} {name : Name} {path : List UInt8} {isFile : Bool}

theorem modify_entry (s : State) (e : ℕ) (f : Entry → Entry) (c : ℕ) :
    (s.modify e f).entry c = if c = e then (s.entry c).map f else s.entry c := by
  by_cases hc : c = e
  · subst hc
    rw [if_pos rfl]
    exact update_self ..
  · rw [if_neg hc]
    exact update_of_ne hc ..

theorem read_eq (h : s.entry e = some x) : s.read e = .ok x := by
  rw [State.read, h]

theorem searchEntries_ok {l : List ℕ} (h : ∀ c ∈ l, ∃ y, s.entry c = some y) :
    ∃ o, searchEntries s name l = .ok o ∧ ∀ c, o = some c → c ∈ l := by
  induction l with
  | nil => exact ⟨none, rfl, nofun⟩
  | cons c l ih =>
    obtain ⟨y, hy⟩ := h c mem_cons_self
    rw [searchEntries, read_eq hy, ok_bind]
    split_ifs with hn
    · refine ⟨some c, rfl, ?_⟩
      rintro c' hc'
      cases hc'
      exact mem_cons_self
    · obtain ⟨o, ho, hmem⟩ := ih fun c' hc' => h c' (mem_cons_of_mem _ hc')
      exact ⟨o, ho, fun c' hc' => mem_cons_of_mem _ (hmem c' hc')⟩

theorem getEntry_ok (h : IsTree s) (hx : s.entry d = some x) (hdir : x.isFile = false) :
    ∃ o, getEntry s d name = .ok o ∧ ∀ c, o = some c → ∃ y, s.entry c = some y := by
  rw [getEntry, read_eq hx, ok_bind, hdir]
  simp only [Bool.false_eq_true, if_false]
  split_ifs with hself hparent
  · exact ⟨_, rfl, fun c hc => ⟨x, Option.some.inj hc ▸ hx⟩⟩
  · refine ⟨_, rfl, fun c hc => ?_⟩
    obtain ⟨y, hy, -⟩ := h.parents d x c hx hc
    exact ⟨y, hy⟩
  · have hchild : ∀ c ∈ x.entries, ∃ y, s.entry c = some y := by
      intro c hc
      obtain ⟨i, hi⟩ := mem_iff_getElem?.mp hc
      obtain ⟨y, hy, -⟩ := h.children d x i c hx hi
      exact ⟨y, hy⟩
    obtain ⟨o, ho, hmem⟩ := searchEntries_ok hchild
    exact ⟨o, ho, fun c hc => hchild c (hmem c hc)⟩

theorem walkDirectories_ok (h : IsTree s) (names : List Name) :
    ∀ d x, s.entry d = some x → x.isFile = false → ∃ o, walkDirectories s names d = .ok o ∧
      ∀ c, o = some c → ∃ y, s.entry c = some y ∧ y.isFile = false := by
  induction names with
  | nil =>
    intro d x hx hdir
    refine ⟨some d, rfl, fun c hc => ?_⟩
    cases hc
    exact ⟨x, hx, hdir⟩
  | cons name names ih =>
    intro d x hx hdir
    obtain ⟨o, ho, hsome⟩ := getEntry_ok h hx hdir
    rw [walkDirectories, ho, ok_bind]
    cases o with
    | none => exact ⟨none, rfl, nofun⟩
    | some e =>
      obtain ⟨y, hy⟩ := hsome e rfl
      simp only [read_eq hy, ok_bind]
      split_ifs with hfile
      · exact ⟨none, rfl, nofun⟩
      · exact ih e y hy (Bool.not_eq_true _ ▸ hfile)

theorem findLastDirectory_ok (h : IsTree s) : ∃ o, findLastDirectory s path = .ok o ∧
      ∀ d name, o = some (d, name) → ∃ x, s.entry d = some x ∧ x.isFile = false := by
  obtain ⟨r, hr, hdir, -⟩ := h.root
  obtain ⟨o, ho, hsome⟩ := walkDirectories_ok h (splitPath path).1 root r hr hdir
  rw [findLastDirectory, read_eq hr, ok_bind, hdir]
  simp only [Bool.false_eq_true, if_false, ho, ok_bind]
  cases o with
  | none => exact ⟨none, rfl, nofun⟩
  | some d =>
    refine ⟨_, rfl, fun d' name hd => ?_⟩
    cases hd
    exact hsome d rfl

theorem getEntryWithPath_ok (h : IsTree s) :
    ∃ o, getEntryWithPath s path = .ok o ∧ ∀ e, o = some e → ∃ x, s.entry e = some x := by
  obtain ⟨o, ho, hsome⟩ := findLastDirectory_ok h
  rw [getEntryWithPath, ho, ok_bind]
  cases o with
  | none => exact ⟨none, rfl, nofun⟩
  | some p =>
    obtain ⟨d, name⟩ := p
    obtain ⟨x, hx, hdir⟩ := hsome d name rfl
    simp only
    split_ifs with hn
    · exact getEntry_ok h hx hdir
    · exact ⟨_, rfl, fun e he => ⟨x, Option.some.inj he ▸ hx⟩⟩

/-- The state after a new entry in the directory `d`, whose entry is `x`. -/
def created (s : State) (d : ℕ) (x : Entry) (name : Name) (isFile : Bool) : State where
  entry := update (update s.entry d (some { x with entries := x.entries ++ [s.next] }))
    s.next (some ⟨name, isFile, some d, x.entries.length, []⟩)
  next := s.next + 1

theorem created_next : (created s d x name isFile).entry s.next =
    some ⟨name, isFile, some d, x.entries.length, []⟩ := update_self ..

theorem created_dir (hne : d ≠ s.next) : (created s d x name isFile).entry d =
    some { x with entries := x.entries ++ [s.next] } :=
  (update_of_ne hne ..).trans (update_self ..)

theorem created_other (hc : c ≠ s.next) (hd : c ≠ d) : (created s d x name isFile).entry c = s.entry c :=
  (update_of_ne hc ..).trans (update_of_ne hd ..)

theorem IsTree.ne_next (h : IsTree s) (hx : s.entry c = some x) : c ≠ s.next := by
  rintro rfl
  rw [h.finite _ (Nat.le_refl _)] at hx
  cases hx

theorem createEntry_eq (h : IsTree s) (hx : s.entry d = some x) (hdir : x.isFile = false)
    (hpath : findLastDirectory s path = .ok (some (d, name))) (isFile : Bool) :
    createEntry s path isFile = .ok (.success, created s d x name isFile) := by
  have hne := h.ne_next hx
  have hread : State.read ⟨update s.entry s.next (some ⟨name, isFile, some d, 0, []⟩), s.next + 1⟩ d =
      .ok x := read_eq ((update_of_ne hne ..).trans hx)
  rw [createEntry, hpath, ok_bind]
  simp only [addEntry, hread, ok_bind, hdir, Bool.false_eq_true, if_false, if_true]
  congr 2
  apply State.ext
  · funext c
    rw [modify_entry, modify_entry, modify_entry]
    by_cases hc : c = s.next
    · subst hc
      rw [created_next]
      simp [hne.symm]
    · by_cases hcd : c = d
      · subst hcd
        rw [created_dir hne]
        simp [hc, hx, vectorPush]
      · rw [created_other hc hcd]
        simp [hc, hcd]
  · rfl

theorem created_old (h : IsTree s) (hx : s.entry d = some x) (hy : s.entry c = some y) :
    ∃ y', (created s d x name isFile).entry c = some y' ∧ y'.parent = y.parent ∧ y'.name = y.name ∧
      y'.index = y.index ∧ y'.isFile = y.isFile ∧
      ∀ i c' : ℕ, y.entries[i]? = some c' → y'.entries[i]? = some c' := by
  by_cases hcd : c = d
  · subst hcd
    obtain rfl := Option.some.inj (hx.symm.trans hy)
    refine ⟨_, created_dir (h.ne_next hx), rfl, rfl, rfl, rfl, ?_⟩
    intro i c' hi
    exact getElem?_concat_eq_some.mpr (.inl hi)
  · exact ⟨y, by rw [created_other (h.ne_next hy) hcd, hy], rfl, rfl, rfl, rfl, fun _ _ hi => hi⟩

theorem created_back (hx : s.entry d = some x) (hc : c ≠ s.next)
    (hy : (created s d x name isFile).entry c = some y) :
    ∃ y', s.entry c = some y' ∧ y'.parent = y.parent ∧ y'.name = y.name ∧ y'.index = y.index := by
  by_cases hcd : c = d
  · subst hcd
    rw [created_dir hc] at hy
    cases hy
    exact ⟨x, hx, rfl, rfl, rfl⟩
  · rw [created_other hc hcd] at hy
    exact ⟨y, hy, rfl, rfl, rfl⟩

theorem created_rooted (h : IsTree s) (hx : s.entry d = some x) (hc : Rooted s c) :
    Rooted (created s d x name isFile) c := by
  induction hc with
  | root => exact .root
  | child hy hpar _ ih =>
    obtain ⟨y', hy', hpar', -⟩ := created_old h hx hy
    exact .child hy' (hpar'.trans hpar) ih

theorem created_isTree (h : IsTree s) (hx : s.entry d = some x) (hdir : x.isFile = false)
    (hname : name ≠ []) (hfresh : ∀ c y, s.entry c = some y → y.parent = some d → y.name ≠ name) :
    IsTree (created s d x name isFile) where
  root := by
    obtain ⟨r, hr, hrdir, hrpar⟩ := h.root
    obtain ⟨r', hr', hpar', -, -, hfile', -⟩ := created_old h hx hr
    exact ⟨r', hr', hfile'.trans hrdir, hpar'.trans hrpar⟩
  finite := by
    intro c hc
    change s.next + 1 ≤ c at hc
    have hcd : c ≠ d := by
      rintro rfl
      rw [h.finite _ (by omega)] at hx
      cases hx
    rw [created_other (by omega) hcd]
    exact h.finite c (by omega)
  children := by
    intro d1 x1 i c hx1 hi
    -- a child in the old sense, or the new entry
    have hcases : (∃ z, s.entry d1 = some z ∧ z.entries[i]? = some c) ∨
        d1 = d ∧ i = x.entries.length ∧ c = s.next := by
      by_cases hd1 : d1 = s.next
      · subst hd1
        rw [created_next] at hx1
        cases hx1
        cases hi
      by_cases hdd : d1 = d
      · subst hdd
        rw [created_dir hd1] at hx1
        cases hx1
        obtain hi | ⟨rfl, rfl⟩ := getElem?_concat_eq_some.mp hi
        · exact .inl ⟨x, hx, hi⟩
        · exact .inr ⟨rfl, rfl, rfl⟩
      · rw [created_other hd1 hdd] at hx1
        exact .inl ⟨x1, hx1, hi⟩
    obtain ⟨z, hz, hi⟩ | ⟨rfl, rfl, rfl⟩ := hcases
    · obtain ⟨y, hy, hpar, hidx⟩ := h.children d1 z i c hz hi
      obtain ⟨y', hy', hpar', -, hidx', -⟩ := created_old h hx hy
      exact ⟨y', hy', hpar'.trans hpar, hidx'.trans hidx⟩
    · exact ⟨_, created_next, rfl, rfl⟩
  parents := by
    intro c y d1 hy hpar
    by_cases hc : c = s.next
    · subst hc
      rw [created_next] at hy
      cases hy
      cases hpar
      exact ⟨_, created_dir (h.ne_next hx), hdir, getElem?_concat_eq_some.mpr (.inr ⟨rfl, rfl⟩)⟩
    · obtain ⟨y', hy', hpar', -, hidx'⟩ := created_back hx hc hy
      obtain ⟨z, hz, hzdir, hi⟩ := h.parents c y' d1 hy' (hpar'.trans hpar)
      obtain ⟨z', hz', -, -, -, hfile', hkeep⟩ := created_old h hx hz
      exact ⟨z', hz', hfile'.trans hzdir, hkeep _ _ (hidx' ▸ hi)⟩
  rooted := by
    intro c y hy
    by_cases hc : c = s.next
    · subst hc
      exact .child created_next rfl (created_rooted h hx (h.rooted d x hx))
    · obtain ⟨y', hy', -⟩ := created_back hx hc hy
      exact created_rooted h hx (h.rooted c y' hy')
  named := by
    intro c y d1 hy hpar
    by_cases hc : c = s.next
    · subst hc
      rw [created_next] at hy
      cases hy
      exact hname
    · obtain ⟨y', hy', hpar', hname', -⟩ := created_back hx hc hy
      exact hname' ▸ h.named c y' d1 hy' (hpar'.trans hpar)
  distinct := by
    intro c y c' y' d1 hy hy' hpar hpar' heq
    -- a new name differs from the old ones of its directory
    have hclash : ∀ c y, c ≠ s.next → (created s d x name isFile).entry c = some y →
        y.parent = some d → y.name ≠ name := by
      intro c y hc hy hpar
      obtain ⟨z, hz, hzpar, hzname, -⟩ := created_back hx hc hy
      exact hzname ▸ hfresh c z hz (hzpar.trans hpar)
    by_cases hc : c = s.next
    · by_cases hc' : c' = s.next
      · rw [hc, hc']
      · subst hc
        rw [created_next] at hy
        cases hy
        cases hpar
        exact absurd heq.symm (hclash c' y' hc' hy' hpar')
    · by_cases hc' : c' = s.next
      · subst hc'
        rw [created_next] at hy'
        cases hy'
        cases hpar'
        exact absurd heq (hclash c y hc hy hpar)
      · obtain ⟨z, hz, hzpar, hzname, -⟩ := created_back hx hc hy
        obtain ⟨z', hz', hzpar', hzname', -⟩ := created_back hx hc' hy'
        exact h.distinct c z c' z' d1 hz hz' (hzpar.trans hpar) (hzpar'.trans hpar')
          (hzname.trans (heq.trans hzname'.symm))

theorem created_isTree_iff (h : IsTree s) (hx : s.entry d = some x) (hdir : x.isFile = false) :
    IsTree (created s d x name isFile) ↔
      name ≠ [] ∧ ∀ c y, s.entry c = some y → y.parent = some d → y.name ≠ name := by
  constructor
  · intro h'
    refine ⟨h'.named s.next _ d created_next rfl, ?_⟩
    intro c y hy hpar heq
    obtain ⟨y', hy', hpar', hname', -⟩ := created_old h hx hy
    exact h.ne_next hy
      (h'.distinct c y' s.next _ d hy' created_next (hpar'.trans hpar) rfl (hname'.trans heq))
  · rintro ⟨hname, hfresh⟩
    exact created_isTree h hx hdir hname hfresh

theorem rooted_parent_ne (hroot : ∃ x, s.entry root = some x ∧ x.isFile = false ∧ x.parent = none)
    (hc : Rooted s c) : ∀ {x}, s.entry c = some x → x.parent ≠ some c := by
  induction hc with
  | root =>
    obtain ⟨r, hr, -, hnone⟩ := hroot
    intro x hx hpar
    obtain rfl := Option.some.inj (hr.symm.trans hx)
    rw [hnone] at hpar
    cases hpar
  | child hy hpar _ ih =>
    intro x hx hself
    obtain rfl := Option.some.inj (hy.symm.trans hx)
    obtain rfl := Option.some.inj (hpar.symm.trans hself)
    exact ih hx hself

theorem IsTree.parent_of_ne (h : IsTree s) (hx : s.entry e = some x) (he : e ≠ Devfs.root) :
    ∃ d p, x.parent = some d ∧ s.entry d = some p ∧ p.isFile = false ∧ p.entries[x.index]? = some e := by
  cases h.rooted e x hx with
  | root => exact absurd rfl he
  | child hx' hpar _ =>
    obtain rfl := Option.some.inj (hx'.symm.trans hx)
    obtain ⟨p, hp, hpdir, hi⟩ := h.parents e _ _ hx hpar
    exact ⟨_, p, hpar, hp, hpdir, hi⟩

theorem IsTree.file_ne_root (h : IsTree s) (hx : s.entry e = some x) (hfile : x.isFile = true) :
    e ≠ Devfs.root := by
  rintro rfl
  obtain ⟨r, hr, hdir, -⟩ := h.root
  obtain rfl := Option.some.inj (hr.symm.trans hx)
  rw [hdir] at hfile
  cases hfile

variable {p : Entry} {r : Errno} {oldPath newPath : List UInt8}

theorem removeEntry_eq (hx : s.entry e = some x) (hpar : x.parent = some d)
    (hp : s.entry d = some p) (hdir : p.isFile = false) :
    removeEntry s e = (do
      let entries ← vectorRemove p.entries x.index
      .ok (.success, s.modify d fun p => { p with entries })) := by
  rw [removeEntry, read_eq hx, ok_bind, hpar]
  simp only [read_eq hp, ok_bind, hdir, Bool.false_eq_true, if_false]

theorem removeEntry_ok (h : IsTree s) (hx : s.entry e = some x)
    (hr : removeEntry s e = .ok (r, s')) :
    (e = root ∧ r = .eacces ∧ s' = s) ∨
    (∃ d p, x.parent = some d ∧ s.entry d = some p ∧ p.isFile = false ∧ p.entries[x.index]? = some e ∧
      r = .success ∧ s' = s.modify d fun p => { p with entries := p.entries.dropLast }) := by
  by_cases he : e = root
  · subst he
    obtain ⟨y, hy, -, hnone⟩ := h.root
    obtain rfl := Option.some.inj (hy.symm.trans hx)
    rw [removeEntry, read_eq hx, ok_bind, hnone] at hr
    cases hr
    exact .inl ⟨rfl, rfl, rfl⟩
  · obtain ⟨d, p, hpar, hp, hdir, hi⟩ := h.parent_of_ne hx he
    rw [removeEntry_eq hx hpar hp hdir] at hr
    obtain ⟨entries, hrem, hr⟩ := bind_eq_ok hr
    cases hr
    have hlt := (List.getElem?_eq_some_iff.mp hi).1
    refine .inr ⟨d, p, hpar, hp, hdir, hi, rfl, ?_⟩
    apply State.ext
    · funext c
      rw [modify_entry, modify_entry]
      by_cases hc : c = d
      · subst hc
        simp [hp, vectorRemove_ok hlt hrem]
      · simp [hc]
    · rfl

theorem addEntry_eq (hp : s.entry d = some p) (hdir : p.isFile = false) :
    addEntry s d e = .ok (.success,
      ((s.modify e fun x => { x with parent := some d }).modify d fun x =>
        { x with entries := vectorPush x.entries e }).modify e fun x =>
          { x with index := p.entries.length }) := by
  rw [addEntry, read_eq hp, ok_bind, hdir]
  rfl

section
variable (h : IsTree s) (hold : getEntryWithPath s oldPath = .ok (some e))
  (hnew : findLastDirectory s newPath = .ok (some (d, name))) (hx : s.entry e = some x)
include h hold hnew hx

theorem rename_ok (hp : s.entry d = some p) (hdir : p.isFile = false)
    (hr : rename s oldPath newPath = .ok (r, s')) :
    ∃ d0 p0, x.parent = some d0 ∧ s.entry d0 = some p0 ∧ p0.entries[x.index]? = some e ∧ r = .enosys ∧
      s' = ((((s.modify d0 fun p => { p with entries := p.entries.dropLast }).modify e fun x =>
        { x with name }).modify e fun x => { x with parent := some d }).modify d fun x =>
          { x with entries := vectorPush x.entries e }).modify e fun x =>
            { x with index := (if d = d0 then p.entries.dropLast else p.entries).length } := by
  rw [rename, hold, ok_bind] at hr
  simp only [hnew, ok_bind] at hr
  obtain ⟨⟨r1, s1⟩, hrem, hr⟩ := bind_eq_ok hr
  obtain ⟨-, rfl, -⟩ | ⟨d0, p0, hpar, hp0, hdir0, hi, rfl, rfl⟩ := removeEntry_ok h hx hrem
  · cases hr
  refine ⟨d0, p0, hpar, hp0, hi, ?_⟩
  -- the record of the new parent at the time of the second change
  obtain ⟨p', hp', hdir', hlen⟩ : ∃ p', ((s.modify d0 fun p => { p with entries := p.entries.dropLast }).modify
      e fun x => { x with name }).entry d = some p' ∧ p'.isFile = false ∧
      p'.entries = if d = d0 then p.entries.dropLast else p.entries := by
    rw [modify_entry, modify_entry, hp]
    split_ifs <;> exact ⟨_, rfl, hdir, rfl⟩
  rw [if_neg (by simp)] at hr
  simp only [addEntry_eq hp' hdir', ok_bind] at hr
  cases hr
  rw [hlen]
  exact ⟨rfl, rfl⟩

theorem rename_unchanged (hr : rename s oldPath newPath = .ok (r, s)) :
    x.name = name ∧ x.parent = some d ∧ ∃ p, s.entry d = some p ∧ x.index + 1 = p.entries.length := by
  obtain ⟨p, hp, hdir⟩ : ∃ p, s.entry d = some p ∧ p.isFile = false := by
    obtain ⟨o, ho, hsome⟩ := findLastDirectory_ok h
    exact hsome d name (Except.ok.inj (ho.symm.trans hnew))
  obtain ⟨d0, p0, hpar, hp0, hi, -, hs⟩ := rename_ok h hold hnew hx hp hdir hr
  have hlt := (List.getElem?_eq_some_iff.mp hi).1
  have he := congrArg (fun s : State => s.entry e) hs
  have hd := congrArg (fun s : State => s.entry d) hs
  simp only [modify_entry, hx, hp, if_true, Option.map_some] at he hd
  have hname : x.name = name := by
    split_ifs at he <;> exact congrArg Entry.name (Option.some.inj he)
  have hpar' : x.parent = some d := by
    split_ifs at he <;> exact congrArg Entry.parent (Option.some.inj he)
  obtain rfl := Option.some.inj (hpar.symm.trans hpar')
  obtain rfl := Option.some.inj (hp0.symm.trans hp)
  have hentries : p0.entries = p0.entries.dropLast ++ [e] := by
    simp only [if_true, Option.map_some] at hd
    split_ifs at hd <;> exact congrArg Entry.entries (Option.some.inj hd)
  have hlast : p0.entries[p0.entries.dropLast.length]? = some e := by
    rw [hentries, dropLast_concat]
    exact getElem?_concat_length
  obtain ⟨y, hy, -, hidx⟩ := h.children d0 p0 _ e hp0 hlast
  obtain rfl := Option.some.inj (hx.symm.trans hy)
  refine ⟨hname, hpar', p0, hp0, ?_⟩
  rw [hidx, length_dropLast]
  omega

theorem rename_self (hname : x.name = name) (hpar : x.parent = some d) (hp : s.entry d = some p)
    (hlast : x.index + 1 = p.entries.length) : rename s oldPath newPath = .ok (.enosys, s) := by
  obtain ⟨p', hp', hdir, hi⟩ := h.parents e x d hx hpar
  obtain rfl := Option.some.inj (hp'.symm.trans hp)
  obtain ⟨l, hl⟩ : ∃ l, p'.entries = l ++ [e] := by
    refine ⟨p'.entries.dropLast, ?_⟩
    have hgetLast : p'.entries.getLast? = some e := by
      rw [getLast?_eq_getElem?, ← hlast]
      exact hi
    obtain ⟨l, hl⟩ := getLast?_eq_some_iff.mp hgetLast
    rw [hl, dropLast_concat]
  have hidx : x.index = l.length := by
    rw [hl, length_append] at hlast
    simpa using hlast
  have hrem : removeEntry s e = .ok (.success, s.modify d fun p => { p with entries := l }) := by
    rw [removeEntry_eq hx hpar hp hdir, hl, hidx, vectorRemove_last, ok_bind]
  have hne : e ≠ d := by
    rintro rfl
    exact rooted_parent_ne h.root (h.rooted e x hx) hx hpar
  have hp1 : ((s.modify d fun p => { p with entries := l }).modify e fun x => { x with name }).entry d =
      some { p' with entries := l } := by
    rw [modify_entry, if_neg hne.symm, modify_entry, if_pos rfl, hp]
    rfl
  rw [rename, hold, ok_bind]
  simp only [hnew, ok_bind, hrem, ne_eq, not_true_eq_false, if_false]
  rw [addEntry_eq hp1 hdir]
  simp only [ok_bind, not_true_eq_false, if_false]
  congr 2
  apply State.ext
  · funext c
    simp only [modify_entry]
    by_cases hce : c = e
    · subst hce
      have hx' : { x with name, parent := some d, index := l.length } = x := by
        rw [← hname, ← hpar, ← hidx]
      simpa [hne, hx] using hx'
    · by_cases hcd : c = d
      · subst hcd
        simp [hce, hp, vectorPush, ← hl]
      · simp [hce, hcd]
  · rfl

end

/-! The conditions are exact. -/

variable {op : Operation} {r : Errno}

theorem createEntry_correct_iff (h : IsTree s) (hperform : perform s op = createEntry s path isFile)
    (hfile : ∀ p, op ≠ .fileRemove p) (hdir : ∀ p, op ≠ .dirRemove p) (hren : ∀ p q, op ≠ .rename p q) :
    (∃ r s', perform s op = .ok (r, s') ∧ Correct s op r s') ↔ FreshName s path := by
  have hcorrect : ∀ r s', IsTree s' → (r ≠ .success → s' = s) → Correct s op r s' := fun r s' htree hun =>
    ⟨htree, hun, fun p _ _ hop => absurd hop (hfile p), fun p hop => absurd hop (hdir p),
      fun p q hop => absurd hop (hren p q)⟩
  rw [hperform]
  obtain ⟨o, ho, hsome⟩ := findLastDirectory_ok h
  cases o with
  | none =>
    have hcreate : createEntry s path isFile = .ok (.enoent, s) := by rw [createEntry, ho]; rfl
    refine ⟨fun _ d name hd => ?_, fun _ => ⟨_, _, hcreate, hcorrect _ _ h fun _ => rfl⟩⟩
    cases Except.ok.inj (ho.symm.trans hd)
  | some q =>
    obtain ⟨d, name⟩ := q
    obtain ⟨x, hx, hxdir⟩ := hsome d name rfl
    have hcreate := createEntry_eq h hx hxdir ho isFile
    constructor
    · rintro ⟨r, s', hr, hc⟩ d' name' hd
      obtain ⟨rfl, rfl⟩ := Prod.mk.inj (Option.some.inj (Except.ok.inj (ho.symm.trans hd)))
      obtain ⟨rfl, rfl⟩ := Prod.mk.inj (Except.ok.inj (hcreate.symm.trans hr))
      exact (created_isTree_iff h hx hxdir).mp hc.tree
    · intro hfresh
      have htree : IsTree (created s d x name isFile) :=
        (created_isTree_iff h hx hxdir).mpr (hfresh d name ho)
      exact ⟨_, _, hcreate, hcorrect _ _ htree fun hne => absurd rfl hne⟩

theorem fileRemove_correct_iff (h : IsTree s) :
    (∃ r s', fileRemove s path = .ok (r, s') ∧ Correct s (.fileRemove path) r s') ↔
      getEntryWithPath s path = .ok none := by
  obtain ⟨o, ho, hsome⟩ := getEntryWithPath_ok h
  cases o with
  | none =>
    refine ⟨fun _ => ho, fun _ => ⟨.enoent, s, by rw [fileRemove, ho]; rfl, h, fun _ => rfl, ?_, nofun, nofun⟩⟩
    rintro p e x hop he
    obtain rfl := Operation.fileRemove.inj hop
    cases Except.ok.inj (ho.symm.trans he)
  | some e =>
    obtain ⟨x, hx⟩ := hsome e rfl
    refine ⟨?_, fun hnone => ?_⟩
    · rintro ⟨r, s', hr, hc⟩
      have hclause := hc.fileRemove path e x rfl ho hx
      rw [fileRemove, ho, ok_bind] at hr
      simp only [read_eq hx, ok_bind] at hr
      split_ifs at hr hclause with hxfile
      · cases hr
        cases hclause.1
      · obtain ⟨q, -, hr⟩ := bind_eq_ok hr
        cases hr
        exact absurd rfl hclause
    · cases Except.ok.inj (ho.symm.trans hnone)

theorem dirRemove_correct_iff (h : IsTree s) :
    (∃ r s', dirRemove s path = .ok (r, s') ∧ Correct s (.dirRemove path) r s') ↔
      Meets s (.dirRemove path) := by
  obtain ⟨o, ho, hsome⟩ := getEntryWithPath_ok h
  cases o with
  | none =>
    have hr : dirRemove s path = .ok (.enoent, s) := by rw [dirRemove, ho]; rfl
    refine ⟨fun _ e x he => ?_, fun _ => ⟨.enoent, s, hr, h, fun _ => rfl, nofun, ?_, nofun⟩⟩
    · cases Except.ok.inj (ho.symm.trans he)
    · intro p hop
      obtain rfl := Operation.dirRemove.inj hop
      refine ⟨nofun, ?_⟩
      rintro ⟨e, x, he, -⟩
      cases Except.ok.inj (ho.symm.trans he)
  | some e =>
    obtain ⟨x, hx⟩ := hsome e rfl
    cases hfile : x.isFile with
    | false =>
      have hr : dirRemove s path = .ok (.enoent, s) := by
        rw [dirRemove, ho, ok_bind]
        simp only [read_eq hx, ok_bind, hfile]
        rfl
      constructor
      · rintro ⟨r, s', hr', hc⟩ e' x' he' hx'
        obtain rfl := Option.some.inj (Except.ok.inj (ho.symm.trans he'))
        obtain rfl := Option.some.inj (hx.symm.trans hx')
        obtain ⟨rfl, rfl⟩ := Prod.mk.inj (Except.ok.inj (hr.symm.trans hr'))
        refine ⟨hfile, ?_⟩
        by_contra hnot
        obtain ⟨hempty, hroot⟩ := not_or.mp hnot
        cases (hc.dirRemove path rfl).mpr ⟨e, x, ho, hx, hfile, not_not.mp hempty, hroot⟩
      · intro hmeets
        refine ⟨.enoent, s, hr, h, fun _ => rfl, nofun, ?_, nofun⟩
        intro p hop
        obtain rfl := Operation.dirRemove.inj hop
        refine ⟨nofun, ?_⟩
        rintro ⟨e', x', he', hx', -, hempty, hroot⟩
        obtain hne | heq := (hmeets e' x' he' hx').2
        · exact absurd hempty hne
        · exact absurd heq hroot
    | true =>
      constructor
      · rintro ⟨r, s', hr, hc⟩
        exfalso
        rw [dirRemove, ho, ok_bind] at hr
        simp only [read_eq hx, ok_bind, hfile] at hr
        obtain ⟨⟨r1, s1⟩, hrem, hr⟩ := bind_eq_ok hr
        obtain ⟨hroot, -⟩ | ⟨d, p, -, -, -, -, rfl, -⟩ := removeEntry_ok h hx hrem
        · exact h.file_ne_root hx hfile hroot
        · cases hr
          obtain ⟨e', x', he', hx', hdir', -⟩ := (hc.dirRemove path rfl).mp rfl
          obtain rfl := Option.some.inj (Except.ok.inj (ho.symm.trans he'))
          obtain rfl := Option.some.inj (hx.symm.trans hx')
          rw [hfile] at hdir'
          cases hdir'
      · intro hmeets
        have hdir := (hmeets e x ho hx).1
        rw [hfile] at hdir
        cases hdir

theorem rename_correct_iff (h : IsTree s) :
    (∃ r s', rename s oldPath newPath = .ok (r, s') ∧ Correct s (.rename oldPath newPath) r s') ↔
      Meets s (.rename oldPath newPath) := by
  have hcorrect : ∀ r, Correct s (.rename oldPath newPath) r s := fun r =>
    ⟨h, fun _ => rfl, nofun, nofun, fun _ _ _ hne => absurd rfl hne⟩
  obtain ⟨o, ho, hsome⟩ := getEntryWithPath_ok h
  obtain ⟨q, hq, hqsome⟩ := findLastDirectory_ok h
  cases o with
  | none =>
    refine ⟨fun _ e d name x he => ?_, fun _ => ⟨.enoent, s, by rw [rename, ho]; rfl, hcorrect _⟩⟩
    cases Except.ok.inj (ho.symm.trans he)
  | some e =>
    obtain ⟨x, hx⟩ := hsome e rfl
    cases q with
    | none =>
      refine ⟨fun _ e d name x _ hd => ?_, fun _ => ⟨.enoent, s, ?_, hcorrect _⟩⟩
      · cases Except.ok.inj (hq.symm.trans hd)
      · rw [rename, ho, ok_bind]
        simp only [hq, ok_bind]
    | some q =>
      obtain ⟨d, name⟩ := q
      obtain ⟨p, hp, hdir⟩ := hqsome d name rfl
      constructor
      · rintro ⟨r, s', hr, hc⟩ e' d' name' x' he' hd' hx'
        obtain rfl := Option.some.inj (Except.ok.inj (ho.symm.trans he'))
        obtain ⟨rfl, rfl⟩ := Prod.mk.inj (Option.some.inj (Except.ok.inj (hq.symm.trans hd')))
        obtain rfl := Option.some.inj (hx.symm.trans hx')
        obtain ⟨-, -, -, -, -, rfl, -⟩ := rename_ok h ho hq hx hp hdir hr
        obtain rfl := hc.unchanged nofun
        exact rename_unchanged h ho hq hx hr
      · intro hmeets
        obtain ⟨hname, hpar, p', hp', hlast⟩ := hmeets e d name x ho hq hx
        exact ⟨_, _, rename_self h ho hq hx hname hpar hp' hlast, hcorrect _⟩

theorem perform_correct_iff (h : IsTree s) :
    (∃ r s', perform s op = .ok (r, s') ∧ Correct s op r s') ↔ Meets s op := by
  cases op with
  | addDev path | dirCreate path => exact createEntry_correct_iff h rfl nofun nofun nofun
  | fileRemove path => exact fileRemove_correct_iff h
  | dirRemove path => exact dirRemove_correct_iff h
  | rename oldPath newPath => exact rename_correct_iff h

theorem initDevfs_none (hc : c ≠ root) : initDevfs.entry c = none := by
  change update (fun _ => none) root _ c = none
  rw [update_of_ne hc]

theorem initDevfs_entry : initDevfs.entry c = some x ↔ c = root ∧ x = ⟨[], false, none, 0, []⟩ := by
  by_cases hc : c = root
  · subst hc
    have hroot : initDevfs.entry root = some ⟨[], false, none, 0, []⟩ := rfl
    rw [hroot]
    exact ⟨fun hx => ⟨rfl, (Option.some.inj hx).symm⟩, fun hx => congrArg some hx.2.symm⟩
  · rw [initDevfs_none hc]
    exact ⟨nofun, fun hx => absurd hx.1 hc⟩

theorem initDevfs_isTree : IsTree initDevfs where
  root := ⟨_, rfl, rfl, rfl⟩
  finite := by
    intro c hc
    refine initDevfs_none ?_
    rintro rfl
    exact absurd hc (by decide)
  children := by
    intro d x i c hx hi
    obtain ⟨-, rfl⟩ := initDevfs_entry.mp hx
    cases hi
  parents := by
    intro c y d hy hpar
    obtain ⟨-, rfl⟩ := initDevfs_entry.mp hy
    cases hpar
  rooted := by
    intro c x hx
    obtain ⟨rfl, -⟩ := initDevfs_entry.mp hx
    exact .root
  named := by
    intro c x d hx hpar
    obtain ⟨-, rfl⟩ := initDevfs_entry.mp hx
    cases hpar
  distinct := by
    intro c y c' y' d hy hy' _ _ _
    rw [(initDevfs_entry.mp hy).1, (initDevfs_entry.mp hy').1]

/-- In every run whose operations meet their conditions the entries form a tree, and the next
operation is correct exactly when it meets its condition. -/
theorem devfs_correct_iff (ops : List Operation) (s : State)
    (hrun : Run (Guarded Step Meets) initDevfs ops s) (op : Operation) :
    IsTree s ∧ ((∃ r s', perform s op = .ok (r, s') ∧ Correct s op r s') ↔ Meets s op) := by
  have htree : IsTree s := by
    refine hrun.invariant initDevfs_isTree ?_
    rintro s1 op1 s2 h1 ⟨⟨r, hr⟩, hmeets⟩
    obtain ⟨r', s', hr', hc⟩ := (perform_correct_iff h1).mpr hmeets
    obtain ⟨-, rfl⟩ := Prod.mk.inj (Except.ok.inj (hr'.symm.trans hr))
    exact hc.tree
  exact ⟨htree, perform_correct_iff htree⟩

/-- After `null` is added, removing the missing file `zero` fails and changes nothing. -/
theorem devfs_correct_missing_file :
    ∃ s, Run (Guarded Step Meets) initDevfs [.addDev [110, 117, 108, 108]] s ∧ IsTree s ∧
      ∃ r s', perform s (.fileRemove [122, 101, 114, 111]) = .ok (r, s') ∧
        Correct s (.fileRemove [122, 101, 114, 111]) r s' := by
  have hmeets : Meets initDevfs (.addDev [110, 117, 108, 108]) := by
    intro d name hd
    obtain ⟨rfl, rfl⟩ : root = d ∧ [110, 117, 108, 108] = name :=
      Prod.mk.inj (Option.some.inj (Except.ok.inj hd))
    refine ⟨nofun, ?_⟩
    intro c x hx hpar
    obtain ⟨-, rfl⟩ := initDevfs_entry.mp hx
    cases hpar
  have hrun : ∃ s, Run (Guarded Step Meets) initDevfs ([] ++ [.addDev [110, 117, 108, 108]]) s ∧
      getEntryWithPath s [122, 101, 114, 111] = .ok none :=
    ⟨_, .snoc .nil ⟨⟨.success, rfl⟩, hmeets⟩, rfl⟩
  obtain ⟨s, hrun, hnone⟩ := hrun
  obtain ⟨htree, hiff⟩ := devfs_correct_iff _ s hrun (.fileRemove [122, 101, 114, 111])
  exact ⟨s, hrun, htree, hiff.mpr hnone⟩

/-- File removal takes the directory `pts` and reports success, where directory removal reports
that there is no such directory. -/
theorem fileRemove_takes_directory :
    ∃ s s', perform initDevfs (.dirCreate [112, 116, 115]) = .ok (.success, s) ∧
      perform s (.fileRemove [112, 116, 115]) = .ok (.success, s') ∧
      getEntryWithPath s' [112, 116, 115] = .ok none ∧
      perform s (.dirRemove [112, 116, 115]) = .ok (.enoent, s) :=
  ⟨_, _, rfl, rfl, rfl, rfl⟩

end Kot.Devfs
