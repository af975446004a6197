import Kot.Lib.Bytes
import Kot.Lib.Run
import Kot.Vfs.Paths

/-! The working directory of a process: `chdir` and `getcwd` (`global/syscall.c`) keep the path of
a directory without the `'/'` in front of it and with one behind it. -/
namespace Kot.Vfs

open List
open Kot.Kernel (Fault ok_bind)
open Kot.Lib (Run Guarded splice)

/-- `path[index]` in a string with its terminator. -/
def charAt (path : Str) (index : ℕ) : Except Fault UInt8 :=
  if index ≤ path.length then .ok (path[index]?.getD 0) else .error .strayAccess

/-- The part of `syscall_handler_chdir` that makes the new `cwd`. The `'/'` behind the path is
sought at the old index after the pointer has moved. -/
def newCwd (path : Str) : Except Fault Str :=
  if path.length = 0 then .error .strayAccess
  else do
    let moved := if path.head? = some slash then path.tail else path
    let last ← charAt moved (path.length - 1)
    let sizeToCopy := if last = slash then moved.length - 1 else moved.length
    .ok (moved.take sizeToCopy ++ [slash])

/-- A call of `chdir`, and whether the file system it leads to opens the directory. -/
structure Chdir where
  path : Str
  opens : Bool
  deriving DecidableEq, Repr

/-- `syscall_handler_chdir`: the path is opened with the context of the kernel, whose `cwd` is
empty, and the `cwd` of the process is not read. -/
def chdir (call : Chdir) : Except Fault (Except Errno Str) := do
  match ← getFsMountNameFromPath (some []) call.path with
  | .error _ => .ok (.error .enoent)
  | .ok _ =>
    if call.opens then do
      let cwd ← newCwd call.path
      .ok (.ok cwd)
    else .ok (.error .enoent)

/-- `syscall_handler_getcwd` on a mapped buffer. -/
def getcwd (cwd : Str) (buffer : List UInt8) : Except Errno (List UInt8) :=
  let cwdSize := cwd.length + 1
  if cwdSize ≥ buffer.length then .error .erange
  else
    let buffer := splice buffer 1 (cwd.take (cwdSize - 2))
    let buffer := buffer.set 0 slash
    .ok (buffer.set (cwdSize - 1) 0)

/-- A process with the directory that its calls have led to, named without a `'/'` behind it. The
root has the empty name. -/
structure Process where
  cwd : Str
  directory : Str
  deriving DecidableEq, Repr

/-- The first process is in `/usr/bin`. -/
def Process.first : Process where
  cwd := [117, 115, 114, 47, 98, 105, 110, 47]
  directory := [47, 117, 115, 114, 47, 98, 105, 110]

def dropSlash (path : Str) : Str := if path.getLast? = some slash then path.dropLast else path

/-- The directory that a path names in `directory`. -/
def enter (directory path : Str) : Str :=
  if Relative path then directory ++ slash :: dropSlash path else dropSlash path

/-- The directory was found. -/
def Chdir.Accepted (call : Chdir) : Prop :=
  call.opens = true ∧ checkedSize (some []) call.path ≤ maxPathSize

/-- A call that is refused changes nothing. -/
def Step (p : Process) (call : Chdir) (q : Process) : Prop :=
  (∃ e, chdir call = .ok (.error e) ∧ q = p) ∨
    (∃ cwd, chdir call = .ok (.ok cwd) ∧ q = ⟨cwd, enter p.directory call.path⟩)

/-- The relative path leads where the path behind the name of the directory leads. -/
def SameFile (p : Process) (path : Str) : Prop :=
  ∃ r, getFsMountNameFromPath (some p.cwd) path = .ok r ∧
    getFsMountNameFromPath (some p.cwd) (p.directory ++ slash :: path) = .ok r

def Process.name (p : Process) : Str := if p.directory = [] then [slash] else p.directory

/-- A buffer that has room for the name and its terminator receives them. -/
def Named (p : Process) (buffer : List UInt8) : Prop :=
  p.name.length + 1 ≤ buffer.length →
    ∃ b, getcwd p.cwd buffer = .ok b ∧ b.take (p.name.length + 1) = p.name ++ [0]

/-- The law of the working directory, up to the paths and the buffers of one length. -/
def Process.Lawful (p : Process) : Prop :=
  (∀ path, Relative path → p.cwd.length + path.length ≠ maxPathSize → SameFile p path) ∧
    ∀ buffer : List UInt8, buffer.length ≠ p.cwd.length + 1 → Named p buffer

/-- An absolute path without a `'/'` behind it. -/
def Plain (path : Str) : Prop := ¬ Relative path ∧ path.getLast? ≠ some slash

def Meets (_ : Process) (call : Chdir) : Prop := call.Accepted → Plain call.path

/-- How the string of the code belongs to the directory. -/
structure Process.Inv (p : Process) : Prop where
  cwd_eq : slash :: p.cwd = p.directory ++ [slash]
  notRoot : p.directory ≠ []

theorem Process.Inv.directory_eq {p : Process} (h : p.Inv) :
    ∃ rest, p.directory = slash :: rest ∧ p.cwd = rest ++ [slash] := by
  cases hd : p.directory with
  | nil => exact absurd hd h.notRoot
  | cons c rest =>
    have he := h.cwd_eq
    rw [hd, cons_append, List.cons.injEq] at he
    exact ⟨rest, by rw [he.1], he.2⟩

section Laws

variable {p : Process} {path : Str}

theorem Process.Inv.sameFile_iff (h : p.Inv) (hrel : Relative path) :
    SameFile p path ↔ p.cwd.length + path.length ≠ maxPathSize := by
  obtain ⟨rest, hd, hcwd⟩ := h.directory_eq
  have habs : ¬ Relative (p.directory ++ slash :: path) := by
    rw [hd]
    exact not_not.mpr rfl
  have hfull : fullPath (some p.cwd) path = p.cwd ++ path := if_pos hrel
  have hfullAbs : fullPath (some p.cwd) (p.directory ++ slash :: path) = p.cwd ++ path := by
    rw [fullPath, if_neg habs, hd, hcwd]
    simp
  have hslash : slash ∈ p.cwd ++ path := by
    rw [hcwd]
    simp
  have hsize : checkedSize (some p.cwd) path = p.cwd.length + path.length := if_pos hrel
  have hsizeAbs : checkedSize (some p.cwd) (p.directory ++ slash :: path) =
      p.cwd.length + path.length + 1 := by
    rw [checkedSize, if_neg habs, hd, hcwd]
    simp
    omega
  unfold SameFile
  rw [getFsMountNameFromPath_eq, getFsMountNameFromPath_eq, hsize, hsizeAbs, hfull, hfullAbs]
  by_cases hlong : maxPathSize < p.cwd.length + path.length
  · rw [if_pos hlong, if_pos (by omega)]
    exact ⟨fun _ => by omega, fun _ => ⟨_, rfl, rfl⟩⟩
  · have hsplit : (p.cwd ++ path).length ≤ maxPathSize := by
      rw [length_append]
      omega
    rw [if_neg hlong, splitPath_of_mem hslash hsplit, ok_bind]
    by_cases heq : p.cwd.length + path.length = maxPathSize
    · rw [if_pos (by omega)]
      refine ⟨?_, fun hne => absurd heq hne⟩
      rintro ⟨r, hr, hr'⟩
      cases hr
      cases hr'
    · rw [if_neg (by omega), splitPath_of_mem hslash hsplit, ok_bind]
      exact ⟨fun _ => heq, fun _ => ⟨_, rfl, rfl⟩⟩

/-- What `getcwd` stores: a `'/'`, the string of the code up to its last character, and the
terminator. Behind it the buffer keeps what it had. -/
theorem getcwd_eq {cwd : Str} {buffer : List UInt8} (hpos : cwd ≠ [])
    (h : cwd.length + 1 < buffer.length) :
    getcwd cwd buffer = .ok (slash :: cwd.dropLast ++ 0 :: buffer.drop (cwd.length + 1)) := by
  have hlength := length_pos_iff.mpr hpos
  have hlast : cwd.dropLast.length = cwd.length - 1 := length_dropLast
  obtain ⟨b, bs, rfl⟩ := exists_cons_of_length_pos (l := buffer) (by omega)
  rw [length_cons] at h
  obtain ⟨x, hx⟩ : ∃ x, bs.drop (cwd.length - 1) = x :: bs.drop cwd.length := by
    have hlt : cwd.length - 1 < bs.length := by omega
    refine ⟨bs[cwd.length - 1], ?_⟩
    rw [drop_eq_getElem_cons hlt, Nat.sub_add_cancel hlength]
  have hset : (slash :: cwd.dropLast ++ x :: bs.drop cwd.length).set cwd.length 0 =
      slash :: cwd.dropLast ++ 0 :: bs.drop cwd.length := by
    have hplace : cwd.length = (slash :: cwd.dropLast).length := by
      rw [length_cons, hlast]
      omega
    rw [hplace, set_append_right _ _ le_rfl, Nat.sub_self, set_cons_zero, ← hplace]
  simp only [getcwd, splice]
  rw [length_cons, if_neg (by omega), Nat.add_sub_cancel,
    show cwd.length + 1 - 2 = cwd.length - 1 by omega, ← dropLast_eq_take, hlast,
    Nat.add_comm 1, drop_succ_cons, drop_succ_cons, hx]
  exact congrArg Except.ok hset

theorem Process.Inv.named_iff (h : p.Inv) (buffer : List UInt8) :
    Named p buffer ↔ buffer.length ≠ p.cwd.length + 1 := by
  obtain ⟨rest, hd, hcwd⟩ := h.directory_eq
  have hname : p.name = slash :: rest := by rw [Process.name, if_neg h.notRoot, hd]
  have hlength : p.cwd.length = rest.length + 1 := by rw [hcwd]; simp
  unfold Named
  rw [hname, length_cons, hlength]
  constructor
  · intro hn heq
    obtain ⟨b, hb, -⟩ := hn (by omega)
    rw [getcwd, if_pos (by omega)] at hb
    cases hb
  · intro hne hroom
    have hpos : p.cwd ≠ [] := by
      rw [hcwd]
      simp
    have hget := getcwd_eq hpos (by omega : p.cwd.length + 1 < buffer.length)
    refine ⟨_, hget, ?_⟩
    have htake : p.cwd.dropLast = rest := by rw [hcwd, dropLast_concat]
    rw [htake, append_cons]
    exact take_left' (by simp)

theorem Process.Inv.lawful (h : p.Inv) : p.Lawful :=
  ⟨fun _ hrel hne => (h.sameFile_iff hrel).mpr hne, fun buffer hne => (h.named_iff buffer).mpr hne⟩

end Laws

section Calls

variable {p q : Process} {call : Chdir} {path : Str}

theorem newCwd_absolute {rest : Str} : newCwd (slash :: rest) = .ok (rest ++ [slash]) := by
  have hchar : charAt rest rest.length = .ok 0 := by
    rw [charAt, if_pos le_rfl, getElem?_eq_none le_rfl]
    rfl
  simp [newCwd, hchar, slash]

theorem newCwd_relative (hrel : Relative path) (hpos : path ≠ []) :
    newCwd path = .ok (dropSlash path ++ [slash]) := by
  have hlength := length_pos_iff.mpr hpos
  have hlast := getLast?_eq_some_getLast hpos
  have hchar : charAt path (path.length - 1) = .ok (path.getLast hpos) := by
    rw [charAt, if_pos (by omega), ← getLast?_eq_getElem?, hlast]
    rfl
  rw [newCwd, if_neg (by omega), if_neg hrel]
  dsimp only
  rw [hchar, ok_bind, dropSlash, hlast]
  simp only [Option.some.injEq]
  split_ifs with h
  · rw [dropLast_eq_take]
  · rw [take_length]

theorem chdir_of_accepted (h : call.Accepted) (hfits : NameFits (some []) call.path) :
    chdir call = newCwd call.path >>= fun cwd => .ok (.ok cwd) := by
  rw [chdir, getFsMountNameFromPath_of_fits (by have := h.2; omega) hfits, ok_bind]
  simp only [h.1, if_true]

theorem chdir_eq_ok {cwd : Str} (h : chdir call = .ok (.ok cwd)) :
    call.Accepted ∧ newCwd call.path = .ok cwd := by
  by_cases hsize : maxPathSize < checkedSize (some []) call.path
  · rw [chdir, getFsMountNameFromPath_eq, if_pos hsize] at h
    cases h
  · by_cases hfits : NameFits (some []) call.path
    · cases hopens : call.opens with
      | false =>
        rw [chdir, getFsMountNameFromPath_of_fits hsize hfits, ok_bind] at h
        simp [hopens] at h
      | true =>
        have hacc : call.Accepted := ⟨hopens, by omega⟩
        rw [chdir_of_accepted hacc hfits] at h
        obtain ⟨c, hc, hr⟩ := Kernel.bind_eq_ok h
        cases hr
        exact ⟨hacc, hc⟩
    · rw [chdir, getFsMountNameFromPath_stray hsize hfits] at h
      cases h

theorem chdir_accepted_not_refused {e : Errno} (hacc : call.Accepted) :
    chdir call ≠ .ok (.error e) := by
  intro h
  have hsize : ¬ maxPathSize < checkedSize (some []) call.path := by
    have := hacc.2
    omega
  by_cases hfits : NameFits (some []) call.path
  · rw [chdir_of_accepted hacc hfits] at h
    obtain ⟨c, -, hr⟩ := Kernel.bind_eq_ok h
    cases hr
  · rw [chdir, getFsMountNameFromPath_stray hsize hfits] at h
    cases h

theorem Plain.eq_cons (h : Plain path) :
    ∃ rest, path = slash :: rest ∧ rest ≠ [] ∧ dropSlash path = path := by
  cases path with
  | nil => exact absurd (fun he => by cases he) h.1
  | cons c rest =>
    obtain rfl : c = slash := Option.some.inj (not_not.mp h.1)
    refine ⟨rest, rfl, ?_, if_neg h.2⟩
    rintro rfl
    exact h.2 rfl

theorem inv_plain (h : Plain path) {cwd : Str} (hcwd : newCwd path = .ok cwd) :
    (⟨cwd, enter p.directory path⟩ : Process).Inv := by
  obtain ⟨rest, rfl, -, hdrop⟩ := h.eq_cons
  rw [newCwd_absolute] at hcwd
  cases hcwd
  have hdir : enter p.directory (slash :: rest) = slash :: rest := by
    rw [enter, if_neg h.1, hdrop]
  refine ⟨?_, ?_⟩
  · rw [hdir]
    rfl
  · rw [hdir]
    exact cons_ne_nil _ _

theorem Step.inv (hp : p.Inv) (h : Guarded Step Meets p call q) : q.Inv := by
  obtain ⟨⟨e, -, rfl⟩ | ⟨cwd, hcwd, rfl⟩, hmeets⟩ := h
  · exact hp
  · obtain ⟨hacc, hnew⟩ := chdir_eq_ok hcwd
    exact inv_plain (hmeets hacc) hnew

theorem root_not_lawful : ¬ (⟨[slash], []⟩ : Process).Lawful := by
  intro h
  obtain ⟨r, hr, hr'⟩ := h.1 [] (by decide) (by decide)
  have hcwd : getFsMountNameFromPath (some [slash]) [] = .ok (.ok ([slash], [slash])) := by decide
  have hroot : getFsMountNameFromPath (some [slash]) [slash] = .ok (.ok ([slash], [])) := by
    decide
  rw [hcwd] at hr
  rw [nil_append, hroot] at hr'
  rw [← hr] at hr'
  exact absurd hr' (by decide)

theorem Process.Lawful.stored_eq (h : p.Lawful) (hpos : p.cwd ≠ []) (buffer : List UInt8)
    (hcwd : p.cwd.length + 1 < buffer.length) (hname : p.name.length + 1 ≤ buffer.length) :
    (slash :: p.cwd.dropLast ++ 0 :: buffer.drop (p.cwd.length + 1)).take (p.name.length + 1) =
      p.name ++ [0] := by
  obtain ⟨b, hb, htake⟩ := h.2 buffer (by omega) hname
  rw [getcwd_eq hpos hcwd] at hb
  rwa [← Except.ok.inj hb] at htake

theorem trailing_not_lawful {rest : Str} (hrest : rest.getLast? = some slash) :
    ¬ (⟨rest ++ [slash], slash :: rest.dropLast⟩ : Process).Lawful := by
  intro h
  have hpos : rest ≠ [] := by
    rintro rfl
    cases hrest
  have hlength := length_pos_iff.mpr hpos
  have hname : (⟨rest ++ [slash], slash :: rest.dropLast⟩ : Process).name =
      slash :: rest.dropLast := if_neg (cons_ne_nil _ _)
  have hsize : (slash :: rest.dropLast).length + 1 = (slash :: rest).length := by
    simp only [length_cons, length_dropLast]
    omega
  have hstored := h.stored_eq (by simp) (List.replicate (rest.length + 3) 0) (by simp)
    (by rw [hname, hsize, length_cons, length_replicate]; omega)
  rw [hname, hsize, dropLast_concat, take_left' rfl, cons_append,
    List.cons.injEq] at hstored
  have hlast : rest.getLast? = some 0 := by rw [hstored.2, getLast?_concat]
  rw [hrest] at hlast
  exact absurd hlast (by decide)

/-- A relative path takes the place of the working directory. What `getcwd` stores is then shorter
than the name, and the rest would be what the buffer had before. -/
theorem relative_not_lawful {directory path : Str} (hpos : directory ≠ []) :
    ¬ (⟨path ++ [slash], directory ++ slash :: path⟩ : Process).Lawful := by
  intro h
  have hlength := length_pos_iff.mpr hpos
  have hname : (⟨path ++ [slash], directory ++ slash :: path⟩ : Process).name =
      directory ++ slash :: path := if_neg (by simp)
  have hcwd : (path ++ [slash]).length = path.length + 1 := length_append
  have hsize : (directory ++ slash :: path).length = directory.length + (path.length + 1) :=
    length_append
  have hbyte : ∀ x : UInt8,
      (directory ++ slash :: path ++ [0])[path.length + 2]? = some x := by
    intro x
    have hstored := h.stored_eq (by simp)
      (List.replicate (directory.length + path.length + 3) x)
      (by rw [hcwd, length_replicate]; omega)
      (by rw [hname, hsize, length_replicate]; omega)
    rw [hname, hsize, hcwd, dropLast_concat, drop_replicate] at hstored
    rw [← hstored, getElem?_take_of_lt (by omega), getElem?_append_right (by simp),
      length_cons, show path.length + 2 - (path.length + 1) = 0 + 1 by omega,
      getElem?_cons_succ, getElem?_replicate, if_pos (by omega)]
  have hne := (hbyte 0).symm.trans (hbyte 1)
  exact absurd hne (by decide)

theorem lawful_iff_plain (hp : p.Inv) (hacc : call.Accepted) :
    (∃ q, Step p call q ∧ q.Lawful) ↔ Plain call.path := by
  constructor
  · rintro ⟨q, ⟨e, he, -⟩ | ⟨cwd, hcwd, rfl⟩, hlaw⟩
    · exact absurd he (chdir_accepted_not_refused hacc)
    · obtain ⟨-, hnew⟩ := chdir_eq_ok hcwd
      by_cases hrel : Relative call.path
      · have hpos : call.path ≠ [] := by
          intro hnil
          rw [hnil] at hnew
          cases hnew
        rw [newCwd_relative hrel hpos] at hnew
        rw [← Except.ok.inj hnew, enter, if_pos hrel] at hlaw
        exact absurd hlaw (relative_not_lawful hp.notRoot)
      · obtain ⟨rest, hpath⟩ : ∃ rest, call.path = slash :: rest :=
          head?_eq_some_iff.mp (not_not.mp hrel)
        refine ⟨hrel, fun hlast => ?_⟩
        rw [hpath, newCwd_absolute] at hnew
        rw [← Except.ok.inj hnew, enter, if_neg hrel, dropSlash, if_pos hlast, hpath] at hlaw
        cases rest with
        | nil => exact root_not_lawful hlaw
        | cons c rest =>
          rw [hpath, getLast?_cons_cons] at hlast
          exact trailing_not_lawful hlast hlaw
  · intro hplain
    obtain ⟨rest, hpath, -, -⟩ := hplain.eq_cons
    have hnew : newCwd call.path = .ok (rest ++ [slash]) := by rw [hpath, newCwd_absolute]
    have hchdir : chdir call = .ok (.ok (rest ++ [slash])) := by
      rw [chdir_of_accepted hacc fun hrel => absurd hrel hplain.1, hnew, ok_bind]
    exact ⟨_, .inr ⟨_, hchdir, rfl⟩, (inv_plain hplain hnew).lawful⟩

end Calls

end Kot.Vfs
