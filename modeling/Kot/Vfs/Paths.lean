import Mathlib.Data.List.TakeWhile
import Mathlib.Tactic.SplitIfs
import Kot.Kernel.Machine

/-! How a path becomes a mounted file system and a path inside it (`vfs/core.c`), and what the
file systems do with that path before they use it. -/
namespace Kot.Vfs

open List
open Kot.Kernel (Fault ok_bind)

abbrev Str := List UInt8

def slash : UInt8 := 47

/-- `VFS_MAX_PATH_SIZE`; the buffers for paths have one byte more. -/
def maxPathSize : ℕ := 4096

inductive Errno
  | enametoolong
  | einval
  | enoent
  | erange
  deriving DecidableEq, Repr

/-- `strcat` to a buffer for paths: the terminator is the last byte that is written. -/
def strcat (destination source : Str) : Except Fault Str :=
  if destination.length + source.length ≤ maxPathSize then .ok (destination ++ source)
  else .error .strayAccess

def strcpy (source : Str) : Except Fault Str := strcat [] source

/-- `strncpy` behind what the buffer begins with. -/
def strncpy (destination source : Str) (num : ℕ) : Except Fault Str :=
  strcat destination (source.take num)

/-- `strchr` for `'/'`. -/
def strchr (path : Str) : Option Str :=
  match path.dropWhile (· ≠ slash) with
  | [] => none
  | c :: rest => some (c :: rest)

/-- The part of `get_fs_mount_name_from_path` behind the checks of the sizes. -/
def splitPath (path : Str) (pathSize : ℕ) : Except Fault (Str × Str) :=
  match strchr path with
  | some tmp => do
    let fsMountName ← strncpy [slash] path (path.length - tmp.length)
    let fsRelativePath ← strcpy tmp
    .ok (fsMountName, fsRelativePath)
  | none => do
    let fsMountName ← strncpy [slash] path pathSize
    .ok (fsMountName, [])

/-- `get_fs_mount_name_from_path`; `cwd` is the one of the context, if there is a context. -/
def getFsMountNameFromPath (cwd : Option Str) (path : Str) :
    Except Fault (Except Errno (Str × Str)) :=
  if path.head? ≠ some slash then
    match cwd with
    | some cwd =>
      if cwd.length + path.length > maxPathSize then .ok (.error .enametoolong)
      else do
        let fullPath ← strcat [] cwd
        let fullPath ← strcat fullPath path
        let names ← splitPath fullPath path.length
        .ok (.ok names)
    | none =>
      if path.length > maxPathSize then .ok (.error .enametoolong)
      else do
        let names ← splitPath path path.length
        .ok (.ok names)
  else if path.length > maxPathSize then .ok (.error .enametoolong)
  else do
    let names ← splitPath path.tail path.length
    .ok (.ok names)

/-- The body that the converters of the file systems share. The empty string has its terminator
at the index 0, and the last character is sought in front of it. -/
def convertPath (str : Str) : Except Fault Str :=
  match str.getLast? with
  | none => .error .strayAccess
  | some c =>
    let str := if c = slash then str.dropLast else str
    .ok (if str.head? = some slash then str.tail else str)

def fatInterfaceConvertPath : Str → Except Fault Str := convertPath

def devfsInterfaceConvertPath : Str → Except Fault Str := convertPath

def initrdInterfaceConvertPath : Str → Except Fault Str := convertPath

/-- The mounted file systems. `vfs` stands for those whose operation takes the path as it is, and
`system` for a directory of the system disk that is mounted under its own path. -/
inductive Fs
  | vfs
  | fat
  | devfs
  | initrd
  | system
  deriving DecidableEq, Repr

/-- The buffer that each of the `system_*` operations fills. -/
def systemPath (internalData path : Str) : Except Fault Str := do
  let fsRelativePath ← strcpy internalData
  strcat fsRelativePath path

/-- An operation of a file system up to the converted path. -/
def Fs.enter (internalData : Str) : Fs → Str → Except Fault Str
  | .vfs, path => .ok path
  | .fat, path => fatInterfaceConvertPath path
  | .devfs, path => devfsInterfaceConvertPath path
  | .initrd, path => initrdInterfaceConvertPath path
  | .system, path => systemPath internalData path >>= fatInterfaceConvertPath

/-- `get_fs_and_relative_path` and then the operation of the file system. The name under which a
directory of the system disk is mounted is its `internal_data`. -/
def lookup (mounts : Str → Option Fs) (cwd : Option Str) (path : Str) :
    Except Fault (Except Errno Str) := do
  match ← getFsMountNameFromPath cwd path with
  | .error e => .ok (.error e)
  | .ok (fsMountName, fsRelativePath) =>
    match mounts fsMountName with
    | none => .ok (.error .einval)
    | some fs =>
      let converted ← fs.enter fsMountName fsRelativePath
      .ok (.ok converted)

def Relative (path : Str) : Prop := path.head? ≠ some slash

instance (path : Str) : Decidable (Relative path) := inferInstanceAs (Decidable (_ ≠ _))

def fullPath (cwd : Option Str) (path : Str) : Str :=
  if Relative path then cwd.getD [] ++ path else path.tail

def checkedSize (cwd : Option Str) (path : Str) : ℕ :=
  if Relative path then (cwd.getD []).length + path.length else path.length

/-- The name that the string begins with, up to its first `'/'`. A string without one is cut to
the length of the path that was given. -/
def mountName (cwd : Option Str) (path : Str) : Str :=
  slash :: if slash ∈ fullPath cwd path then (fullPath cwd path).takeWhile (· ≠ slash)
    else (fullPath cwd path).take path.length

def relativePath (cwd : Option Str) (path : Str) : Str := (fullPath cwd path).dropWhile (· ≠ slash)

section Strings

variable {path source : Str}

theorem strcat_of_le {destination : Str} (h : destination.length + source.length ≤ maxPathSize) :
    strcat destination source = .ok (destination ++ source) := if_pos h

theorem strcat_of_lt {destination : Str} (h : maxPathSize < destination.length + source.length) :
    strcat destination source = .error .strayAccess := if_neg (by omega)

theorem strchr_of_mem (h : slash ∈ path) : strchr path = some (path.dropWhile (· ≠ slash)) := by
  unfold strchr
  cases hd : path.dropWhile (· ≠ slash) with
  | nil =>
    have hall := dropWhile_eq_nil_iff.mp hd slash h
    simp at hall
  | cons c rest => rfl

theorem strchr_of_notMem (h : slash ∉ path) : strchr path = none := by
  unfold strchr
  have hd : path.dropWhile (· ≠ slash) = [] := by
    rw [dropWhile_eq_nil_iff]
    intro c hc
    simpa using fun he : c = slash => h (he ▸ hc)
  rw [hd]

theorem take_name : path.take (path.length - (path.dropWhile (· ≠ slash)).length) =
      path.takeWhile (· ≠ slash) := by
  have hsplit := takeWhile_append_dropWhile (p := (· ≠ slash)) (l := path)
  have hlength := congrArg List.length hsplit
  rw [length_append] at hlength
  calc path.take (path.length - (path.dropWhile (· ≠ slash)).length)
      = (path.takeWhile (· ≠ slash) ++ path.dropWhile (· ≠ slash)).take
          (path.length - (path.dropWhile (· ≠ slash)).length) := by rw [hsplit]
    _ = path.takeWhile (· ≠ slash) := take_left' (by omega)

theorem splitPath_of_mem {n : ℕ} (h : slash ∈ path) (hn : path.length ≤ maxPathSize) :
    splitPath path n = .ok (slash :: path.takeWhile (· ≠ slash), path.dropWhile (· ≠ slash)) := by
  have hlength := congrArg List.length
    (takeWhile_append_dropWhile (p := (· ≠ slash)) (l := path))
  rw [length_append] at hlength
  have hpos : 0 < (path.dropWhile (· ≠ slash)).length := by
    rw [length_pos_iff]
    intro hd
    simpa using dropWhile_eq_nil_iff.mp hd slash h
  have hname : [slash].length + (path.takeWhile (· ≠ slash)).length ≤ maxPathSize := by
    rw [length_singleton]
    omega
  have hrest : ([] : Str).length + (path.dropWhile (· ≠ slash)).length ≤ maxPathSize := by
    rw [length_nil]
    omega
  simp only [splitPath, strchr_of_mem h, strncpy, take_name, strcpy, strcat_of_le hname,
    strcat_of_le hrest, ok_bind, nil_append, singleton_append]

theorem splitPath_of_notMem {n : ℕ} (h : slash ∉ path)
    (hn : 1 + (path.take n).length ≤ maxPathSize) :
    splitPath path n = .ok (slash :: path.take n, []) := by
  have hname : [slash].length + (path.take n).length ≤ maxPathSize := hn
  simp only [splitPath, strchr_of_notMem h, strncpy, strcat_of_le hname, ok_bind,
    singleton_append]

theorem splitPath_stray {n : ℕ} (h : slash ∉ path) (hn : maxPathSize < 1 + (path.take n).length) :
    splitPath path n = .error .strayAccess := by
  have hname : maxPathSize < [slash].length + (path.take n).length := hn
  simp only [splitPath, strchr_of_notMem h, strncpy, strcat_of_lt hname]
  rfl

theorem systemPath_of_le {internalData : Str}
    (h : internalData.length + path.length ≤ maxPathSize) :
    systemPath internalData path = .ok (internalData ++ path) := by
  have hfirst : ([] : Str).length + internalData.length ≤ maxPathSize := by
    rw [length_nil]
    omega
  rw [systemPath, strcpy, strcat_of_le hfirst, ok_bind, nil_append, strcat_of_le h]

theorem systemPath_stray {internalData : Str}
    (h : maxPathSize < internalData.length + path.length) :
    systemPath internalData path = .error .strayAccess := by
  unfold systemPath strcpy
  by_cases hfirst : ([] : Str).length + internalData.length ≤ maxPathSize
  · rw [strcat_of_le hfirst, ok_bind, nil_append, strcat_of_lt h]
  · rw [strcat_of_lt (by omega)]
    rfl

theorem convertPath_returns : (∃ t, convertPath path = .ok t) ↔ path ≠ [] := by
  rcases eq_nil_or_concat path with rfl | ⟨init, c, rfl⟩
  · simp [convertPath]
  · simp [convertPath]

end Strings

section Lookup

variable {mounts : Str → Option Fs} {cwd : Option Str} {path : Str}

theorem getFsMountNameFromPath_eq :
    getFsMountNameFromPath cwd path =
      if maxPathSize < checkedSize cwd path then .ok (.error .enametoolong)
      else splitPath (fullPath cwd path) path.length >>= fun names => .ok (.ok names) := by
  unfold getFsMountNameFromPath checkedSize fullPath
  by_cases h : Relative path
  · have hhead : path.head? ≠ some slash := h
    rw [if_pos hhead, if_pos h, if_pos h]
    cases cwd with
    | none => simp
    | some cwd =>
      by_cases hsize : cwd.length + path.length > maxPathSize
      · simp only [Option.getD_some]
        rw [if_pos hsize, if_pos hsize]
      · have hcwd : ([] : Str).length + cwd.length ≤ maxPathSize := by
          rw [length_nil]
          omega
        have hpath : cwd.length + path.length ≤ maxPathSize := by omega
        simp only [Option.getD_some]
        rw [if_neg hsize, if_neg hsize, strcat_of_le hcwd, nil_append, ok_bind,
          strcat_of_le hpath, ok_bind]
  · have hhead : ¬ path.head? ≠ some slash := h
    rw [if_neg hhead, if_neg h, if_neg h]

theorem fullPath_length_le (h : ¬ maxPathSize < checkedSize cwd path) :
    (fullPath cwd path).length ≤ maxPathSize := by
  unfold checkedSize at h
  unfold fullPath
  split_ifs at h ⊢
  · rw [length_append]
    omega
  · rw [length_tail]
    omega

/-- The name of a string without `'/'` fits behind the `'/'` that is put before it. -/
def NameFits (cwd : Option Str) (path : Str) : Prop :=
  Relative path → slash ∉ fullPath cwd path → path.length < maxPathSize

section
variable (h : ¬ maxPathSize < checkedSize cwd path)
include h

theorem nameFits_iff (hslash : slash ∉ fullPath cwd path) :
    1 + ((fullPath cwd path).take path.length).length ≤ maxPathSize ↔ NameFits cwd path := by
  by_cases hrel : Relative path
  · have hlength : ((fullPath cwd path).take path.length).length = path.length := by
      rw [length_take, fullPath, if_pos hrel, length_append]
      omega
    rw [hlength]
    exact ⟨fun hn _ _ => by omega, fun hn => by have := hn hrel hslash; omega⟩
  · refine ⟨fun _ h' => absurd h' hrel, fun _ => ?_⟩
    have habs := not_not.mp hrel
    have hpos : 0 < path.length := by
      rw [length_pos_iff]
      rintro rfl
      cases habs
    rw [checkedSize, if_neg hrel] at h
    rw [length_take, fullPath, if_neg hrel, length_tail]
    omega

theorem getFsMountNameFromPath_of_fits (hfits : NameFits cwd path) :
    getFsMountNameFromPath cwd path = .ok (.ok (mountName cwd path, relativePath cwd path)) := by
  rw [getFsMountNameFromPath_eq, if_neg h]
  unfold mountName relativePath
  by_cases hslash : slash ∈ fullPath cwd path
  · rw [splitPath_of_mem hslash (fullPath_length_le h), if_pos hslash, ok_bind]
  · have hdrop : (fullPath cwd path).dropWhile (· ≠ slash) = [] := by
      rw [dropWhile_eq_nil_iff]
      intro c hc
      simpa using fun he : c = slash => hslash (he ▸ hc)
    rw [splitPath_of_notMem hslash ((nameFits_iff h hslash).mpr hfits), if_neg hslash, ok_bind,
      hdrop]

theorem getFsMountNameFromPath_stray (hfits : ¬ NameFits cwd path) :
    getFsMountNameFromPath cwd path = .error .strayAccess := by
  have hslash : slash ∉ fullPath cwd path := fun hmem => hfits fun _ hn => absurd hmem hn
  have hlong : maxPathSize < 1 + ((fullPath cwd path).take path.length).length := by
    by_contra hn
    exact hfits ((nameFits_iff h hslash).mp (by omega))
  rw [getFsMountNameFromPath_eq, if_neg h, splitPath_stray hslash hlong]
  rfl

end

/-- What a path needs in the file system it leads to: a converter needs a path of at least one
character, and behind the name of a directory of the system disk the whole path is stored once
more. -/
def EnterFits (cwd : Option Str) (path : Str) : Fs → Prop
  | .vfs => True
  | .fat | .devfs | .initrd => slash ∈ fullPath cwd path
  | .system => Relative path → slash ∈ fullPath cwd path →
      (fullPath cwd path).length < maxPathSize

/-- The paths that are looked up within the buffers. -/
def Fits (mounts : Str → Option Fs) (cwd : Option Str) (path : Str) : Prop :=
  NameFits cwd path ∧ ∀ fs, mounts (mountName cwd path) = some fs → EnterFits cwd path fs

theorem relativePath_ne_nil : relativePath cwd path ≠ [] ↔ slash ∈ fullPath cwd path := by
  unfold relativePath
  rw [ne_eq, dropWhile_eq_nil_iff]
  constructor
  · intro h
    by_contra hn
    exact h fun c hc => by simpa using fun he : c = slash => hn (he ▸ hc)
  · intro h hall
    simpa using hall slash h

theorem mountName_append_length (h : ¬ maxPathSize < checkedSize cwd path)
    (hfits : NameFits cwd path) :
    (mountName cwd path).length + (relativePath cwd path).length ≤ maxPathSize ↔
      EnterFits cwd path .system := by
  unfold mountName relativePath EnterFits
  by_cases hslash : slash ∈ fullPath cwd path
  · have hlength := congrArg List.length
      (takeWhile_append_dropWhile (p := (· ≠ slash)) (l := fullPath cwd path))
    rw [length_append] at hlength
    rw [if_pos hslash, length_cons]
    by_cases hrel : Relative path
    · exact ⟨fun hn _ _ => by omega, fun hn => by have := hn hrel hslash; omega⟩
    · refine ⟨fun _ h' => absurd h' hrel, fun _ => ?_⟩
      have hfull : (fullPath cwd path).length = path.length - 1 := by
        rw [fullPath, if_neg hrel, length_tail]
      have hpos := length_pos_of_mem hslash
      rw [checkedSize, if_neg hrel] at h
      omega
  · have hname := (nameFits_iff h hslash).mpr hfits
    have hrest : (fullPath cwd path).dropWhile (· ≠ slash) = [] :=
      not_not.mp (mt relativePath_ne_nil.mp hslash)
    rw [if_neg hslash, length_cons, hrest, length_nil]
    exact ⟨fun _ _ hmem => absurd hmem hslash, fun _ => by omega⟩

theorem enter_returns (h : ¬ maxPathSize < checkedSize cwd path) (hfits : NameFits cwd path)
    (fs : Fs) :
    (∃ t, fs.enter (mountName cwd path) (relativePath cwd path) = .ok t) ↔
      EnterFits cwd path fs := by
  cases fs with
  | vfs => exact ⟨fun _ => trivial, fun _ => ⟨_, rfl⟩⟩
  | fat | devfs | initrd => exact convertPath_returns.trans relativePath_ne_nil
  | system =>
    rw [← mountName_append_length h hfits]
    change (∃ t, (systemPath _ _ >>= fatInterfaceConvertPath) = .ok t) ↔ _
    by_cases hboth :
        (mountName cwd path).length + (relativePath cwd path).length ≤ maxPathSize
    · rw [systemPath_of_le hboth, ok_bind]
      refine ⟨fun _ => hboth, fun _ => convertPath_returns.mpr ?_⟩
      simp [mountName]
    · refine ⟨?_, fun h' => absurd h' hboth⟩
      rintro ⟨t, ht⟩
      rw [systemPath_stray (by omega)] at ht
      cases ht

/-- A path is looked up within the buffers exactly if its name fits behind a `'/'`, if a file
system with a converter is given a path that is not empty, and if the path fits into the buffer
where the name of its directory of the system disk is put before it. -/
theorem lookup_iff (mounts : Str → Option Fs) (cwd : Option Str) (path : Str) :
    (getFsMountNameFromPath cwd path = .ok (.error .enametoolong) ↔
        maxPathSize < checkedSize cwd path) ∧
      ((∃ r, lookup mounts cwd path = .ok r) ↔
        (checkedSize cwd path ≤ maxPathSize → Fits mounts cwd path)) := by
  by_cases h : maxPathSize < checkedSize cwd path
  · have hnames : getFsMountNameFromPath cwd path = .ok (.error .enametoolong) := by
      rw [getFsMountNameFromPath_eq, if_pos h]
    refine ⟨⟨fun _ => h, fun _ => hnames⟩, fun _ hn => by omega, fun _ => ?_⟩
    exact ⟨_, by rw [lookup, hnames, ok_bind]⟩
  · by_cases hfits : NameFits cwd path
    · have hnames := getFsMountNameFromPath_of_fits h hfits
      refine ⟨⟨fun he => ?_, fun h' => absurd h' h⟩, ?_⟩
      · rw [hnames] at he
        cases he
      · rw [lookup, hnames, ok_bind]
        dsimp only
        cases hfs : mounts (mountName cwd path) with
        | none =>
          refine ⟨fun _ _ => ⟨hfits, fun fs hsome => ?_⟩, fun _ => ⟨_, rfl⟩⟩
          rw [hfs] at hsome
          cases hsome
        | some fs =>
          have henter := enter_returns h hfits fs
          constructor
          · rintro ⟨r, hr⟩ -
            obtain ⟨t, ht, -⟩ := Kernel.bind_eq_ok hr
            refine ⟨hfits, fun fs' hsome => ?_⟩
            obtain rfl := Option.some.inj (hfs.symm.trans hsome)
            exact henter.mp ⟨t, ht⟩
          · intro hall
            obtain ⟨t, ht⟩ := henter.mpr ((hall (by omega)).2 fs hfs)
            exact ⟨.ok t, by simp only [ht, ok_bind]⟩
    · have hnames := getFsMountNameFromPath_stray h hfits
      refine ⟨⟨fun he => ?_, fun h' => absurd h' h⟩, ?_, fun hall => ?_⟩
      · rw [hnames] at he
        cases he
      · rintro ⟨r, hr⟩
        rw [lookup, hnames] at hr
        cases hr
      · exact absurd (hall (by omega)).1 hfits

/-- The root of a mounted partition is named without a `'/'` behind it, and the converter then
looks in front of an empty string. The kernel gives a name of 4096 characters, and a program in
`/usr/bin` one of 4088: both are accepted, and the terminator is stored behind the buffer. -/
theorem lookup_strays :
    lookup (fun name => if name = [47, 115, 100, 97] then some .fat else none) (some [])
        [47, 115, 100, 97] = .error .strayAccess ∧
      lookup (fun _ => none) (some []) (List.replicate 4096 97) = .error .strayAccess ∧
      lookup (fun name => if name = [47, 117, 115, 114] then some .system else none)
        (some [117, 115, 114, 47, 98, 105, 110, 47]) (List.replicate 4088 97) =
          .error .strayAccess := by
  refine ⟨by decide, by decide +kernel, by decide +kernel⟩

end Lookup

end Kot.Vfs
