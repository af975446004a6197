import Kot.Lib.Bytes
import Mathlib.Data.Nat.Notation

/-! Directory entries of a FAT32 volume and the names in them: short names, long names, and how
`modules/fat32/source/core.c` writes and reads both. -/
namespace Kot.Fat

open Kot.Lib

/-- The characters of a C string before its terminating zero. -/
abbrev Name := List UInt8

/-- A `fat_short_entry_t` or a `fat_long_entry_name_t`. -/
@[ext] structure Entry where
  bytes : List UInt8
  length_eq : bytes.length = 32
  deriving DecidableEq

namespace Entry

/-- The first 32 bytes of a list that has as many. -/
def ofBytes (l : List UInt8) : Entry where
  bytes := (l ++ List.replicate 32 0).take 32
  length_eq := by simp

variable (e : Entry)

def byte (i : ℕ) : UInt8 := e.bytes.getD i 0

def field (offset size : ℕ) : ℕ := fromLe ((e.bytes.drop offset).take size)

def put (offset : ℕ) (bytes : List UInt8) : Entry := ofBytes (splice e.bytes offset bytes)

def attributes : UInt8 := e.byte 11

/-- The bit `attributes.directory`. -/
def isDirectory : Bool := e.attributes &&& 0x10 ≠ 0

def lastAccessDate : ℕ := e.field 18 2

def size : ℕ := e.field 28 4

/-- `fat_get_cluster_entry_without_root_check`, `fat_get_cluster_file`. -/
def cluster : ℕ := e.field 26 2 + e.field 20 2 * 2 ^ 16

/-- `fat_set_cluster_entry`. -/
def setCluster (cluster : ℕ) : Entry :=
  (e.put 26 (toLe 2 cluster)).put 20 (toLe 2 (cluster / 2 ^ 16))

def setSize (size : ℕ) : Entry := e.put 28 (toLe 4 size)

def setLastAccessDate (date : ℕ) : Entry := e.put 18 (toLe 2 date)

def setLastWrite (time date : ℕ) : Entry := (e.put 22 (toLe 2 time)).put 24 (toLe 2 date)

def Valid : Prop := e.byte 0 ≠ 0 ∧ e.byte 0 ≠ 0x05 ∧ e.byte 0 ≠ 0xE5

instance : Decidable e.Valid := inferInstanceAs (Decidable (_ ∧ _ ∧ _))

def IsLfn : Prop := e.attributes = 0x0F

instance : Decidable e.IsLfn := inferInstanceAs (Decidable (_ = _))

/-- `lfn->order & ~0x40`. -/
def order : ℕ := (e.byte 0 &&& 0xBF).toNat

end Entry

def toUpper (c : UInt8) : UInt8 := if 97 ≤ c ∧ c ≤ 122 then c - 32 else c

def lfnNameSize : ℕ := 13

/-- Where an entry of a long name keeps the low bytes of its characters. -/
def lfnOffsets : List ℕ := [1, 3, 5, 7, 9, 14, 16, 18, 20, 22, 24, 28, 30]

/-- `fat_parse_lfn`: the 13 bytes that it writes. -/
def fatParseLfn (lfn : Entry) : List UInt8 := lfnOffsets.map lfn.byte

/-- A `char` as `uint16_t`: it is sign-extended. -/
def widen (c : UInt8) : List UInt8 := [c, if c < 0x80 then 0 else 0xFF]

/-- The 13 characters of `fat_set_name_to_lfn`: a short rest of the name is followed by a zero
and filled up. -/
def lfnChars (name : Name) : List (List UInt8) :=
  if lfnNameSize ≤ name.length then (name.take lfnNameSize).map widen
  else name.map widen ++ [0, 0] :: List.replicate (lfnNameSize - name.length - 1) [0xFF, 0xFF]

/-- The entry of a long name that `fat_add_entry_with_path` fills. -/
def lfnEntry (order checksum : UInt8) (name : Name) : Entry :=
  let chars := lfnChars name
  .ofBytes <| [order] ++ (chars.take 5).flatten ++ [0x0F, 0, checksum] ++ ((chars.drop 5).take 6).flatten ++
    [0, 0] ++ (chars.drop 11).flatten

def fatGetLfnCheckSum (name : List UInt8) : UInt8 :=
  name.foldl (fun sum c => (if sum &&& 1 ≠ 0 then (0x80 : UInt8) else 0) + (sum >>> 1) + c) 0

def fatIsNeedLfn (name : Name) (isFile : Bool) : Bool :=
  (if isFile then 9 < name.length else 11 < name.length) || name.any fun c => c ≠ toUpper c

/-- `fat_parse_sfn`: the characters before the first zero that it writes. -/
def fatParseSfn (e : Entry) : Name :=
  let base := (e.bytes.take 8).takeWhile (· ≠ 0x20)
  let name := if e.isDirectory then base else base ++ 0x2E :: (e.bytes.drop 8).take 3
  name.takeWhile (· ≠ 0)

/-- The memory at a name: its characters, the terminating zero and what stands behind it. -/
def nameMemory (name : Name) (behind : List UInt8) : List UInt8 := name ++ 0 :: behind

/-- `fat_set_name_to_sfn`: the 11 bytes of the name. For a file the three bytes behind the first
dot are the extension; without a dot they are read behind the end of the string. -/
def fatSetNameToSfn (isDirectory : Bool) (name : Name) (behind : List UInt8) : List UInt8 :=
  let bytes :=
    if isDirectory then
      if 11 < name.length then name.take 9 ++ [0x7E, 0x31]
      else name ++ List.replicate (11 - name.length) 0x20
    else
      let base := name.takeWhile (· ≠ 0x2E)
      let extension := ((nameMemory name behind).drop (base.length + 1)).take 3
      if 8 < base.length then base.take 6 ++ [0x7E, 0x31] ++ extension
      else base ++ List.replicate (8 - base.length) 0x20 ++ extension
  bytes.map toUpper

/-- The short entry that `fat_add_entry_with_path` writes: `fat_link_entry_to_lfn` and
`fat_set_name_to_sfn` on a copy of the given one. -/
def sfnEntry (entry : Entry) (name : Name) (behind : List UInt8) : Entry :=
  (entry.put 11 [entry.attributes ||| 0x20]).put 0
    (fatSetNameToSfn entry.isDirectory name behind)

/-- The entries that `fat_add_entry_with_path` writes: those of the long name, the last piece of
the name first, and the short one. The count of the long ones is a `uint8_t`. -/
def newEntries (entry : Entry) (name : Name) (behind : List UInt8) (useLfn : Bool) : List Entry :=
  let sfn := sfnEntry entry name behind
  let count := if useLfn then (name.length + 12) / 13 % 256 else 0
  let checksum := fatGetLfnCheckSum (sfn.bytes.take 11)
  ((List.range count).map fun i =>
    lfnEntry (UInt8.ofNat (count - i) ||| if i = 0 then 0x40 else 0) checksum
      (name.drop (lfnNameSize * (count - 1 - i)))) ++ [sfn]

/-- `strchr(path, '/')` in a loop: the names before each slash and the name behind the last. -/
def splitPath : List UInt8 → List Name × Name
  | [] => ([], [])
  | c :: path =>
    let (dirs, last) := splitPath path
    if c = 0x2F then ([] :: dirs, last)
    else match dirs with
      | [] => ([], c :: last)
      | d :: dirs => ((c :: d) :: dirs, last)

/-- `strrchr(path, '/')`: the slash is part of the result; `none` without one. -/
def strrchr (path : List UInt8) : Option (List UInt8) :=
  let (dirs, last) := splitPath path
  if dirs = [] then none else some (0x2F :: last)

end Kot.Fat
