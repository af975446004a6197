import Mathlib.Logic.Function.Basic
import Kot.Kernel.Vector
import Kot.Lib.Run

/-! The tree of `devfs`: entries on the heap that point to their parents and remember their places
in the parents' vectors. -/
namespace Kot.Devfs

open Function
open Kot.Kernel (Fault ok_bind bind_eq_ok vectorPush vectorRemove)
open Kot.Lib (Run Guarded)

abbrev Name := List UInt8

/-- A `devfs_directory_entry_t`; `entries` is the vector of a directory. -/
structure Entry where
  name : Name
  isFile : Bool
  parent : Option ℕ
  index : ℕ
  entries : List ℕ
  deriving DecidableEq, Repr

/-- The entries by their addresses, and the next address that `malloc` gives. -/
@[ext]
structure State where
  entry : ℕ → Option Entry
  next : ℕ

inductive Errno
  | success
  | enoent
  | eacces
  | enosys
  deriving DecidableEq, Repr

/-- `root_entry`. -/
def root : ℕ := 0

def State.read (s : State) (e : ℕ) : Except Fault Entry :=
  match s.entry e with
  | some x => .ok x
  | none => .error .strayAccess

def State.modify (s : State) (e : ℕ) (f : Entry → Entry) : State :=
  { s with entry := update s.entry e ((s.entry e).map f) }

def State.free (s : State) (e : ℕ) : State := { s with entry := update s.entry e none }

def initDevfs : State where
  entry := update (fun _ => none) root (some ⟨[], false, none, 0, []⟩)
  next := 1

def addEntry (s : State) (parent e : ℕ) : Except Fault (Errno × State) := do
  let p ← s.read parent
  if p.isFile then .ok (.eacces, s)
  else
    let s := s.modify e fun x => { x with parent := some parent }
    let s := s.modify parent fun x => { x with entries := vectorPush x.entries e }
    .ok (.success, s.modify e fun x => { x with index := p.entries.length })

def removeEntry (s : State) (e : ℕ) : Except Fault (Errno × State) := do
  let x ← s.read e
  match x.parent with
  | none => .ok (.eacces, s)
  | some d =>
    let p ← s.read d
    if p.isFile then .error .panic
    else
      let entries ← vectorRemove p.entries x.index
      .ok (.success, s.modify d fun p => { p with entries })

/-- The loop of `devfs_get_entry`. -/
def searchEntries (s : State) (name : Name) : List ℕ → Except Fault (Option ℕ)
  | [] => .ok none
  | c :: cs => do
    let x ← s.read c
    if x.name = name then .ok (some c) else searchEntries s name cs

def getEntry (s : State) (e : ℕ) (name : Name) : Except Fault (Option ℕ) := do
  let x ← s.read e
  if x.isFile then .error .panic
  else if name = [46] then .ok (some e)
  else if name = [46, 46] then .ok x.parent
  else searchEntries s name x.entries

/-- The components of a path: those that a slash follows, and the last one. -/
def splitPath : List UInt8 → List Name × Name
  | [] => ([], [])
  | b :: bs =>
    match splitPath bs with
    | (ds, last) =>
      if b = 47 then ([] :: ds, last)
      else
        match ds with
        | [] => ([], b :: last)
        | d :: ds => ((b :: d) :: ds, last)

/-- The loop over the components that a slash follows. -/
def walkDirectories (s : State) : List Name → ℕ → Except Fault (Option ℕ)
  | [], d => .ok (some d)
  | name :: names, d => do
    match ← getEntry s d name with
    | none => .ok none
    | some e =>
      let x ← s.read e
      if x.isFile then .ok none else walkDirectories s names e

/-- `devfs_find_last_directory_with_path_from_root`; no result stands for `ENOENT`. -/
def findLastDirectory (s : State) (path : List UInt8) : Except Fault (Option (ℕ × Name)) := do
  let x ← s.read root
  if x.isFile then .ok none
  else
    match ← walkDirectories s (splitPath path).1 root with
    | none => .ok none
    | some d => .ok (some (d, (splitPath path).2))

/-- `devfs_get_entry_with_path_from_root`; no result stands for `ENOENT`. -/
def getEntryWithPath (s : State) (path : List UInt8) : Except Fault (Option ℕ) := do
  match ← findLastDirectory s path with
  | none => .ok none
  | some (d, name) => if name ≠ [] then getEntry s d name else .ok (some d)

/-- `devfs_add_dev` for a file and `devfs_interface_dir_create` for a directory. -/
def createEntry (s : State) (path : List UInt8) (isFile : Bool) : Except Fault (Errno × State) := do
  match ← findLastDirectory s path with
  | none => .ok (.enoent, s)
  | some (parent, name) =>
    let e := s.next
    let s : State :=
      { entry := update s.entry e (some ⟨name, isFile, some parent, 0, []⟩), next := e + 1 }
    let (error, s) ← addEntry s parent e
    if error = .success then .ok (.success, s) else .error .panic

def fileRemove (s : State) (path : List UInt8) : Except Fault (Errno × State) := do
  match ← getEntryWithPath s path with
  | none => .ok (.enoent, s)
  | some e =>
    let x ← s.read e
    if x.isFile then .ok (.enoent, s)
    else
      let (_, s) ← removeEntry s e
      .ok (.success, s.free e)

/-- `devfs_interface_dir_remove`. The test for entries reads the size of a file, which is 0. -/
def dirRemove (s : State) (path : List UInt8) : Except Fault (Errno × State) := do
  match ← getEntryWithPath s path with
  | none => .ok (.enoent, s)
  | some e =>
    let x ← s.read e
    if !x.isFile then .ok (.enoent, s)
    else
      let (error, s) ← removeEntry s e
      if error = .success then .ok (.success, s.free e) else .ok (error, s)

def rename (s : State) (oldPath newPath : List UInt8) : Except Fault (Errno × State) := do
  match ← getEntryWithPath s oldPath with
  | none => .ok (.enoent, s)
  | some e =>
    match ← findLastDirectory s newPath with
    | none => .ok (.enoent, s)
    | some (parent, name) =>
      let (error, s) ← removeEntry s e
      if error ≠ .success then .error .panic
      else
        let s := s.modify e fun x => { x with name }
        let (error, s) ← addEntry s parent e
        if error ≠ .success then .error .panic else .ok (.enosys, s)

inductive Operation
  | addDev (path : List UInt8)
  | dirCreate (path : List UInt8)
  | fileRemove (path : List UInt8)
  | dirRemove (path : List UInt8)
  | rename (oldPath newPath : List UInt8)
  deriving DecidableEq, Repr

def perform (s : State) : Operation → Except Fault (Errno × State)
  | .addDev path => createEntry s path true
  | .dirCreate path => createEntry s path false
  | .fileRemove path => fileRemove s path
  | .dirRemove path => dirRemove s path
  | .rename oldPath newPath => rename s oldPath newPath

def Step (s : State) (op : Operation) (s' : State) : Prop := ∃ r, perform s op = .ok (r, s')

/-- The parents of an entry lead to the root. -/
inductive Rooted (s : State) : ℕ → Prop
  | root : Rooted s root
  | child {c d : ℕ} {x : Entry} : s.entry c = some x → x.parent = some d → Rooted s d → Rooted s c

structure IsTree (s : State) : Prop where
  root : ∃ x, s.entry root = some x ∧ x.isFile = false ∧ x.parent = none
  finite : ∀ c, s.next ≤ c → s.entry c = none
  children : ∀ d x i c, s.entry d = some x → x.entries[i]? = some c →
    ∃ y, s.entry c = some y ∧ y.parent = some d ∧ y.index = i
  parents : ∀ c y d, s.entry c = some y → y.parent = some d →
    ∃ x, s.entry d = some x ∧ x.isFile = false ∧ x.entries[y.index]? = some c
  rooted : ∀ c x, s.entry c = some x → Rooted s c
  named : ∀ c x d, s.entry c = some x → x.parent = some d → x.name ≠ []
  distinct : ∀ c y c' y' d, s.entry c = some y → s.entry c' = some y' → y.parent = some d →
    y'.parent = some d → y.name = y'.name → c = c'

def Removed (s s' : State) (e : ℕ) : Prop :=
  s'.entry e = none ∧ ∀ c ≠ e, (s'.entry c).map (fun x => (x.name, x.isFile, x.parent)) =
    (s.entry c).map (fun x => (x.name, x.isFile, x.parent))

/-- The operation keeps a tree, reports what it did, and changes nothing when it fails. -/
structure Correct (s : State) (op : Operation) (r : Errno) (s' : State) : Prop where
  tree : IsTree s'
  unchanged : r ≠ .success → s' = s
  fileRemove : ∀ path e x, op = .fileRemove path → getEntryWithPath s path = .ok (some e) →
    s.entry e = some x →
    if x.isFile then r = .success ∧ Removed s s' e else r ≠ .success
  dirRemove : ∀ path, op = .dirRemove path → (r = .success ↔ ∃ e x,
    getEntryWithPath s path = .ok (some e) ∧ s.entry e = some x ∧ x.isFile = false ∧ x.entries = [] ∧
      e ≠ Devfs.root)
  rename : ∀ oldPath newPath, op = .rename oldPath newPath → s' ≠ s → r = .success

def FreshName (s : State) (path : List UInt8) : Prop :=
  ∀ d name, findLastDirectory s path = .ok (some (d, name)) →
    name ≠ [] ∧ ∀ c x, s.entry c = some x → x.parent = some d → x.name ≠ name

/-- The operations that do what they should. -/
def Meets (s : State) : Operation → Prop
  | .addDev path => FreshName s path
  | .dirCreate path => FreshName s path
  | .fileRemove path => getEntryWithPath s path = .ok none
  | .dirRemove path => ∀ e x, getEntryWithPath s path = .ok (some e) → s.entry e = some x →
      x.isFile = false ∧ (x.entries ≠ [] ∨ e = root)
  | .rename oldPath newPath => ∀ e d name x, getEntryWithPath s oldPath = .ok (some e) →
      findLastDirectory s newPath = .ok (some (d, name)) → s.entry e = some x →
      x.name = name ∧ x.parent = some d ∧ ∃ p, s.entry d = some p ∧ x.index + 1 = p.entries.length

end Kot.Devfs
