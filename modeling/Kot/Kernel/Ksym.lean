import Kot.Kernel.Machine
import Kot.Lib.Bytes

/-! The file of kernel symbols: the tool `ksym` writes a record for each symbol with a name, and
`ksym_init` steps through the records. -/
namespace Kot.Kernel.Symbols

open List
open Kot.Lib (toLe fromLe fromLe_toLe toLe_length)

/-- A symbol of the table; its name is a string without the terminator. -/
structure Symbol where
  address : UInt64
  size : UInt64
  name : List UInt8
  terminated : 0 ∉ name

/-- `sizeof(ksym_t)`. -/
def ksymSize : ℕ := 24

/-- `add_symbol_to_list`: what is written for a symbol. -/
def addSymbolToList (sym : Symbol) : List UInt8 :=
  if sym.name.length > 0 then
    toLe 8 sym.address.toNat ++ toLe 8 sym.size.toNat ++ toLe 8 sym.name.length ++ sym.name ++ [0]
  else []

def writeSymbols (table : List Symbol) : List UInt8 := table.flatMap addSymbolToList

/-- What a pointer to a `ksym_t` shows. -/
structure KsymT where
  address : ℕ
  size : ℕ
  nameLen : ℕ
  name : List UInt8
  deriving DecidableEq, Repr

/-- A string up to its terminator, in the bytes up to the end of the file. -/
def cString : List UInt8 → Except Fault (List UInt8)
  | [] => .error .strayAccess
  | b :: l => if b = 0 then .ok [] else do
    let s ← cString l
    .ok (b :: s)

/-- The record at the start of the bytes, as `ksym_add` and the loop read it. -/
def ksymAt (bytes : List UInt8) : Except Fault KsymT :=
  if bytes.length < ksymSize then .error .strayAccess
  else do
    let name ← cString (bytes.drop ksymSize)
    .ok ⟨fromLe (bytes.take 8), fromLe ((bytes.drop 8).take 8), fromLe ((bytes.drop 16).take 8), name⟩

/-- The loop of `ksym_init` at the offset `i`; the first argument bounds the turns. -/
def initLoop (file : List UInt8) : ℕ → ℕ → Except Fault (List KsymT)
  | 0, _ => .error .endlessLoop
  | turns + 1, i =>
    if i < file.length then do
      let ksym ← ksymAt (file.drop i)
      let rest ← initLoop file turns (wadd i (wadd (wadd ksymSize ksym.nameLen) 1))
      .ok (ksym :: rest)
    else .ok []

/-- A turn goes on by a record at least. -/
def ksymInit (file : List UInt8) : Except Fault (List KsymT) := initLoop file (file.length + 1) 0

def Symbol.shown (sym : Symbol) : KsymT :=
  ⟨sym.address.toNat, sym.size.toNat, sym.name.length, sym.name⟩

theorem cString_append {name : List UInt8} (h : 0 ∉ name) {rest : List UInt8} :
    cString (name ++ 0 :: rest) = .ok name := by
  induction name with
  | nil => rfl
  | cons b name ih =>
    rw [mem_cons, not_or] at h
    rw [cons_append, cString, if_neg (fun hb => h.1 hb.symm), ih h.2, ok_bind]

theorem addSymbolToList_length {sym : Symbol} (h : 0 < sym.name.length) :
    (addSymbolToList sym).length = ksymSize + sym.name.length + 1 := by
  simp [addSymbolToList, h, ksymSize]
  omega

theorem ksymAt_addSymbolToList {sym : Symbol} (h : 0 < sym.name.length) (hlt : sym.name.length < 2 ^ 64)
    {rest : List UInt8} : ksymAt (addSymbolToList sym ++ rest) = .ok sym.shown := by
  have hlen := addSymbolToList_length h
  have hbytes : addSymbolToList sym ++ rest = toLe 8 sym.address.toNat ++ (toLe 8 sym.size.toNat ++
      (toLe 8 sym.name.length ++ (sym.name ++ 0 :: rest))) := by
    simp [addSymbolToList, h]
  have hword : ∀ n < 2 ^ 64, fromLe (toLe 8 n) = n := fun n hn => by
    rw [fromLe_toLe]
    omega
  rw [ksymAt, if_neg (by rw [length_append, hlen]; omega), hbytes]
  simp only [ksymSize, drop_append, toLe_length, take_append, drop_of_length_le, take_of_length_le,
    Nat.le_refl, Nat.reduceLeDiff, Nat.reduceSub, Nat.zero_sub, nil_append, append_nil, drop_zero, take_zero,
    cString_append sym.terminated, ok_bind, hword _ sym.address.toNat_lt, hword _ sym.size.toNat_lt,
    hword _ hlt]
  rfl

theorem initLoop_eq {file : List UInt8} (hfit : file.length < 2 ^ 64) {table : List Symbol} {turns i : ℕ}
    (hfile : file.drop i = writeSymbols table) (hi : i ≤ file.length) (hturns : file.length < turns + i) :
    initLoop file turns i =
      .ok ((table.filter fun sym => 0 < sym.name.length).map Symbol.shown) := by
  obtain ⟨turns, rfl⟩ : ∃ t, turns = t + 1 := ⟨turns - 1, by omega⟩
  induction table generalizing turns i with
  | nil =>
    have := congrArg length hfile
    rw [length_drop, writeSymbols, flatMap_nil, length_nil] at this
    rw [initLoop, if_neg (by omega)]
    rfl
  | cons sym table ih =>
    rw [writeSymbols, flatMap_cons, ← writeSymbols] at hfile
    by_cases hname : 0 < sym.name.length
    · have hlen := congrArg length hfile
      rw [length_drop, length_append, addSymbolToList_length hname, ksymSize] at hlen
      have hnext : wadd i (wadd (wadd ksymSize sym.shown.nameLen) 1) = i + (addSymbolToList sym).length := by
        rw [addSymbolToList_length hname]
        simp only [wadd, Symbol.shown, ksymSize]
        omega
      have hrest : file.drop (i + (addSymbolToList sym).length) = writeSymbols table := by
        rw [← drop_drop, hfile, drop_left]
      rw [initLoop, if_pos (by omega), hfile, ksymAt_addSymbolToList hname (by omega), ok_bind, hnext,
        filter_cons_of_pos (by simpa using hname)]
      rw [addSymbolToList_length hname, ksymSize] at hrest ⊢
      obtain ⟨turns, rfl⟩ : ∃ t, turns = t + 1 := ⟨turns - 1, by omega⟩
      rw [ih hrest (by omega) turns (by omega), ok_bind]
      rfl
    · rw [filter_cons_of_neg (by simpa using hname)]
      rw [addSymbolToList, if_neg hname, nil_append] at hfile
      exact ih hfile hi turns hturns

/-- Reading the file of a symbol table, as far as it fits into memory, gives the symbols that have a
name, and stays inside the file. -/
theorem ksymInit_writeSymbols (table : List Symbol) (hfit : (writeSymbols table).length < 2 ^ 64) :
    ksymInit (writeSymbols table) =
      .ok ((table.filter fun sym => 0 < sym.name.length).map Symbol.shown) :=
  initLoop_eq hfit rfl (Nat.zero_le _) (Nat.lt_succ_self _)

theorem ksymInit_two :
    ksymInit (writeSymbols [⟨1, 2, [97], by decide⟩, ⟨0, 0, [], by decide⟩, ⟨3, 4, [98, 99], by decide⟩]) =
      .ok [⟨1, 2, 1, [97]⟩, ⟨3, 4, 2, [98, 99]⟩] :=
  ksymInit_writeSymbols [⟨1, 2, [97], by decide⟩, ⟨0, 0, [], by decide⟩, ⟨3, 4, [98, 99], by decide⟩] (by decide)

end Kot.Kernel.Symbols
