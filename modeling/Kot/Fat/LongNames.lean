import Kot.Fat.Directory
import Kot.Fat.Records

/-! The records of a long name, written by `fat_add_entry_with_path` and put together again by the
loops that read a directory. -/
namespace Kot.Fat

open Kot.Kernel Kot.Lib List

variable {name rest : Name} {entry : Entry} {behind : List UInt8} {order checksum : UInt8}

/-- The 13 low bytes of a record: the rest of the name, a zero and the filling. -/
def lfnPiece (name : Name) : List UInt8 := (name ++ 0 :: List.replicate 13 0xFF).take 13

theorem lfnPiece_of_le (h : 13 ≤ name.length) : lfnPiece name = name.take 13 := by
  rw [lfnPiece, take_append_of_le_length h]

theorem lfnChars_pairs : ∃ pairs : List (UInt8 × UInt8), pairs.length = 13 ∧
    lfnChars name = pairs.map (fun p => [p.1, p.2]) ∧ pairs.map Prod.fst = lfnPiece name := by
  suffices h : ∃ pairs : List (UInt8 × UInt8),
      lfnChars name = pairs.map (fun p => [p.1, p.2]) ∧ pairs.map Prod.fst = lfnPiece name by
    obtain ⟨pairs, hchars, hlow⟩ := h
    refine ⟨pairs, ?_, hchars, hlow⟩
    have hlen := congrArg List.length hlow
    simpa [lfnPiece] using hlen
  rw [lfnChars, lfnNameSize]
  split_ifs with h
  · refine ⟨(name.take 13).map fun c => (c, if c < 0x80 then 0 else 0xFF), ?_, ?_⟩
    · rw [map_map]
      rfl
    · rw [map_map, lfnPiece_of_le h]
      exact map_id' _
  · refine ⟨name.map (fun c => (c, if c < 0x80 then 0 else 0xFF)) ++
      (0, 0) :: List.replicate (13 - name.length - 1) (0xFF, 0xFF), ?_, ?_⟩
    · simp [widen]
    · rw [map_append, map_map, map_cons, map_replicate, lfnPiece,
        take_append, take_of_length_le (by omega),
        show 13 - name.length = 13 - name.length - 1 + 1 by omega, take_succ_cons,
        take_replicate, Nat.min_eq_left (by omega)]
      congr 1
      exact map_id' _

theorem fatParseLfn_lfnEntry :
    fatParseLfn (lfnEntry order checksum name) = lfnPiece name := by
  obtain ⟨pairs, hlen, hchars, hlow⟩ := lfnChars_pairs
  rw [← hlow, lfnEntry, hchars]
  match pairs, hlen with
  | [_, _, _, _, _, _, _, _, _, _, _, _, _], _ => rfl

def lfnCount (name : Name) : ℕ := (name.length + 12) / 13

/-- A reader that finds the given records one after the other. -/
def Presents {κ : Type} (read : ℕ → κ → Except Fault (Option Entry × κ)) (base : ℕ)
    (entries : List Entry) : Prop :=
  ∀ i e, entries[i]? = some e → ∀ k, ∃ k', read ((base + i) % 2 ^ 32) k = .ok (some e, k')

theorem newEntries_getElem? (h : name.length ≤ 255) {i : ℕ} (hi : i < lfnCount name) :
    (newEntries entry name behind true)[i]? =
      some (lfnEntry (UInt8.ofNat (lfnCount name - i) ||| if i = 0 then 0x40 else 0)
        (fatGetLfnCheckSum ((sfnEntry entry name behind).bytes.take 11))
        (name.drop (13 * (lfnCount name - 1 - i)))) := by
  have hcount : (name.length + 12) / 13 % 256 = lfnCount name :=
    Nat.mod_eq_of_lt (by omega)
  simp only [newEntries, if_true, hcount]
  rw [getElem?_append_left (by simpa using hi), getElem?_map, getElem?_range hi]
  rfl

section

variable {κ β : Type} {read : ℕ → κ → Except Fault (Option Entry × κ)} {base m : ℕ}

theorem readLfn_take (hread : Presents read base (newEntries entry name behind true))
    (h : name.length ≤ 255) (hm : m ≤ lfnCount name) (hfull : 13 * m ≤ name.length)
    (buffer : List UInt8) (k : κ) :
    ∃ k', readLfn read m ((base + (lfnCount name - m)) % 2 ^ 32) buffer k =
      .ok ((name.take (13 * m) ++ buffer).takeWhile (· ≠ 0), k') := by
  induction m generalizing buffer k with
  | zero => exact ⟨k, rfl⟩
  | succ m ih =>
    obtain ⟨k1, hk1⟩ := hread _ _
      (newEntries_getElem? h (i := lfnCount name - (m + 1)) (by omega)) k
    obtain ⟨k2, hk2⟩ := ih (by omega) (by omega)
      ((name.drop (13 * m)).take 13 ++ buffer) k1
    refine ⟨k2, ?_⟩
    have hindex : ((base + (lfnCount name - (m + 1))) % 2 ^ 32 + 1) % 2 ^ 32 =
        (base + (lfnCount name - m)) % 2 ^ 32 := by
      rw [Nat.mod_add_mod]
      congr 1
      omega
    have hplace : lfnCount name - 1 - (lfnCount name - (m + 1)) = m := by omega
    rw [readLfn, hk1]
    simp only [ok_bind, hindex, fatParseLfn_lfnEntry, hplace]
    rw [lfnPiece_of_le (by rw [length_drop]; omega), hk2, ← append_assoc,
      ← take_add, Nat.mul_succ]

theorem takeWhile_lfnPiece (h0 : 0 ∉ name) (hm : 13 * m ≤ name.length)
    (hlast : name.length ≤ 13 * m + 13) :
    (name.take (13 * m) ++ lfnPiece (name.drop (13 * m))).takeWhile (· ≠ 0) = name := by
  have hne : ∀ c ∈ name, decide (c ≠ 0) = true := by
    intro c hc
    exact decide_eq_true (ne_of_mem_of_not_mem hc h0)
  have hlen : (name.drop (13 * m)).length ≤ 13 := by rw [length_drop]; omega
  rw [lfnPiece, take_append, take_of_length_le hlen, ← append_assoc,
    take_append_drop, takeWhile_append_of_pos hne]
  cases 13 - (name.drop (13 * m)).length with
  | zero => simp
  | succ j => simp

theorem readLfn_newEntries (hread : Presents read base (newEntries entry name behind true))
    (h : name.length ≤ 255) (hpos : 0 < name.length) (h0 : 0 ∉ name) (hb : base < 2 ^ 32) {k : κ} :
    ∃ k', readLfn read (lfnCount name) base [] k = .ok (name, k') := by
  obtain ⟨m, hm⟩ : ∃ m, lfnCount name = m + 1 := ⟨lfnCount name - 1, by rw [lfnCount]; omega⟩
  have hlen : 13 * m ≤ name.length ∧ name.length ≤ 13 * m + 13 := by rw [lfnCount] at hm; omega
  obtain ⟨k1, hk1⟩ := hread _ _ (newEntries_getElem? h (i := 0) (by omega)) k
  obtain ⟨k2, hk2⟩ := readLfn_take hread h (by omega) hlen.1
    (lfnPiece (name.drop (13 * m)) ++ []) k1
  have hplace : lfnCount name - 1 - 0 = m := by omega
  have hnext : lfnCount name - m = 1 := by omega
  rw [hnext, append_nil, takeWhile_lfnPiece h0 hlen.1 hlen.2] at hk2
  rw [Nat.add_zero, Nat.mod_eq_of_lt hb, hplace] at hk1
  refine ⟨k2, ?_⟩
  rw [hm, readLfn, hk1]
  simp only [ok_bind, fatParseLfn_lfnEntry, append_nil]
  exact hk2

theorem lfnEntry_valid {n : ℕ} (hn : n ≤ 20) (checksum : UInt8) (name : Name) :
    (lfnEntry (UInt8.ofNat n ||| 0x40) checksum name).Valid ∧
      (lfnEntry (UInt8.ofNat n ||| 0x40) checksum name).order = n := by
  have hbyte : (lfnEntry (UInt8.ofNat n ||| 0x40) checksum name).byte 0 = UInt8.ofNat n ||| 0x40 :=
    rfl
  have hall : ∀ n : Fin 21, (UInt8.ofNat n ||| 0x40 ≠ 0 ∧ UInt8.ofNat n ||| 0x40 ≠ 0x05 ∧
      UInt8.ofNat n ||| 0x40 ≠ 0xE5) ∧ ((UInt8.ofNat n ||| 0x40) &&& 0xBF).toNat = n := by decide
  rw [Entry.Valid, Entry.order, hbyte]
  exact hall ⟨n, by omega⟩

theorem lfnEntry_isLfn (order checksum : UInt8) (name : Name) :
    (lfnEntry order checksum name).IsLfn := by
  obtain ⟨pairs, hlen, hchars, _⟩ := lfnChars_pairs
  rw [Entry.IsLfn, lfnEntry, hchars]
  -- the attributes stand behind the first five characters
  rcases pairs with _ | ⟨_, _ | ⟨_, _ | ⟨_, _ | ⟨_, _ | ⟨_, _⟩⟩⟩⟩⟩
  all_goals first | rfl | simp at hlen

def listReader (entries : List Entry) (i : ℕ) (k : Unit) : Except Fault (Option Entry × Unit) :=
  .ok (entries[i]?, k)

theorem presents_listReader {entries : List Entry} (h : entries.length ≤ 2 ^ 32) :
    Presents (listReader entries) 0 entries := by
  intro i e he k
  have hi := (List.getElem?_eq_some_iff.mp he).1
  refine ⟨k, ?_⟩
  rw [listReader, Nat.zero_add, Nat.mod_eq_of_lt (by omega), he]

end

end Kot.Fat
