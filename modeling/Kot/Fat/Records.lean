import Kot.Fat.Names

/-! What a store into a directory record leaves in its fields. -/
namespace Kot.Fat.Entry

open Kot.Lib List

variable {e : Entry} {l d : List UInt8} {a b i n : ℕ}

theorem ofBytes_bytes (h : l.length = 32) : (ofBytes l).bytes = l := take_left' h

theorem ofBytes_byte (h : i < 32) : (ofBytes l).byte i = l.getD i 0 := by
  show ((l ++ List.replicate 32 0).take 32).getD i 0 = _
  rw [getD_eq_getElem?_getD, getElem?_take_of_lt h, getD_eq_getElem?_getD]
  rcases Nat.lt_or_ge i l.length with hi | hi
  · rw [getElem?_append_left hi]
  · rw [getElem?_append_right hi, getElem?_eq_none hi]
    cases hr : (List.replicate 32 (0 : UInt8))[i - l.length]? with
    | none => rfl
    | some x => exact eq_of_mem_replicate (mem_of_getElem? hr)

theorem put_bytes (h : a + d.length ≤ 32) : (e.put a d).bytes = splice e.bytes a d :=
  ofBytes_bytes (by rw [splice_length (by rw [e.length_eq]; exact h), e.length_eq])

theorem field_put_self (h : a + d.length ≤ 32) : (e.put a d).field a d.length = fromLe d := by
  rw [field, put_bytes h, take_drop_splice (by rw [e.length_eq]; omega) rfl]

theorem field_put_toLe {w : ℕ} (h : a + w ≤ 32) :
    (e.put a (toLe w n)).field a w = n % 256 ^ w := by
  have hput := field_put_self (e := e) (d := toLe w n) (by rw [toLe_length]; exact h)
  rwa [toLe_length, fromLe_toLe] at hput

theorem field_put_of_disjoint (h : a + d.length ≤ 32) (hb : b + n ≤ a ∨ a + d.length ≤ b) :
    (e.put a d).field b n = e.field b n := by
  rw [field, field, put_bytes h]
  congr 1
  apply ext_getElem?
  intro i
  rw [getElem?_take, getElem?_take, getElem?_drop, getElem?_drop,
    getElem?_splice (by rw [e.length_eq]; exact h)]
  split_ifs with hi hin
  · omega
  · rfl
  · rfl

theorem byte_put (h : a + d.length ≤ 32) :
    (e.put a d).byte i = if a ≤ i ∧ i < a + d.length then d.getD (i - a) 0 else e.byte i := by
  rw [byte, put_bytes h, getD_eq_getElem?_getD, getElem?_splice (by rw [e.length_eq]; exact h)]
  split_ifs
  · rw [getD_eq_getElem?_getD]
  · rw [byte, getD_eq_getElem?_getD]

end Kot.Fat.Entry

namespace Kot.Fat

theorem fatSetNameToSfn_length_le (isDirectory : Bool) (name : Name) (rest : List UInt8) :
    (fatSetNameToSfn isDirectory name rest).length ≤ 11 := by
  simp only [fatSetNameToSfn, List.length_map]
  split_ifs <;> simp only [List.length_append, List.length_take, List.length_replicate,
    List.length_cons, List.length_nil] <;> omega

theorem sfnEntry_field {e : Entry} {name : Name} {rest : List UInt8} {i n : ℕ} (hi : 12 ≤ i) :
    (sfnEntry e name rest).field i n = e.field i n := by
  have hlen := fatSetNameToSfn_length_le e.isDirectory name rest
  rw [sfnEntry, Entry.field_put_of_disjoint (by omega) (by omega),
    Entry.field_put_of_disjoint (by simp) (by simp; omega)]

theorem sfnEntry_attributes (e : Entry) (name : Name) (rest : List UInt8) :
    (sfnEntry e name rest).attributes = e.attributes ||| 0x20 := by
  have hlen := fatSetNameToSfn_length_le e.isDirectory name rest
  rw [sfnEntry, Entry.attributes, Entry.byte_put (by omega), if_neg (by omega),
    Entry.byte_put (by simp), if_pos (by simp)]
  rfl

theorem forall_byte {p : UInt8 → Prop} (h : ∀ n : Fin 256, p (.ofNat n)) (a : UInt8) : p a := by
  have ha := h ⟨a.toNat, a.toNat_lt⟩
  rwa [UInt8.ofNat_toNat] at ha

theorem sfnEntry_not_isLfn (e : Entry) (name : Name) (rest : List UInt8) :
    ¬ (sfnEntry e name rest).IsLfn := by
  rw [Entry.IsLfn, sfnEntry_attributes]
  exact forall_byte (p := fun a => a ||| 0x20 ≠ 0x0F) (by decide +kernel) e.attributes

theorem sfnEntry_isDirectory (e : Entry) (name : Name) (rest : List UInt8) :
    (sfnEntry e name rest).isDirectory = e.isDirectory := by
  rw [Entry.isDirectory, Entry.isDirectory, sfnEntry_attributes]
  exact forall_byte (p := fun a => decide ((a ||| 0x20) &&& 0x10 ≠ 0) = decide (a &&& 0x10 ≠ 0))
    (by decide +kernel) e.attributes

end Kot.Fat
