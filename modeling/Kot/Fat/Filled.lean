import Kot.Fat.ChainWrite
import Kot.Fat.Scan

/-! Directories that are filled up to a place: their records as bytes, their size, and scans that
go on behind the place. -/
namespace Kot.Fat

open Kot.Kernel Kot.Lib List

variable {ctx : Context} {v : Volume} {cs : List ℕ}

def toRecords (bytes : List UInt8) : List Entry := (List.range (bytes.length / 32)).map (entryAt bytes)

@[simp] theorem toRecords_length {bytes : List UInt8} : (toRecords bytes).length = bytes.length / 32 := by
  rw [toRecords, length_map, length_range]

theorem Entry.ofBytes_append {l : List UInt8} (h : 32 ≤ l.length) (r : List UInt8) :
    Entry.ofBytes (l ++ r) = .ofBytes l := by
  have htake : (l ++ r ++ List.replicate 32 0).take 32 = (l ++ List.replicate 32 0).take 32 := by
    rw [append_assoc, take_append_of_le_length h, take_append_of_le_length h]
  simp only [Entry.ofBytes, htake]

theorem Entry.ofBytes_self (e : Entry) : Entry.ofBytes e.bytes = e := by
  cases e with
  | mk bytes length_eq =>
    simp only [Entry.ofBytes, Entry.mk.injEq]
    exact take_left' length_eq

theorem toRecords_append {a b : List UInt8} {k : ℕ} (h : a.length = 32 * k) :
    toRecords (a ++ b) = toRecords a ++ toRecords b := by
  have hcount : (a ++ b).length / 32 = k + b.length / 32 := by
    rw [length_append, h]
    omega
  have hleft : a.length / 32 = k := by omega
  rw [toRecords, toRecords, toRecords, hcount, hleft, range_add, map_append, map_map]
  congr 1
  · refine map_congr_left fun i hi => ?_
    have hik := mem_range.mp hi
    rw [entryAt, entryAt, drop_append_of_le_length (by omega),
      Entry.ofBytes_append (by rw [length_drop]; omega)]
  · refine map_congr_left fun i _ => ?_
    rw [Function.comp_apply, entryAt, entryAt, drop_append, drop_eq_nil_of_le (by omega),
      nil_append, h, Nat.mul_add, Nat.add_sub_cancel_left]

theorem flatMap_bytes_length (es : List Entry) : (es.flatMap Entry.bytes).length = 32 * es.length := by
  induction es with
  | nil => rfl
  | cons e es ih =>
    rw [flatMap_cons, length_append, e.length_eq, ih, length_cons]
    omega

theorem toRecords_flatMap {es : List Entry} : toRecords (es.flatMap Entry.bytes) = es := by
  induction es with
  | nil => rfl
  | cons e es ih =>
    have hone : toRecords e.bytes = [e] := by
      rw [toRecords, e.length_eq]
      exact congrArg (fun x => [x]) e.ofBytes_self
    rw [flatMap_cons, toRecords_append (k := 1) e.length_eq, hone, ih, singleton_append]

theorem toRecords_take_drop {bytes : List UInt8} {k : ℕ} (h : 32 * k ≤ bytes.length) :
    toRecords (bytes.take (32 * k)) = (toRecords bytes).take k ∧
      toRecords (bytes.drop (32 * k)) = (toRecords bytes).drop k := by
  have hlen : (bytes.take (32 * k)).length = 32 * k := by rw [length_take]; omega
  have hsplit := toRecords_append (b := bytes.drop (32 * k)) hlen
  have hk : (toRecords (bytes.take (32 * k))).length = k := by rw [toRecords_length]; omega
  rw [take_append_drop] at hsplit
  exact ⟨by rw [hsplit, take_left' hk], by rw [hsplit, drop_left' hk]⟩

theorem toRecords_splice {bytes : List UInt8} {k : ℕ} {es : List Entry}
    (h : 32 * (k + es.length) ≤ bytes.length) :
    toRecords (splice bytes (32 * k) (es.flatMap Entry.bytes)) =
      (toRecords bytes).take k ++ es ++ (toRecords bytes).drop (k + es.length) := by
  have hlen := flatMap_bytes_length es
  have htake : (bytes.take (32 * k)).length = 32 * k := by rw [length_take]; omega
  have hboth : (bytes.take (32 * k) ++ es.flatMap Entry.bytes).length = 32 * (k + es.length) := by
    rw [length_append, htake, hlen]
    omega
  rw [splice, toRecords_append hboth, toRecords_append htake, toRecords_flatMap, hlen, ← Nat.mul_add,
    (toRecords_take_drop (by omega)).1, (toRecords_take_drop h).2]

theorem records_eq (hdata : ∀ c ∈ cs, ctx.IsData c) :
    records ctx v cs = toRecords (v.content ctx cs) := by
  induction cs with
  | nil => simp [records, toRecords]
  | cons c cs ih =>
    have hlen := Volume.clusterBytes_length (v := v) (hdata c (by simp))
    rw [clusterSize_eq_mul] at hlen
    have hblock : toRecords (v.clusterBytes ctx c) =
        (List.range ctx.entriesPerCluster).map (entryAt (v.clusterBytes ctx c)) := by
      rw [toRecords, hlen, Nat.mul_div_cancel_left _ (by decide)]
    rw [records_cons, content_cons, toRecords_append hlen, hblock,
      ih fun x hx => hdata x (by simp [hx])]

section

variable {bound index : ℕ} {e : Entry} {es rs l r : List Entry}

theorem complete_cons_invalid (hvalid : ¬ e.Valid) :
    Complete bound (e :: rs) ↔ Complete bound rs := by
  refine ⟨fun h => ?_, .invalid hvalid⟩
  cases h with
  | invalid _ h => exact h
  | short hv _ _ | run hv _ _ _ _ => exact absurd hv hvalid

theorem complete_cons_short (hvalid : e.Valid) (hlfn : ¬ e.IsLfn) :
    Complete bound (e :: rs) ↔ Complete bound rs := by
  refine ⟨fun h => ?_, .short hvalid hlfn⟩
  cases h with
  | invalid hv _ => exact absurd hvalid hv
  | short _ _ h => exact h
  | run _ hl _ _ _ => exact absurd hl hlfn

theorem Complete.run_cases (h : Complete bound (e :: rs)) (hvalid : e.Valid) (hlfn : e.IsLfn) :
    ∃ es r, rs = es ++ r ∧ e.order = es.length + 1 ∧ e.order ≤ bound ∧ Complete bound r := by
  cases h with
  | invalid hv _ => exact absurd hvalid hv
  | short _ hl _ => exact absurd hlfn hl
  | run _ _ horder hbound h => exact ⟨_, _, rfl, horder, hbound, h⟩

theorem complete_cons_run (hvalid : e.Valid) (hlfn : e.IsLfn) (horder : e.order = es.length + 1) :
    Complete bound (e :: (es ++ rs)) ↔ e.order ≤ bound ∧ Complete bound rs := by
  refine ⟨fun h => ?_, fun h => .run hvalid hlfn horder h.1 h.2⟩
  obtain ⟨es', r, heq, horder', hbound, h⟩ := h.run_cases hvalid hlfn
  obtain ⟨_, rfl⟩ := append_inj heq (by omega)
  exact ⟨hbound, h⟩

/-- Directories of whole entries: the records of a long name stand right before a short entry. -/
inductive WellFormed : List Entry → Prop
  | nil : WellFormed []
  | deleted {e : Entry} {rs : List Entry} : ¬ e.Valid → WellFormed rs → WellFormed (e :: rs)
  | short {e : Entry} {rs : List Entry} : e.Valid → ¬ e.IsLfn → WellFormed rs → WellFormed (e :: rs)
  | long {first e : Entry} {es rs : List Entry} : first.Valid → first.IsLfn →
      first.order = es.length + 1 → first.order ≤ 20 → e.Valid → ¬ e.IsLfn → WellFormed rs →
      WellFormed (first :: (es ++ e :: rs))

theorem wellFormed_of_short (h : ∀ e ∈ rs, e.Valid → ¬ e.IsLfn) : WellFormed rs := by
  induction rs with
  | nil => exact .nil
  | cons e rs ih =>
    have hrest := ih fun x hx => h x (by simp [hx])
    by_cases hvalid : e.Valid
    · exact .short hvalid (h e (by simp) hvalid) hrest
    · exact .deleted hvalid hrest

theorem WellFormed.itemsFrom_append (h : WellFormed l) (index : ℕ) (r : List Entry) :
    itemsFrom 0 none index (l ++ r) =
      itemsFrom 0 none index l ++ itemsFrom 0 none (index + l.length) r := by
  induction h generalizing index with
  | nil => rfl
  | @deleted e rs hvalid _ ih =>
    have hstep : ∀ rs, itemsFrom 0 none index (e :: rs) = itemsFrom 0 none (index + 1) rs := by
      intro rs
      rw [itemsFrom, if_pos hvalid]
    rw [cons_append, hstep, hstep, ih, length_cons]
    congr 2
    omega
  | @short e rs hvalid hlfn _ ih =>
    have hstep : ∀ rs, itemsFrom 0 none index (e :: rs) =
        pendingItem none index e :: itemsFrom 0 none (index + 1) rs := by
      intro rs
      rw [itemsFrom, if_neg (not_not.mpr hvalid), if_neg hlfn]
    rw [cons_append, hstep, hstep, ih, length_cons, cons_append]
    congr 3
    omega
  | @long first e es rs hv hl horder _ hvalid hlfn _ ih =>
    have hstep : ∀ rs, itemsFrom 0 none index (first :: (es ++ e :: rs)) =
        pendingItem (some (runName (first :: es), index)) (index + first.order) e ::
          itemsFrom 0 none (index + first.order + 1) rs := by
      intro rs
      rw [itemsFrom_run hv hl horder, itemsFrom, if_neg (not_not.mpr hvalid), if_neg hlfn]
    rw [cons_append, append_assoc, cons_append, hstep, hstep, ih, cons_append,
      length_cons, length_append, length_cons]
    congr 3
    omega

theorem WellFormed.complete_append (h : WellFormed l) (hb : 20 ≤ bound) (r : List Entry) :
    Complete bound (l ++ r) ↔ Complete bound r := by
  induction h with
  | nil => rfl
  | deleted hvalid _ ih => rw [cons_append, complete_cons_invalid hvalid, ih]
  | short hvalid hlfn _ ih => rw [cons_append, complete_cons_short hvalid hlfn, ih]
  | long hv hl horder hbound hvalid hlfn _ ih =>
    rw [cons_append, append_assoc, complete_cons_run hv hl horder, cons_append,
      complete_cons_short hvalid hlfn, ih]
    exact and_iff_right (hbound.trans hb)

theorem itemsFrom_of_invalid (h : ∀ e ∈ rs, ¬ e.Valid) (p : Option (Name × ℕ)) (index : ℕ) :
    itemsFrom 0 p index rs = [] := by
  induction rs generalizing index with
  | nil => rfl
  | cons e rs ih =>
    rw [itemsFrom, if_pos (h e (by simp))]
    exact ih (fun x hx => h x (by simp [hx])) _

theorem itemsFrom_mem {skip : ℕ} {p : Option (Name × ℕ)} {x : Item}
    (h : x ∈ itemsFrom skip p index rs) :
    index ≤ x.index ∧ x.index < index + rs.length ∧ x.entry.Valid := by
  fun_induction itemsFrom skip p index rs with
  | case1 => cases h
  | case2 skip p index e rs ih =>
    obtain ⟨hle, hlt, hvalid⟩ := ih h
    exact ⟨by omega, by rw [length_cons]; omega, hvalid⟩
  | case3 p index e rs _ ih =>
    obtain ⟨hle, hlt, hvalid⟩ := ih h
    exact ⟨by omega, by rw [length_cons]; omega, hvalid⟩
  | case4 p index e rs _ _ ih =>
    obtain ⟨hle, hlt, hvalid⟩ := ih h
    exact ⟨by omega, by rw [length_cons]; omega, hvalid⟩
  | case5 p index e rs hvalid _ ih =>
    rw [length_cons]
    obtain rfl | h := mem_cons.mp h
    · rw [pendingItem_index, pendingItem_entry]
      exact ⟨Nat.le_refl _, by omega, not_not.mp hvalid⟩
    · obtain ⟨hle, hlt, hvalid⟩ := ih h
      exact ⟨by omega, by omega, hvalid⟩

end

/-- The directory is filled with whole entries up to the place `m`, with a valid record before it
and none behind it. -/
structure Filled (rs : List Entry) (m : ℕ) : Prop where
  le : m ≤ rs.length
  wellFormed : WellFormed (rs.take m)
  last : m ≠ 0 → ∃ e, rs[m - 1]? = some e ∧ e.Valid
  clear : ∀ e ∈ rs.drop m, ¬ e.Valid

namespace Filled

variable {rs : List Entry} {m : ℕ}

theorem complete (h : Filled rs m) : Complete 78 rs := by
  rw [← take_append_drop m rs, h.wellFormed.complete_append (by decide)]
  exact complete_of_short fun e he hvalid => absurd hvalid (h.clear e he)

theorem items_eq (h : Filled rs m) : items rs 0 = itemsFrom 0 none 0 (rs.take m) := by
  rw [items, drop_zero]
  conv_lhs => rw [← take_append_drop m rs]
  rw [h.wellFormed.itemsFrom_append, itemsFrom_of_invalid h.clear, append_nil]

end Filled

/-- One more than the place of the last valid record. -/
def sizeFrom : (index last : ℕ) → List Entry → ℕ
  | _, last, [] => last
  | index, last, e :: rs => sizeFrom (index + 1) (if e.Valid then index + 1 else last) rs

theorem sizeFrom_append {index last : ℕ} {l r : List Entry} :
    sizeFrom index last (l ++ r) = sizeFrom (index + l.length) (sizeFrom index last l) r := by
  induction l generalizing index last with
  | nil => rfl
  | cons e l ih =>
    rw [cons_append, sizeFrom, sizeFrom, ih, length_cons]
    congr 1
    omega

theorem sizeFrom_of_invalid {rs : List Entry} (h : ∀ e ∈ rs, ¬ e.Valid) (index last : ℕ) :
    sizeFrom index last rs = last := by
  induction rs generalizing index with
  | nil => rfl
  | cons e rs ih =>
    rw [sizeFrom, if_neg (h e (by simp))]
    exact ih (fun x hx => h x (by simp [hx])) _

theorem Filled.sizeFrom_eq {rs : List Entry} {m : ℕ} (h : Filled rs m) : sizeFrom 0 0 rs = m := by
  rw [← take_append_drop m rs, sizeFrom_append, sizeFrom_of_invalid h.clear]
  cases m with
  | zero => rfl
  | succ m =>
    obtain ⟨e, he, hvalid⟩ := h.last (Nat.succ_ne_zero m)
    rw [Nat.succ_sub_one] at he
    obtain ⟨hlt, hget⟩ := List.getElem?_eq_some_iff.mp he
    rw [← take_append_getElem hlt, sizeFrom_append, hget, sizeFrom, sizeFrom, if_pos hvalid,
      length_take]
    omega

section

variable {κ : Type} {read : ℕ → κ → Except Fault (Option Entry × κ)} {I : κ → Prop} {rs : List Entry}

theorem dirSizeLoop_reads (h : Reads read I rs) {turns index last : ℕ} (hi : index < 2 ^ 32) {k k' : κ}
    (hk : I k) {n : ℕ} (hsize : dirSizeLoop read turns index last k = .ok (n, k')) :
    rs.length < 2 ^ 32 ∧ (index ≤ rs.length → n = sizeFrom index last (rs.drop index)) := by
  induction turns generalizing index last k with
  | zero => cases hsize
  | succ turns ih =>
    obtain ⟨k1, hk1, hI⟩ := h index hi k hk
    rw [dirSizeLoop, hk1] at hsize
    simp only [ok_bind] at hsize
    cases he : rs[index]? with
    | none =>
      rw [he] at hsize
      cases hsize
      have hle := getElem?_eq_none_iff.mp he
      refine ⟨by omega, fun _ => ?_⟩
      rw [drop_eq_nil_of_le hle]
      rfl
    | some e =>
      obtain ⟨hlt, hget⟩ := List.getElem?_eq_some_iff.mp he
      rw [he] at hsize
      obtain ⟨hlen, hn⟩ := ih (Nat.mod_lt _ (by decide)) (hI hlt) hsize
      rw [Nat.mod_eq_of_lt (by omega)] at hn
      refine ⟨hlen, fun _ => ?_⟩
      rw [hn hlt, ← getElem_cons_drop hlt, sizeFrom, hget]

end

end Kot.Fat
