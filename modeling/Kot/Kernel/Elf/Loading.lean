import Kot.Kernel.Elf.Segments

/-! The loop of `load_elf_exec_segments` over the program headers: which files are loaded as their
headers say. -/
namespace Kot.Kernel.Elf

open Kot.Kernel.Mm List
open Kot.Lib (readAt)

/-- The path that a header of the type `PT_INTERP` names ends in the file. -/
def InterpFits (buffer : List UInt8) (phdr : ℕ) : Prop :=
  ∃ offset filesz, readLe buffer (phdr + 8) 8 = .ok offset ∧
    readLe buffer (phdr + 32) 8 = .ok filesz ∧ filesz + 1 < 2 ^ 64 ∧
      ∃ k ≤ filesz, offset + k < buffer.length ∧ (k < filesz → buffer[offset + k]? = some 0)

/-- The segment of a header, if it has the type `PT_LOAD`. -/
def segmentAt (buffer : List UInt8) (base phdr : ℕ) : Option Segment :=
  if readLe buffer phdr 4 = .ok ptLoad then (readSegment buffer base phdr).toOption else none

def segmentsOf (buffer : List UInt8) (base : ℕ) (phdrs : List ℕ) : List Segment :=
  phdrs.filterMap (segmentAt buffer base)

/-- Where two segments overlap they ask for the same bytes. -/
def Segment.Agrees (buffer : List UInt8) (seg seg' : Segment) : Prop :=
  ∀ i < seg.memsz, ∀ j < seg'.memsz, seg.address + i = seg'.address + j →
    (seg.content buffer)[i]? = (seg'.content buffer)[j]?

/-- The tables of program headers that are loaded as they say, header by header with the pages
mapped so far. Of several paths only the first one is read. -/
def HeadersFit (top : ℕ) (buffer : List UInt8) (base : ℕ) : (ℕ → Bool) → Bool → List ℕ → Prop
  | _, _, [] => True
  | mapped, hasPath, phdr :: rest =>
    phdr + 4 ≤ buffer.length ∧
    if readLe buffer phdr 4 = .ok ptLoad then
      ∃ seg, readSegment buffer base phdr = .ok seg ∧ seg.Fits top buffer mapped ∧
        (∀ seg' ∈ segmentsOf buffer base rest, seg.Agrees buffer seg') ∧
        HeadersFit top buffer base
          (fun page => mapped page || visited seg.address seg.memsz page) hasPath rest
    else if readLe buffer phdr 4 = .ok ptPhdr then
      phdr + 24 ≤ buffer.length ∧ HeadersFit top buffer base mapped hasPath rest
    else if readLe buffer phdr 4 = .ok ptInterp ∧ hasPath = false then
      InterpFits buffer phdr ∧ HeadersFit top buffer base mapped true rest
    else HeadersFit top buffer base mapped hasPath rest

section Headers

variable {A : Allocator} {stale : ℕ → UInt8} {buffer : List UInt8} {s t : LoadState} {top base : ℕ}
  {seg : Segment} {phdr : ℕ}

theorem readLe_eq_ok {offset width n : ℕ} (h : readLe buffer offset width = .ok n) :
    offset + width ≤ buffer.length ∧ n < 256 ^ width := by
  unfold readLe at h
  split_ifs at h with hin
  cases h
  refine ⟨hin, (Lib.fromLe_lt _).trans_le ?_⟩
  exact Nat.pow_le_pow_right (by decide) (by rw [length_take]; omega)

theorem readLe_of_le {offset width : ℕ} (h : offset + width ≤ buffer.length) :
    ∃ n, readLe buffer offset width = .ok n := ⟨_, if_pos h⟩

theorem readSegment_words (h : readSegment buffer base phdr = .ok seg) : seg.IsWords := by
  obtain ⟨vaddr, h1, h⟩ := bind_eq_ok h
  obtain ⟨memsz, h2, h⟩ := bind_eq_ok h
  obtain ⟨offset, h3, h⟩ := bind_eq_ok h
  obtain ⟨filesz, h4, h⟩ := bind_eq_ok h
  cases h
  exact ⟨Nat.mod_lt _ (by decide), (readLe_eq_ok h4).2, (readLe_eq_ok h2).2⟩

theorem copyPath_returns {num : ℕ} (offset : ℕ) : (∃ path, copyPath buffer offset num = .ok path) ↔
      ∃ k ≤ num, offset + k < buffer.length ∧ (k < num → buffer[offset + k]? = some 0) := by
  induction num generalizing offset with
  | zero =>
    unfold copyPath
    split_ifs with h
    · exact ⟨fun _ => ⟨0, le_rfl, h, fun hk => absurd hk (by omega)⟩, fun _ => ⟨_, rfl⟩⟩
    · refine ⟨(by rintro ⟨_, ⟨⟩⟩), ?_⟩
      rintro ⟨k, hk, hlt, -⟩
      omega
  | succ num ih =>
    unfold copyPath
    cases hc : buffer[offset]? with
    | none =>
      have hlen := getElem?_eq_none_iff.mp hc
      refine ⟨(by rintro ⟨_, ⟨⟩⟩), ?_⟩
      rintro ⟨k, -, hlt, -⟩
      omega
    | some c =>
      have hlen := (List.getElem?_eq_some_iff.mp hc).1
      by_cases h0 : c = 0
      · refine ⟨fun _ => ⟨0, by omega, hlen, fun _ => by rw [Nat.add_zero, hc, h0]⟩, fun _ => ?_⟩
        exact ⟨_, if_pos h0⟩
      · simp only [if_neg h0]
        constructor
        · rintro ⟨path, hpath⟩
          obtain ⟨rest, hrest, -⟩ := bind_eq_ok hpath
          obtain ⟨k, hk, hlt, hz⟩ := (ih (offset + 1)).mp ⟨rest, hrest⟩
          refine ⟨k + 1, by omega, by omega, fun hk' => ?_⟩
          rw [Nat.add_comm k, ← Nat.add_assoc]
          exact hz (by omega)
        · rintro ⟨k, hk, hlt, hz⟩
          cases k with
          | zero =>
            have := hz (by omega)
            rw [Nat.add_zero, hc] at this
            exact absurd (Option.some.inj this) h0
          | succ k =>
            rw [Nat.add_comm k, ← Nat.add_assoc] at hz hlt
            obtain ⟨rest, hrest⟩ :=
              (ih (offset + 1)).mpr ⟨k, by omega, hlt, fun hk' => hz (by omega)⟩
            exact ⟨c :: rest, by rw [hrest, ok_bind]⟩

theorem readInterp_returns : (∃ path, readInterp buffer phdr = .ok path) ↔ InterpFits buffer phdr := by
  unfold readInterp InterpFits
  constructor
  · rintro ⟨path, h⟩
    obtain ⟨offset, h1, h⟩ := bind_eq_ok h
    obtain ⟨filesz, h2, h⟩ := bind_eq_ok h
    have hlt := (readLe_eq_ok h2).2
    split_ifs at h with hwrap
    exact ⟨offset, filesz, h1, h2, by omega, (copyPath_returns offset).mp ⟨path, h⟩⟩
  · rintro ⟨offset, filesz, h1, h2, hlt, hk⟩
    obtain ⟨path, hpath⟩ := (copyPath_returns offset).mpr hk
    refine ⟨path, ?_⟩
    rw [h1, ok_bind, h2, ok_bind, if_neg (by omega), hpath]

theorem loadHeader_eq_ok (h : loadHeader A stale buffer base s phdr = .ok t) :
    (∃ seg, segmentAt buffer base phdr = some seg ∧ seg.IsWords ∧
        loadSegment A stale buffer s seg = .ok t) ∨
      (segmentAt buffer base phdr = none ∧ t.mm = s.mm ∧ t.mapped = s.mapped ∧
        t.byte = s.byte) := by
  obtain ⟨type, htype, h⟩ := bind_eq_ok h
  unfold segmentAt
  rw [htype]
  by_cases hload : type = ptLoad
  · rw [if_pos hload] at h
    obtain ⟨seg, hseg, h⟩ := bind_eq_ok h
    rw [if_pos (congrArg _ hload), hseg]
    exact .inl ⟨seg, rfl, readSegment_words hseg, h⟩
  · rw [if_neg hload] at h
    rw [if_neg fun he => hload (Except.ok.inj he)]
    refine .inr ⟨rfl, ?_⟩
    split_ifs at h
    · obtain ⟨vaddr, -, h⟩ := bind_eq_ok h
      cases h
      exact ⟨rfl, rfl, rfl⟩
    · obtain ⟨path, -, h⟩ := bind_eq_ok h
      cases h
      exact ⟨rfl, rfl, rfl⟩
    · cases h
      exact ⟨rfl, rfl, rfl⟩

section
variable (h : seg.Loaded top stale buffer s t)
include h

theorem Segment.Loaded.byte_cases (hlength : (seg.content buffer).length = seg.memsz) {x : ℕ}
    (hx : s.mapped (pageOf x) = true) :
    t.byte x = s.byte x ∨
      ∃ i < seg.memsz, x = seg.address + i ∧ (seg.content buffer)[i]? = some (t.byte x) := by
  rw [h.byte_eq]
  by_cases hin : seg.address ≤ x ∧ x < seg.address + seg.memsz
  · refine .inr ⟨x - seg.address, by omega, by omega, ?_⟩
    have hi : x - seg.address < (seg.content buffer).length := by omega
    obtain ⟨i, rfl⟩ : ∃ i, x = seg.address + i := ⟨x - seg.address, by omega⟩
    rw [Nat.add_sub_cancel_left] at hi ⊢
    rw [Lib.writeAt_inside hi, getElem?_eq_getElem hi]
  · left
    rw [Lib.writeAt_outside (by omega), if_neg (by simp [hx])]

theorem Segment.Loaded.holds (hlength : (seg.content buffer).length = seg.memsz) :
    readAt t.byte seg.address seg.memsz = seg.content buffer := by
  rw [h.byte_eq, Lib.readAt_writeAt_eq hlength]

end

/-- The headers that follow change a byte of a mapped page only to what one of their segments asks
for. -/
theorem headers_byte_cases {phdrs : List ℕ} (hready : Ready s.mm top)
    (h : phdrs.foldlM (loadHeader A stale buffer base) s = .ok t) {x : ℕ}
    (hx : s.mapped (pageOf x) = true) :
    t.byte x = s.byte x ∨ ∃ seg ∈ segmentsOf buffer base phdrs, ∃ i < seg.memsz,
      x = seg.address + i ∧ (seg.content buffer)[i]? = some (t.byte x) := by
  induction phdrs generalizing s with
  | nil =>
    obtain rfl : s = t := Except.ok.inj h
    exact .inl rfl
  | cons phdr phdrs ih =>
    rw [foldlM_cons] at h
    obtain ⟨u, hu, h⟩ := bind_eq_ok h
    unfold segmentsOf
    rcases loadHeader_eq_ok hu with ⟨seg, hseg, hw, hload⟩ | ⟨hseg, hmm, hmapped, hbyte⟩
    · rw [filterMap_cons_some hseg]
      have hloaded := loadSegment_loaded hready hw hload
      have hlength := ((loadSegment_fits hready hw).mp ⟨u, hload⟩).content_length
      rcases ih hloaded.ready h (by rw [hloaded.mapped_eq, hx, Bool.true_or]) with heq | ⟨seg', hmem, hrest⟩
      · rw [heq]
        rcases hloaded.byte_cases hlength hx with hsame | hown
        · exact .inl hsame
        · exact .inr ⟨seg, mem_cons_self, hown⟩
      · exact .inr ⟨seg', mem_cons_of_mem _ hmem, hrest⟩
    · rw [filterMap_cons_none hseg]
      rw [← hbyte]
      exact ih (hmm ▸ hready) h (hmapped ▸ hx)

theorem agrees_of_holds {seg' : Segment} {byte : ℕ → UInt8}
    (h : readAt byte seg.address seg.memsz = seg.content buffer)
    (h' : readAt byte seg'.address seg'.memsz = seg'.content buffer) :
    seg.Agrees buffer seg' := by
  have hlength : (seg.content buffer).length = seg.memsz := by rw [← h, Lib.readAt_length]
  have hlength' : (seg'.content buffer).length = seg'.memsz := by rw [← h', Lib.readAt_length]
  intro i hi j hj hij
  rw [(Lib.readAt_eq_iff hlength).mp h i hi, (Lib.readAt_eq_iff hlength').mp h' j hj, hij]

theorem holds_of_agrees {u : LoadState} {phdrs : List ℕ} (hfits : seg.Fits top buffer s.mapped)
    (hloaded : seg.Loaded top stale buffer s u)
    (h : phdrs.foldlM (loadHeader A stale buffer base) u = .ok t)
    (hagree : ∀ seg' ∈ segmentsOf buffer base phdrs, seg.Agrees buffer seg') :
    readAt t.byte seg.address seg.memsz = seg.content buffer := by
  have hlength := hfits.content_length
  rw [Lib.readAt_eq_iff hlength]
  intro i hi
  obtain ⟨-, hend, hlast⟩ := hfits.inRange (by omega)
  have hpage : u.mapped (pageOf (seg.address + i)) = true := by
    rw [hloaded.mapped_eq]
    exact (pages_mapped_iff (by omega) hend).mpr hlast i hi
  rcases headers_byte_cases hloaded.ready h hpage with heq | ⟨seg', hmem, j, hj, hij, hbyte⟩
  · rw [heq]
    exact (Lib.readAt_eq_iff hlength).mp (hloaded.holds hlength) i hi
  · rw [← hbyte]
    exact hagree seg' hmem i hi j hj hij

def AllHold (buffer : List UInt8) (base : ℕ) (phdrs : List ℕ) (t : LoadState) : Prop :=
  ∀ seg ∈ segmentsOf buffer base phdrs,
    readAt t.byte seg.address seg.memsz = seg.content buffer

/-- The headers are loaded and their segments hold what they ask for. -/
def Loads (A : Allocator) (stale : ℕ → UInt8) (buffer : List UInt8) (base : ℕ) (s : LoadState)
    (phdrs : List ℕ) : Prop :=
  ∃ t, phdrs.foldlM (loadHeader A stale buffer base) s = .ok t ∧ AllHold buffer base phdrs t

theorem loads_cons_of_none {phdrs : List ℕ} (hnone : segmentAt buffer base phdr = none) :
    Loads A stale buffer base s (phdr :: phdrs) ↔
      ∃ u, loadHeader A stale buffer base s phdr = .ok u ∧ Loads A stale buffer base u phdrs := by
  have hall : ∀ t, AllHold buffer base (phdr :: phdrs) t ↔ AllHold buffer base phdrs t := by
    intro t
    unfold AllHold segmentsOf
    rw [filterMap_cons_none hnone]
  unfold Loads
  simp only [foldlM_cons, hall]
  constructor
  · rintro ⟨t, h, ht⟩
    obtain ⟨u, hu, h⟩ := bind_eq_ok h
    exact ⟨u, hu, t, h, ht⟩
  · rintro ⟨u, hu, t, h, ht⟩
    exact ⟨t, by rw [hu, ok_bind, h], ht⟩

theorem loads_cons_of_some {phdrs : List ℕ} (hready : Ready s.mm top)
    (htype : readLe buffer phdr 4 = .ok ptLoad) (hseg : readSegment buffer base phdr = .ok seg) :
    Loads A stale buffer base s (phdr :: phdrs) ↔ seg.Fits top buffer s.mapped ∧
        (∀ seg' ∈ segmentsOf buffer base phdrs, seg.Agrees buffer seg') ∧
        ∃ u, seg.Loaded top stale buffer s u ∧
          loadSegment A stale buffer s seg = .ok u ∧ Loads A stale buffer base u phdrs := by
  have hsome : segmentAt buffer base phdr = some seg := by
    rw [segmentAt, if_pos htype, hseg]
    rfl
  have hw := readSegment_words hseg
  have hstep : loadHeader A stale buffer base s phdr = loadSegment A stale buffer s seg := by
    rw [loadHeader, htype, ok_bind, if_pos rfl, hseg, ok_bind]
  have hall : ∀ t, AllHold buffer base (phdr :: phdrs) t ↔
      readAt t.byte seg.address seg.memsz = seg.content buffer ∧
        AllHold buffer base phdrs t := by
    intro t
    unfold AllHold segmentsOf
    rw [filterMap_cons_some hsome, forall_mem_cons]
  unfold Loads
  simp only [foldlM_cons, hall, hstep]
  constructor
  · rintro ⟨t, h, hholds, hrest⟩
    obtain ⟨u, hu, h⟩ := bind_eq_ok h
    refine ⟨(loadSegment_fits hready hw).mp ⟨u, hu⟩, fun seg' hmem => ?_, u,
      loadSegment_loaded hready hw hu, hu, t, h, hrest⟩
    exact agrees_of_holds hholds (hrest seg' hmem)
  · rintro ⟨hfits, hagree, u, hloaded, hu, t, h, hrest⟩
    exact ⟨t, by rw [hu, ok_bind, h], holds_of_agrees hfits hloaded h hagree, hrest⟩

theorem loads_iff_headersFit {phdrs : List ℕ} (hready : Ready s.mm top) :
    Loads A stale buffer base s phdrs ↔
      HeadersFit top buffer base s.mapped s.ldPath.isSome phdrs := by
  induction phdrs generalizing s with
  | nil => exact ⟨fun _ => trivial, fun _ => ⟨s, rfl, by rintro _ ⟨⟩⟩⟩
  | cons phdr phdrs ih =>
    unfold HeadersFit
    by_cases hin : phdr + 4 ≤ buffer.length
    · obtain ⟨type, htype⟩ := readLe_of_le hin
      simp only [hin, true_and, htype, Except.ok.injEq]
      by_cases hload : type = ptLoad
      · subst hload
        rw [if_pos rfl]
        cases hseg : readSegment buffer base phdr with
        | error f =>
          constructor
          · rintro ⟨t, h, -⟩
            rw [foldlM_cons, loadHeader, htype, ok_bind, if_pos rfl, hseg] at h
            cases h
          · rintro ⟨seg, hok, -⟩
            cases hok
        | ok seg =>
          rw [loads_cons_of_some hready htype hseg]
          constructor
          · rintro ⟨hfits, hagree, u, hloaded, -, hrest⟩
            rw [ih hloaded.ready, hloaded.ldPath_eq, funext hloaded.mapped_eq] at hrest
            exact ⟨seg, rfl, hfits, hagree, hrest⟩
          · rintro ⟨seg', hok, hfits, hagree, hrest⟩
            cases hok
            have hw := readSegment_words hseg
            obtain ⟨u, hu⟩ := (loadSegment_fits hready hw).mpr hfits
            have hloaded := loadSegment_loaded hready hw hu
            refine ⟨hfits, hagree, u, hloaded, hu, ?_⟩
            rw [ih hloaded.ready, hloaded.ldPath_eq, funext hloaded.mapped_eq]
            exact hrest
      · have hnone : segmentAt buffer base phdr = none := by
          rw [segmentAt, htype, if_neg fun he => hload (Except.ok.inj he)]
        rw [if_neg hload, loads_cons_of_none hnone]
        unfold loadHeader
        simp only [htype, ok_bind, if_neg hload]
        by_cases hphdr : type = ptPhdr
        · simp only [if_pos hphdr]
          constructor
          · rintro ⟨u, hu, hrest⟩
            obtain ⟨vaddr, hread, hu⟩ := bind_eq_ok hu
            cases hu
            exact ⟨(readLe_eq_ok hread).1,
              (ih (s := { s with atPhdr := wadd vaddr base }) hready).mp hrest⟩
          · rintro ⟨hlength, hrest⟩
            obtain ⟨vaddr, hread⟩ : ∃ vaddr, readLe buffer (phdr + 16) 8 = .ok vaddr :=
              readLe_of_le (by omega)
            exact ⟨{ s with atPhdr := wadd vaddr base }, by rw [hread, ok_bind],
              (ih (s := { s with atPhdr := wadd vaddr base }) hready).mpr hrest⟩
        · simp only [if_neg hphdr]
          by_cases hinterp : type = ptInterp ∧ s.ldPath = none
          · have hinterp' : type = ptInterp ∧ s.ldPath.isSome = false :=
              ⟨hinterp.1, by rw [hinterp.2]; rfl⟩
            simp only [if_pos hinterp, if_pos hinterp', ← readInterp_returns]
            constructor
            · rintro ⟨u, hu, hrest⟩
              obtain ⟨path, hread, hu⟩ := bind_eq_ok hu
              cases hu
              exact ⟨⟨path, hread⟩, (ih (s := { s with ldPath := some path }) hready).mp hrest⟩
            · rintro ⟨⟨path, hread⟩, hrest⟩
              exact ⟨{ s with ldPath := some path }, by rw [hread, ok_bind],
                (ih (s := { s with ldPath := some path }) hready).mpr hrest⟩
          · have hinterp' : ¬ (type = ptInterp ∧ s.ldPath.isSome = false) := fun h =>
              hinterp ⟨h.1, by simpa using h.2⟩
            simp only [if_neg hinterp, if_neg hinterp']
            constructor
            · rintro ⟨u, hu, hrest⟩
              cases hu
              exact (ih hready).mp hrest
            · intro hrest
              exact ⟨s, rfl, (ih hready).mpr hrest⟩
    · refine ⟨?_, fun h => absurd h.1 hin⟩
      rintro ⟨t, h, -⟩
      rw [foldlM_cons, loadHeader, readLe, if_neg hin] at h
      cases h

theorem ready_create {memory : Ptr → MemoryRegion} {live : List Ptr} {space : ℕ}
    (h : userEnd ≤ top) (htop : top < 2 ^ 64) :
    Ready (mmCreateHandler A memory live space pageSize (top - pageSize)) top := by
  have hle : pageSize < top := by
    unfold userEnd at h
    unfold pageSize
    omega
  have hw : WellFormed (mmCreateHandler A memory live space pageSize (top - pageSize))
      [A.malloc (A.malloc live :: live)] :=
    mmCreateHandler_wellFormed memory live space (Nat.sub_pos_of_lt hle) (by omega)
  exact ⟨by rw [hw.regionNodes_eq]; exact hw, rfl, rfl, Nat.add_sub_cancel' hle.le, h⟩

end Headers

/-- A program with one segment: the last three bytes of the file at `address`, followed by zeros. -/
def sampleFile (address memsz : ℕ) : List UInt8 :=
  [0x7f, 0x45, 0x4c, 0x46, 2] ++ List.replicate 11 0 ++ Lib.toLe 2 2 ++ List.replicate 14 0 ++
    Lib.toLe 8 64 ++ List.replicate 14 0 ++ Lib.toLe 2 56 ++ Lib.toLe 2 1 ++ List.replicate 6 0 ++
    Lib.toLe 8 1 ++ Lib.toLe 8 120 ++ Lib.toLe 8 address ++ Lib.toLe 8 address ++ Lib.toLe 8 3 ++
    Lib.toLe 8 memsz ++ Lib.toLe 8 0 ++ [1, 2, 3]

/-- A new process in which no page of the user is mapped. -/
def sampleProcess : LoadState where
  mm := mmCreateHandler .above (fun _ => poisoned) [] 0 pageSize (0xffff800000000000 - pageSize)
  mapped := fun _ => false
  byte := fun _ => 0
  atPhdr := 0
  ldPath := none

end Kot.Kernel.Elf
