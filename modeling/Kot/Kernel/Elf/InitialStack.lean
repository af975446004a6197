import Mathlib.Data.List.Forall2
import Kot.Kernel.Machine
import Kot.Lib.Stack

/-! The stack that a new program finds (`load_elf_exec_load_stack`): it is built downwards through
a mapping of the stack into the kernel space. -/
namespace Kot.Kernel.Elf
open Kot.Lib List

/-- `stack_user_base` and `stack_kernel_base`. -/
structure Mapping where
  stackUserBase : ℕ
  stackKernelBase : ℕ

def Mapping.getKernelMapped (k : Mapping) (address : ℕ) : ℕ :=
  wadd (wsub address k.stackUserBase) k.stackKernelBase

/-- The memory and `stack_iteration`. -/
structure Builder where
  memory : ℕ → UInt8
  stackIteration : ℕ

def atNull : ℕ := 0
def atPhdr : ℕ := 3
def atPhent : ℕ := 4
def atPhnum : ℕ := 5
def atEntry : ℕ := 9

structure AuxValues where
  entry : ℕ
  phdr : ℕ
  phent : ℕ
  phnum : ℕ

variable (k : Mapping)

/-- `stack_iteration` is moved down and bytes are written there. -/
def Builder.store (b : Builder) (bytes : List UInt8) : Builder :=
  let stackIteration := wsub b.stackIteration bytes.length
  ⟨writeAt b.memory (k.getKernelMapped stackIteration) bytes, stackIteration⟩

/-- The loops over `args` and `envp`: copies of the strings, and the list of their addresses.
`strncpy` of the kernel writes the terminator. -/
def Builder.copyStrings (b : Builder) : List (List UInt8) → Builder × List ℕ
  | [] => (b, [])
  | s :: strings =>
    let b := b.store k (s ++ [0])
    let r := b.copyStrings strings
    (r.1, b.stackIteration :: r.2)

/-- The alignment, with one word of padding for an odd number of words. -/
def Builder.align (b : Builder) (words : ℕ) : Builder :=
  let stackIteration := b.stackIteration - (b.stackIteration &&& 0xf)
  { b with stackIteration :=
      if words &&& 1 ≠ 0 then wsub stackIteration 8 else stackIteration }

def Builder.storeAuxv (b : Builder) (type value : ℕ) : Builder :=
  b.store k (toLe 8 type ++ toLe 8 value)

def Builder.storeWord (b : Builder) (word : ℕ) : Builder := b.store k (toLe 8 word)

/-- `load_elf_exec_load_stack`; the result holds the returned pointer. -/
def loadElfExecLoadStack (aux : AuxValues) (args : List (List UInt8))
    (envp : Option (List (List UInt8))) (stack : ℕ) (memory : ℕ → UInt8) : Builder :=
  let env := envp.getD []
  let (b, argPointers) := (Builder.mk memory stack).copyStrings k args
  let (b, envPointers) := b.copyStrings k env
  let b := b.align (args.length + env.length + 1)
  let b := b.storeAuxv k atNull 0
  let b := b.storeAuxv k atEntry aux.entry
  let b := b.storeAuxv k atPhdr aux.phdr
  let b := b.storeAuxv k atPhent aux.phent
  let b := b.storeAuxv k atPhnum aux.phnum
  let b := b.storeWord k 0
  let b := envPointers.foldl (Builder.storeWord k) b
  let b := b.storeWord k 0
  let b := argPointers.reverse.foldl (Builder.storeWord k) b
  b.storeWord k args.length

/-- What the program reads at its own addresses. -/
def Builder.user (b : Builder) (a : ℕ) : UInt8 := b.memory (k.getKernelMapped a)

variable {k}

def StringAt (m : ℕ → UInt8) (p : ℕ) (s : List UInt8) : Prop :=
  readAt m p (s ++ [0]).length = s ++ [0]

def auxWords (aux : AuxValues) : List ℕ :=
  [atPhnum, aux.phnum, atPhent, aux.phent, atPhdr, aux.phdr, atEntry, aux.entry, atNull, 0]

/-- The image that a program expects at its stack pointer. -/
structure Image (m : ℕ → UInt8) (sp : ℕ) (args env : List (List UInt8)) (aux : AuxValues) :
    Prop where
  words : ∃ argPointers envPointers,
    wordsAt m sp (args.length + env.length + 13) =
      args.length :: (argPointers ++ 0 :: (envPointers ++ 0 :: auxWords aux)) ∧
    List.Forall₂ (StringAt m) argPointers args ∧ List.Forall₂ (StringAt m) envPointers env
  aligned : sp % 16 = 0

def stringSize (strings : List (List UInt8)) : ℕ := (strings.map fun s => s.length + 1).sum

/-- The size of the image for a stack that ends at `stack`. -/
def imageSize (args env : List (List UInt8)) (stack : ℕ) : ℕ :=
  stringSize args + stringSize env + (stack - (stringSize args + stringSize env)) % 16 +
    (args.length + env.length + 1) % 2 * 8 + 80 + 8 * (args.length + env.length + 3)

/-- The mapping covers the stack up to `stack`. -/
structure Mapping.Covers (k : Mapping) (stack : ℕ) : Prop where
  le : k.stackUserBase ≤ stack
  lt : stack < 2 ^ 64
  kernel : k.stackKernelBase + (stack - k.stackUserBase) ≤ 2 ^ 64

variable {b : Builder} {stack : ℕ} {l d : List UInt8} {args env : List (List UInt8)}
  {aux : AuxValues}

theorem Mapping.Covers.mapped (h : k.Covers stack) {a : ℕ} (ha : k.stackUserBase ≤ a)
    (hs : a < stack) : k.getKernelMapped a = a - k.stackUserBase + k.stackKernelBase := by
  have := h.lt
  have := h.kernel
  rw [Mapping.getKernelMapped, wsub_of_le (by omega) ha, wadd_of_lt (by omega)]

structure Built (k : Mapping) (stack : ℕ) (b : Builder) (l : List UInt8) : Prop where
  covers : k.Covers stack
  stacked : Stacked (b.user k) b.stackIteration l stack

section
variable (h : Built k stack b l)
include h

theorem Built.store (hd : k.stackUserBase + d.length ≤ b.stackIteration) :
    (b.store k d).stackIteration = b.stackIteration - d.length ∧
      Built k stack (b.store k d) (d ++ l) := by
  have hlt := h.covers.lt
  have hlen := h.stacked.length
  have hsp : wsub b.stackIteration d.length = b.stackIteration - d.length :=
    wsub_of_le (by omega) (by omega)
  have hmem : ∀ x, k.stackUserBase ≤ x → x < stack →
      (b.store k d).user k x = writeAt b.memory
        (k.getKernelMapped (b.stackIteration - d.length)) d (x - k.stackUserBase +
          k.stackKernelBase) := by
    intro x h1 h2
    rw [← h.covers.mapped h1 h2, ← hsp]
    rfl
  have hat : 0 < d.length → k.getKernelMapped (b.stackIteration - d.length) =
      b.stackIteration - d.length - k.stackUserBase + k.stackKernelBase :=
    fun h0 => h.covers.mapped (by omega) (by omega)
  refine ⟨hsp, h.covers, ?_⟩
  change Stacked ((b.store k d).user k) (wsub b.stackIteration d.length) (d ++ l) stack
  rw [hsp]
  refine h.stacked.push (by omega) ?_ ?_
  · apply ext_getElem?
    intro i
    rw [getElem?_readAt]
    split_ifs with hi
    · rw [hmem _ (by omega) (by omega), hat (by omega), show b.stackIteration - d.length + i -
        k.stackUserBase + k.stackKernelBase = b.stackIteration - d.length - k.stackUserBase +
          k.stackKernelBase + i by omega, writeAt_inside hi, getElem?_eq_getElem hi]
    · exact (getElem?_eq_none (by omega)).symm
  · intro x h1 h2
    rw [hmem x (by omega) h2, writeAt_outside]
    · rw [← h.covers.mapped (by omega) h2]
      rfl
    · rcases Nat.eq_zero_or_pos d.length with h0 | h0
      · omega
      · rw [hat h0]
        omega

theorem Built.storeWord (w : ℕ) (hd : k.stackUserBase + 8 ≤ b.stackIteration) :
    (b.storeWord k w).stackIteration = b.stackIteration - 8 ∧
      Built k stack (b.storeWord k w) (wordBytes [w] ++ l) := by
  have h := h.store (d := toLe 8 w) (by rwa [toLe_length])
  rwa [toLe_length, show toLe 8 w = wordBytes [w] from (flatMap_singleton ..).symm] at h

theorem Built.storeAuxv (type value : ℕ) (hd : k.stackUserBase + 16 ≤ b.stackIteration) :
    (b.storeAuxv k type value).stackIteration = b.stackIteration - 16 ∧
      Built k stack (b.storeAuxv k type value) (wordBytes [type, value] ++ l) := by
  have hlen : (toLe 8 type ++ toLe 8 value).length = 16 := by simp
  have h := h.store (by rwa [hlen])
  rw [hlen] at h
  have heq : toLe 8 type ++ toLe 8 value = wordBytes [type, value] := by
    rw [wordBytes, flatMap_cons, flatMap_singleton]
  rw [← heq]
  exact h

theorem Built.foldl_storeWord (ws : List ℕ)
    (hd : k.stackUserBase + 8 * ws.length ≤ b.stackIteration) :
    (ws.foldl (Builder.storeWord k) b).stackIteration = b.stackIteration - 8 * ws.length ∧
      Built k stack (ws.foldl (Builder.storeWord k) b) (wordBytes ws.reverse ++ l) := by
  induction ws generalizing b l with
  | nil => exact ⟨rfl, h⟩
  | cons w ws ih =>
    rw [length_cons] at hd
    obtain ⟨hsp, hb⟩ := h.storeWord w (by omega)
    obtain ⟨hsp', hb'⟩ := ih hb (by omega)
    rw [foldl_cons, reverse_cons, wordBytes_append, append_assoc]
    exact ⟨by rw [hsp', hsp, length_cons]; omega, hb'⟩

theorem Built.copyStrings (strings : List (List UInt8))
    (hd : k.stackUserBase + stringSize strings ≤ b.stackIteration) :
    ∃ l', (b.copyStrings k strings).1.stackIteration = b.stackIteration - stringSize strings ∧
      Built k stack (b.copyStrings k strings).1 (l' ++ l) ∧
      List.Forall₂ (fun p s => Points (l' ++ l) stack p (s ++ [0])) (b.copyStrings k strings).2
        strings := by
  induction strings generalizing b l with
  | nil => exact ⟨[], rfl, h, .nil⟩
  | cons s strings ih =>
    have hsize : stringSize (s :: strings) = s.length + 1 + stringSize strings := sum_cons
    obtain ⟨hsp, hb⟩ := h.store (d := s ++ [0]) (by
      rw [length_append, length_singleton]
      omega)
    rw [length_append, length_singleton] at hsp
    obtain ⟨l', hsp', hb', hps⟩ := ih hb (by omega)
    refine ⟨l' ++ (s ++ [0]), ?_, ?_, ?_⟩
    · change ((b.store k (s ++ [0])).copyStrings k strings).1.stackIteration = _
      omega
    · rw [append_assoc]
      exact hb'
    · rw [append_assoc]
      exact .cons (hb.stacked.points.push l') hps

theorem Built.align (words : ℕ)
    (hd : k.stackUserBase + (b.stackIteration % 16 + words % 2 * 8) ≤ b.stackIteration) :
    (b.align words).stackIteration = b.stackIteration - (b.stackIteration % 16 + words % 2 * 8) ∧
      ∃ l', Built k stack (b.align words) (l' ++ l) := by
  have hlt := h.covers.lt
  have hlen := h.stacked.length
  have hsp : (b.align words).stackIteration =
      b.stackIteration - (b.stackIteration % 16 + words % 2 * 8) := by
    have h16 := Nat.and_two_pow_sub_one_eq_mod b.stackIteration 4
    have h1 := Nat.and_two_pow_sub_one_eq_mod words 1
    simp only [Builder.align, h16, h1]
    split_ifs with hodd
    · rw [wsub_of_le (by omega) (by omega)]
      omega
    · omega
  have hskip := h.stacked.skip (n := b.stackIteration % 16 + words % 2 * 8) (by omega)
  rw [← hsp] at hskip
  exact ⟨hsp, _, h.covers, hskip⟩

end

theorem loadElfExecLoadStack_spec (aux : AuxValues) (args env : List (List UInt8))
    (envp : Option (List (List UInt8))) (henv : envp.getD [] = env) (memory : ℕ → UInt8)
    (hk : k.Covers stack) (hfits : k.stackUserBase + imageSize args env stack ≤ stack) :
    ∃ argPointers envPointers rest,
      Built k stack (loadElfExecLoadStack k aux args envp stack memory)
        (wordBytes (args.length :: (argPointers ++ 0 :: (envPointers.reverse ++
          0 :: auxWords aux))) ++ rest) ∧
      (loadElfExecLoadStack k aux args envp stack memory).stackIteration =
        stack - imageSize args env stack ∧
      List.Forall₂ (fun p s => Points rest stack p (s ++ [0])) argPointers args ∧
      List.Forall₂ (fun p s => Points rest stack p (s ++ [0])) envPointers env := by
  unfold imageSize at hfits ⊢
  have hb0 : Built k stack ⟨memory, stack⟩ [] := ⟨hk, stacked_nil⟩
  have hsize : stack - (stringSize args + stringSize env) =
      stack - stringSize args - stringSize env := by omega
  rw [hsize] at hfits ⊢
  obtain ⟨l1, hsp1, hb1, hargs⟩ := hb0.copyStrings args (by
    change k.stackUserBase + _ ≤ stack
    omega)
  change _ = stack - _ at hsp1
  obtain ⟨l2, hsp2, hb2, henvs⟩ := hb1.copyStrings env (by omega)
  have hapl := hargs.length_eq
  have hepl := henvs.length_eq
  obtain ⟨hsp3, l3, hb3⟩ := hb2.align (args.length + env.length + 1) (by
    rw [hsp2, hsp1]
    omega)
  -- below the strings and the padding everything is linear
  obtain ⟨top, htop⟩ : ∃ top, top = stringSize args + stringSize env +
      (stack - stringSize args - stringSize env) % 16 + (args.length + env.length + 1) % 2 * 8 := ⟨_, rfl⟩
  rw [← htop] at hfits ⊢
  rw [hsp2, hsp1] at hsp3
  replace hsp3 : _ = stack - top := hsp3.trans (by omega)
  obtain ⟨hsp4, hb4⟩ := hb3.storeAuxv atNull 0 (by omega)
  obtain ⟨hsp5, hb5⟩ := hb4.storeAuxv atEntry aux.entry (by omega)
  obtain ⟨hsp6, hb6⟩ := hb5.storeAuxv atPhdr aux.phdr (by omega)
  obtain ⟨hsp7, hb7⟩ := hb6.storeAuxv atPhent aux.phent (by omega)
  obtain ⟨hsp8, hb8⟩ := hb7.storeAuxv atPhnum aux.phnum (by omega)
  obtain ⟨hsp9, hb9⟩ := hb8.storeWord 0 (by omega)
  obtain ⟨hsp10, hb10⟩ := hb9.foldl_storeWord _ (by rw [hepl]; omega)
  rw [hepl] at hsp10
  obtain ⟨hsp11, hb11⟩ := hb10.storeWord 0 (by omega)
  obtain ⟨hsp12, hb12⟩ := hb11.foldl_storeWord (((Builder.mk memory stack).copyStrings k args).2.reverse)
    (by rw [length_reverse, hapl]; omega)
  rw [length_reverse, hapl] at hsp12
  obtain ⟨hsp13, hb13⟩ := hb12.storeWord args.length (by omega)
  have hargs' := hargs.imp fun _ _ hp => (hp.push l2).push l3
  refine ⟨_, _, _, ?_, ?_, hargs', henvs.imp fun _ _ hp => hp.push l3⟩
  · subst henv
    rw [reverse_reverse] at hb13
    simp only [← append_assoc, ← wordBytes_append] at hb13
    simp only [append_assoc, cons_append, nil_append] at hb13
    exact hb13
  · subst henv
    change (Builder.storeWord k _ args.length).stackIteration = _
    rw [hsp13, hsp12, hsp11, hsp10, hsp9, hsp8, hsp7, hsp6, hsp5, hsp4, hsp3]
    omega

theorem StringAt.unique {m : ℕ → UInt8} {p : ℕ} {s t : List UInt8} (hs : StringAt m p s)
    (ht : StringAt m p t) (hs0 : 0 ∉ s) (ht0 : 0 ∉ t) : s = t := by
  -- the shorter string ends where the longer one has its first null byte
  have hle : ∀ {s t : List UInt8}, StringAt m p s → StringAt m p t → 0 ∉ s →
      s.length ≤ t.length := by
    intro s t hs ht h0
    by_contra hlt
    have hs' := congrArg (fun l => l[t.length]?) hs
    have ht' := congrArg (fun l => l[t.length]?) ht
    simp only [getElem?_readAt, length_append, length_singleton] at hs' ht'
    rw [if_pos (by omega)] at hs' ht'
    rw [getElem?_append_left (by omega)] at hs'
    rw [getElem?_concat_length] at ht'
    exact h0 (mem_of_getElem? (hs'.symm.trans ht'))
  have hlen := Nat.le_antisymm (hle hs ht hs0) (hle ht hs ht0)
  unfold StringAt at hs ht
  rw [length_append, hlen, ← length_append, ht] at hs
  exact (append_inj_left' hs rfl).symm

theorem strings_unique {m : ℕ → UInt8} {ps : List ℕ} {ss ts : List (List UInt8)}
    (hs : List.Forall₂ (StringAt m) ps ss) (ht : List.Forall₂ (StringAt m) ps ts)
    (hs0 : ∀ s ∈ ss, 0 ∉ s) (ht0 : ∀ t ∈ ts, 0 ∉ t) : ss = ts := by
  induction hs generalizing ts with
  | nil =>
    cases ht
    rfl
  | cons hp _ ih =>
    cases ht with
    | cons hq hrest =>
      rw [forall_mem_cons] at hs0 ht0
      rw [hp.unique hq hs0.1 ht0.1, ih hrest hs0.2 ht0.2]

/-- The image is the expected one if and only if the environment reads the same in both
directions. -/
theorem image_iff (aux : AuxValues) (args : List (List UInt8))
    (envp : Option (List (List UInt8))) (memory : ℕ → UInt8) (hk : k.Covers stack)
    (hfits : k.stackUserBase + imageSize args (envp.getD []) stack ≤ stack)
    (haux : aux.entry < 2 ^ 64 ∧ aux.phdr < 2 ^ 64 ∧ aux.phent < 2 ^ 64 ∧ aux.phnum < 2 ^ 64)
    (hnull : ∀ s ∈ envp.getD [], 0 ∉ s) :
    Image ((loadElfExecLoadStack k aux args envp stack memory).user k)
        (loadElfExecLoadStack k aux args envp stack memory).stackIteration args (envp.getD []) aux ↔
      (envp.getD []).reverse = envp.getD [] := by
  generalize henv : envp.getD [] = env at *
  obtain ⟨argPointers, envPointers, rest, hb, hsp, hargs, henvs⟩ :=
    loadElfExecLoadStack_spec aux args env envp henv memory hk hfits
  generalize loadElfExecLoadStack k aux args envp stack memory = b at *
  have hlt := hk.lt
  have hal := hargs.length_eq
  have hel := henvs.length_eq
  have hstring : ∀ p s, Points rest stack p (s ++ [0]) → StringAt (b.user k) p s :=
    fun p s hp => hb.stacked.read (hp.push _)
  have hbound : ∀ (ps : List ℕ) (ss : List (List UInt8)),
      List.Forall₂ (fun p s => Points rest stack p (s ++ [0])) ps ss → ∀ p ∈ ps, p < 2 ^ 64 := by
    intro ps ss h
    induction h with
    | nil => exact fun p hp => absurd hp not_mem_nil
    | cons hp _ ih =>
      obtain ⟨front, back, -, htop⟩ := hp
      exact forall_mem_cons.mpr ⟨by omega, ih⟩
  have hwords : wordsAt (b.user k) b.stackIteration (args.length + env.length + 13) =
      args.length :: (argPointers ++ 0 :: (envPointers.reverse ++ 0 :: auxWords aux)) := by
    have hlen : (args.length :: (argPointers ++ 0 :: (envPointers.reverse ++
        0 :: auxWords aux))).length = args.length + env.length + 13 := by
      simp only [length_cons, length_append, length_reverse, auxWords, length_nil]
      omega
    rw [← hlen]
    apply wordsAt_of_bytes
    · have hconst : ∀ w ∈ auxWords aux, w < 2 ^ 64 := by
        simp only [auxWords, forall_mem_cons, not_mem_nil, false_imp_iff, implies_true,
          and_true, atPhnum, atPhent, atPhdr, atEntry, atNull]
        omega
      simp only [forall_mem_cons, forall_mem_append, mem_reverse]
      exact ⟨by unfold imageSize at hfits; omega, hbound _ _ hargs, by decide, hbound _ _ henvs,
        by decide, hconst⟩
    · rw [← wordBytes_length]
      exact hb.stacked.read hb.stacked.points
  have haligned : b.stackIteration % 16 = 0 := by
    rw [hsp]
    unfold imageSize
    omega
  have henvs' := List.forall₂_reverse_iff.mpr (henvs.imp fun p s => hstring p s)
  constructor
  · rintro ⟨⟨ap, ep, hw, hap, hep⟩, -⟩
    have hw := tail_eq_of_cons_eq (hwords.symm.trans hw)
    have hw := (append_inj hw (hal.trans hap.length_eq.symm)).2
    have hw := tail_eq_of_cons_eq hw
    obtain ⟨rfl, -⟩ := append_inj hw (by rw [length_reverse, hel, hep.length_eq])
    exact strings_unique henvs' hep (fun s hs => hnull s (mem_reverse.mp hs)) hnull
  · intro hrev
    rw [hrev] at henvs'
    exact ⟨⟨argPointers, envPointers.reverse, hwords, hargs.imp fun p s => hstring p s, henvs'⟩,
      haligned⟩

def sampleMapping : Mapping := ⟨0x7000, 0x100000⟩

def sampleAux : AuxValues := ⟨0x400000, 0x400040, 56, 9⟩

theorem image_of_two_arguments :
    Image ((loadElfExecLoadStack sampleMapping sampleAux [[97], [98, 99]] (some [[88, 61, 49]]) 0x8000
        fun _ => 0).user sampleMapping)
      (loadElfExecLoadStack sampleMapping sampleAux [[97], [98, 99]] (some [[88, 61, 49]]) 0x8000
        fun _ => 0).stackIteration [[97], [98, 99]] [[88, 61, 49]] sampleAux :=
  (image_iff sampleAux [[97], [98, 99]] (some [[88, 61, 49]]) (fun _ => 0)
    ⟨by decide, by decide, by decide⟩ (by decide) (by decide) (by decide)).mpr rfl

/-- With the variables `X` and `Y` the first pointer of the environment points to `Y`. -/
theorem environment_reversed :
    wordsAt ((loadElfExecLoadStack sampleMapping sampleAux [[97]] (some [[88], [89]]) 0x8000
        fun _ => 0).user sampleMapping)
      (loadElfExecLoadStack sampleMapping sampleAux [[97]] (some [[88], [89]]) 0x8000
        fun _ => 0).stackIteration 6 = [1, 0x7ffe, 0, 0x7ffa, 0x7ffc, 0] ∧
    StringAt ((loadElfExecLoadStack sampleMapping sampleAux [[97]] (some [[88], [89]]) 0x8000
        fun _ => 0).user sampleMapping) 0x7ffa [89] ∧
    ¬ Image ((loadElfExecLoadStack sampleMapping sampleAux [[97]] (some [[88], [89]]) 0x8000
        fun _ => 0).user sampleMapping)
      (loadElfExecLoadStack sampleMapping sampleAux [[97]] (some [[88], [89]]) 0x8000
        fun _ => 0).stackIteration [[97]] [[88], [89]] sampleAux := by
  have hwords : wordsAt ((loadElfExecLoadStack sampleMapping sampleAux [[97]] (some [[88], [89]])
      0x8000 fun _ => 0).user sampleMapping) (loadElfExecLoadStack sampleMapping sampleAux [[97]]
      (some [[88], [89]]) 0x8000 fun _ => 0).stackIteration 6 = [1, 0x7ffe, 0, 0x7ffa, 0x7ffc, 0] := by
    decide +kernel
  have hthird : ∀ (m : ℕ → UInt8) (a : ℕ), (wordsAt m a 16)[3]? = (wordsAt m a 6)[3]? := fun _ _ => rfl
  have hfirst : ¬ StringAt ((loadElfExecLoadStack sampleMapping sampleAux [[97]]
      (some [[88], [89]]) 0x8000 fun _ => 0).user sampleMapping) 0x7ffa [88] := by
    unfold StringAt
    decide +kernel
  refine ⟨hwords, by unfold StringAt; decide +kernel, ?_⟩
  rintro ⟨⟨ap, ep, hw, hap, hep⟩, -⟩
  obtain ⟨a, rfl⟩ := length_eq_one_iff.mp hap.length_eq
  obtain ⟨x, y, rfl⟩ := length_eq_two.mp hep.length_eq
  have hx : some x = some 0x7ffa := calc
    some x = (wordsAt _ _ 16)[3]? := (congrArg (fun l => l[3]?) hw).symm
    _ = (wordsAt _ _ 6)[3]? := hthird _ _
    _ = some 0x7ffa := congrArg (fun l => l[3]?) hwords
  cases hx
  exact hfirst (List.forall₂_cons.mp hep).1

end Kot.Kernel.Elf
