import Kot.Fat.Calls

/-! Every call of the driver is a sequence of the steps of `Step`. -/
namespace Kot.Fat

open Kot.Kernel Kot.Lib Kot.Lib.Program List

variable {ctx : Context} {env : Env} {α : Type}

/-- A program whose runs are sequences of steps on the volume. -/
abbrev Steps (ctx : Context) (m : FatM α) : Prop := Program.Keeps (Step ctx) m

theorem addressSpace_lt : addressSpace < 2 ^ 63 := by
  unfold addressSpace
  omega

theorem clusterSize_lt (ctx : Context) : ctx.clusterSize < 2 ^ 17 := by
  have := ctx.bpb.sectorsPerCluster.toNat_lt
  rw [ctx.clusterSize_eq]
  omega

variable {alignement size c a turns n start : ℕ} {bytes data : List UInt8} {cur : Cursor}
  {v v' : Volume} {name : Name} {info : EntryInfo} {file : File} {isEndOfFile : Bool}
  {s t : Session} {current next base source destination maxEntryCount position : ℕ} {names : List Name}
  {dir entry oldDir newDir : Entry} {path oldPath newPath : List UInt8} {useLfn create : Bool}

theorem chunkSize_eq_min (ha : alignement < ctx.clusterSize) (hs : alignement + size < 2 ^ 64) :
    chunkSize ctx alignement size = min size (ctx.clusterSize - alignement) := by
  unfold chunkSize
  rw [wadd_of_lt hs]
  split_ifs <;> omega

theorem chunkSize_eq (ha : alignement < ctx.clusterSize)
    (hs : size < 2 ^ 63) : chunkSize ctx alignement size = min size (ctx.clusterSize - alignement) := by
  have hc := clusterSize_lt ctx
  exact chunkSize_eq_min ha (by omega)

theorem steps_assertOk {m : FatM (Option Errno)} (hm : Steps ctx m) : Steps ctx (assertOk m) :=
  .bind hm (.option (.pure _) fun _ => .throw _)

theorem steps_onlyIf {flag : Bool} {m : FatM Unit} (hm : Steps ctx m) : Steps ctx (onlyIf flag m) :=
  .ite hm (.pure _)

theorem steps_deref {a : Option α} : Steps ctx (deref a) :=
  Keeps.option (f := deref) (.throw _) .pure a

theorem steps_getNextCluster : Steps ctx (fatGetNextCluster ctx c) := by
  refine .of_unchanged fun v a v' h => ?_
  unfold fatGetNextCluster at h
  split_ifs at h
  cases h
  rfl

theorem steps_setNextCluster : Steps ctx (fatSetNextCluster ctx c n) :=
  .step fun _ _ _ h => .link c n h

theorem steps_allocateCluster : Steps ctx (fatAllocateCluster ctx) :=
  .step fun _ r _ h => .allocate r h

theorem steps_freeCluster : Steps ctx (fatFreeCluster ctx c) := .step fun _ _ _ h => .free c h

theorem steps_writeCluster (ha : a ≤ ctx.clusterSize)
    (hb : bytes.length ≤ ctx.clusterSize) : Steps ctx (fatWriteCluster ctx c a bytes) :=
  .step fun _ r _ h => .writeCluster c a bytes r ha hb h

theorem steps_freeLoop : Steps ctx (freeLoop ctx turns c) := by
  induction turns generalizing c with
  | zero => exact .throw _
  | succ turns ih =>
    rw [freeLoop]
    refine .ite (.pure _) ?_
    refine .bind steps_getNextCluster fun next => ?_
    exact .bind steps_freeCluster fun _ => ih

theorem steps_lift {r : Except Fault α} : Steps ctx (liftM r : FatM α) := by
  refine .of_unchanged fun v a v' h => ?_
  cases r with
  | error e => cases h
  | ok a => cases h; rfl

theorem steps_readLoop : Steps ctx (readLoop ctx turns c a n) := by
  induction turns generalizing c a n with
  | zero => exact .throw _
  | succ turns ih =>
    rw [readLoop]
    refine .ite (.pure _) (.ite ?_ ?_)
    · exact .bind (.bind .get fun _ => steps_lift) fun _ =>
        .bind steps_getNextCluster fun _ => .bind ih fun _ => .pure _
    · exact .bind steps_getNextCluster fun _ => ih

theorem steps_nextOrFresh : Steps ctx (nextOrFresh ctx current next) := by
  refine .ite (.bind steps_allocateCluster (.option (.pure _) fun fresh => ?_)) (.pure _)
  exact .bind steps_setNextCluster fun _ => .pure _

theorem steps_writeChunk (ha : a ≤ ctx.clusterSize)
    (hb : bytes.length ≤ ctx.clusterSize) : Steps ctx (writeChunk ctx c a bytes) :=
  .ite (.pure _) (steps_assertOk (steps_writeCluster ha hb))

theorem steps_writeLoop (hd : data.length < addressSpace) : Steps ctx (writeLoop ctx turns cur a data) := by
  induction turns generalizing cur a data with
  | zero => exact .throw _
  | succ turns ih =>
    rw [writeLoop]
    refine .ite (.pure _) ?_
    refine .bind steps_nextOrFresh (.option (.pure _) fun current => ?_)
    by_cases ha : a < ctx.clusterSize
    · have hn := chunkSize_eq ha (Nat.lt_trans hd addressSpace_lt)
      simp only [ha, if_true]
      refine .bind (steps_writeChunk ha.le ?_) fun _ => .bind steps_getNextCluster fun _ =>
        .bind (ih ?_) fun _ => .pure _
      · rw [length_take, hn]
        omega
      · rw [length_drop]
        omega
    · simp only [ha, if_false]
      exact .bind steps_getNextCluster fun _ => ih hd

theorem writeLoop_last_le {cur cur' : Cursor} {a written : ℕ}
    (hd : data.length < addressSpace) (hlast : cur.last ≤ ctx.clusterSize)
    (h : writeLoop ctx turns cur a data v = .ok ((some cur', written), v')) :
    cur'.last ≤ ctx.clusterSize := by
  induction turns generalizing cur a data v written with
  | zero => cases h
  | succ turns ih =>
    rw [writeLoop] at h
    by_cases hend : data = [] ∧ a = 0
    · rw [if_pos hend] at h
      cases h
      exact hlast
    · rw [if_neg hend] at h
      obtain ⟨r, v1, _, h⟩ := bind_eq_ok.mp h
      cases r with
      | none => cases h
      | some current =>
        by_cases ha : a < ctx.clusterSize
        · simp only [ha, if_true] at h
          obtain ⟨_, v2, _, h⟩ := bind_eq_ok.mp h
          obtain ⟨next, v3, _, h⟩ := bind_eq_ok.mp h
          obtain ⟨⟨c, w⟩, v4, hrec, h⟩ := bind_eq_ok.mp h
          cases h
          refine ih ?_ ?_ hrec
          · rw [length_drop]
            omega
          · simp only [chunkSize_eq ha (Nat.lt_trans hd addressSpace_lt)]
            omega
        · simp only [ha, if_false] at h
          obtain ⟨next, v2, _, h⟩ := bind_eq_ok.mp h
          refine ih hd ?_ h
          exact hlast

theorem steps_fillWithZero (h : cur.last ≤ ctx.clusterSize) : Steps ctx (fillWithZero ctx cur) := by
  have hc := clusterSize_lt ctx
  refine steps_assertOk (steps_writeCluster ?_ ?_)
  · exact (Nat.mod_le _ _).trans h
  · rw [length_replicate, Nat.mod_eq_of_lt (by omega), wsub_of_le (by omega) h]
    omega

theorem steps_endChain : Steps ctx (endChain ctx cur) := by
  refine .ite (.pure _) ?_
  exact .bind steps_freeLoop fun _ => steps_setNextCluster

theorem steps_writeClusterChain {eoc fwz : Bool} (hd : data.length < addressSpace) :
    Steps ctx (fatWriteClusterChain ctx c a data eoc fwz) := by
  intro v r v' h
  obtain ⟨⟨cur, written⟩, v1, hloop, h⟩ := bind_eq_ok.mp h
  refine (steps_writeLoop hd _ _ _ hloop).trans ?_
  cases cur with
  | none => exact (Program.Keeps.pure _) _ _ _ h
  | some cur =>
    have hlast := writeLoop_last_le hd (Nat.zero_le _) hloop
    exact (Program.Keeps.bind (steps_onlyIf (steps_fillWithZero hlast)) fun _ =>
      .bind (steps_onlyIf steps_endChain) fun _ => .pure _) _ _ _ h

theorem steps_withCache {base : ℕ} {scan : (ℕ → Cache → Except Fault (Option Entry × Cache)) →
    Cache → Except Fault (α × Cache)} : Steps ctx (withCache ctx base scan) := by
  refine .step fun v a v' h => ?_
  obtain ⟨⟨b, k⟩, _, h⟩ := Kernel.bind_eq_ok h
  cases h
  exact .fill v _

theorem steps_fill {f : Volume → List UInt8} :
    Steps ctx (modify fun v => { v with buffer := f v } : FatM Unit) := by
  refine .step fun v a v' h => ?_
  cases h
  exact .fill v _

theorem steps_getDirSize : Steps ctx (fatGetDirSize ctx dir) :=
  .bind steps_withCache fun _ => .pure _

theorem steps_findEntry : Steps ctx (fatFindEntry ctx c name) :=
  .bind steps_withCache fun _ => .pure _

theorem steps_descend : Steps ctx (descend ctx dir names) := by
  induction names generalizing dir with
  | nil => exact .pure _
  | cons name names ih => exact .bind steps_findEntry (.option (.pure _) fun d => .ite ih (.pure _))

theorem steps_findLastDirectory : Steps ctx (fatFindLastDirectory ctx dir path) :=
  .bind steps_descend fun _ => .pure _

theorem steps_findEntryInfoWithPath : Steps ctx (fatFindEntryInfoWithPath ctx dir path) :=
  .bind steps_findLastDirectory (.option (.pure _) fun _ => .bind steps_withCache fun _ => .pure _)

theorem steps_findEntryWithPath : Steps ctx (fatFindEntryWithPath ctx dir path) :=
  .bind steps_findLastDirectory (.option (.pure _) fun _ => steps_findEntry)

theorem steps_mallocBuffer : Steps ctx (mallocBuffer ctx env) := steps_fill

theorem searchLoop_error {base nameSize : ℕ} {k : Cache} (h : ctx.entriesPerCluster = 0) :
    searchLoop (fatReadEntryWithCache ctx v base) nameSize name k = .error .panic := by
  have hb : loopBound = (2 ^ 32 - 1) + 1 := rfl
  rw [searchLoop, hb, scanLoop, fatReadEntryWithCache, if_pos h]
  rfl

theorem findEntryInfo_position (h : fatFindEntryInfo ctx c name v = .ok (some info, v')) :
    ∃ cluster index, index < ctx.entriesPerCluster ∧
      info.sfnPosition = ctx.clusterPosition cluster + index * 32 := by
  obtain ⟨⟨item, k⟩, v1, hscan, h⟩ := bind_eq_ok.mp h
  obtain ⟨⟨found, k'⟩, hs, _⟩ := Kernel.bind_eq_ok hscan
  have hpos : 0 < ctx.entriesPerCluster := by
    by_contra h0
    obtain ⟨_, hsearch, _⟩ := Kernel.bind_eq_ok hs
    rw [searchLoop_error (Nat.eq_zero_of_not_pos h0)] at hsearch
    cases hsearch
  cases item with
  | none => cases h
  | some item =>
    cases h
    exact ⟨k.last, item.index % ctx.entriesPerCluster, Nat.mod_lt _ hpos, rfl⟩

theorem findEntryInfoWithPath_position
    (h : fatFindEntryInfoWithPath ctx dir path v = .ok (some info, v')) :
    ∃ cluster index, index < ctx.entriesPerCluster ∧
      info.sfnPosition = ctx.clusterPosition cluster + index * 32 := by
  obtain ⟨r, v1, _, h⟩ := bind_eq_ok.mp h
  cases r with
  | none => cases h
  | some _ => exact findEntryInfo_position h

theorem steps_updateEntryWithPath : Steps ctx (fatUpdateEntryWithPath ctx env dir path entry) := by
  intro v r v' h
  obtain ⟨_, v1, h1, h⟩ := bind_eq_ok.mp h
  obtain ⟨_, v2, h2, h⟩ := bind_eq_ok.mp h
  obtain ⟨info, v3, h3, h⟩ := bind_eq_ok.mp h
  obtain ⟨_, v4, h4, h5⟩ := bind_eq_ok.mp h
  cases h1
  refine (steps_mallocBuffer _ _ _ h2).trans <|
    (steps_findEntryInfoWithPath _ _ _ h3).trans <| (steps_fill _ _ _ h4).trans ?_
  cases info with
  | none => cases h5; exact .refl
  | some info =>
    obtain ⟨cluster, index, hi, hp⟩ := findEntryInfoWithPath_position h3
    simp only [hp] at h5
    exact .single (.writeEntry cluster index entry r hi h5)

theorem newEntries_length (entry : Entry) (behind : List UInt8) :
    ((newEntries entry name behind useLfn).flatMap Entry.bytes).length < addressSpace := by
  have hlen : ∀ l : List Entry, (l.flatMap Entry.bytes).length = 32 * l.length := by
    intro l
    induction l with
    | nil => rfl
    | cons e l ih =>
      rw [flatMap_cons, length_append, ih, e.length_eq, length_cons]
      omega
  rw [hlen, newEntries, length_append, length_map, length_range, length_singleton,
    addressSpace]
  split_ifs <;> omega

theorem steps_addEntryWithPath : Steps ctx (fatAddEntryWithPath ctx env dir path entry useLfn) := by
  refine .bind steps_findLastDirectory (.option (.pure _) fun r => ?_)
  refine .bind steps_findEntry (.option ?_ fun _ => .pure _)
  exact .bind steps_getDirSize fun _ =>
    .bind (steps_writeClusterChain (newEntries_length ..)) fun _ => .pure _

theorem readChunk_eq_ok : readChunk ctx c a n v = .ok (bytes, v') ↔
      fatReadCluster ctx v.disk c a n = some bytes ∧ v' = v := by
  rw [readChunk, bind_of_ok get_eq_ok]
  generalize fatReadCluster ctx v.disk c a n = r
  cases r with
  | none =>
    constructor
    · intro h
      cases h
    · rintro ⟨h, _⟩
      cases h
  | some b =>
    constructor
    · intro h
      cases h
      exact ⟨rfl, rfl⟩
    · rintro ⟨h, rfl⟩
      cases h
      rfl

theorem readCluster_length {disk : ℕ → UInt8} (h : fatReadCluster ctx disk c a n = some bytes) : bytes.length = n := by
  obtain ⟨acc, hacc, rfl⟩ := Option.map_eq_some_iff.mp h
  rw [readAt_length, Context.clusterAccess_size hacc]

theorem readLoop_length (hn : n < addressSpace) (h : readLoop ctx turns c a n v = .ok (bytes, v')) :
    bytes.length ≤ n := by
  induction turns generalizing c a n bytes v with
  | zero => cases h
  | succ turns ih =>
    rw [readLoop] at h
    by_cases hend : n = 0 ∨ IsEnd c
    · rw [if_pos hend] at h
      cases h
      exact Nat.zero_le _
    · rw [if_neg hend] at h
      by_cases ha : a < ctx.clusterSize
      · rw [if_pos ha] at h
        obtain ⟨chunk, v1, hchunk, h⟩ := bind_eq_ok.mp h
        obtain ⟨next, v2, _, h⟩ := bind_eq_ok.mp h
        obtain ⟨rest, v3, hrest, h⟩ := bind_eq_ok.mp h
        cases h
        have hc := readCluster_length (readChunk_eq_ok.mp hchunk).1
        have hr := ih (by omega) hrest
        rw [chunkSize_eq ha (Nat.lt_trans hn addressSpace_lt)] at hc hr
        rw [length_append, hc]
        omega
      · rw [if_neg ha] at h
        obtain ⟨next, v1, _, h⟩ := bind_eq_ok.mp h
        exact ih hn h

theorem steps_removeRange : Steps ctx (removeRange ctx env base source destination size) := by
  by_cases hs : addressSpace ≤ size
  · rw [removeRange, if_pos hs]
    exact .throw _
  · rw [removeRange, if_neg hs]
    intro v r v' h
    obtain ⟨bytes, v1, hread, h⟩ := bind_eq_ok.mp h
    refine (steps_readLoop _ _ _ hread).trans ?_
    have hlen := readLoop_length (Nat.lt_of_not_le hs) hread
    refine (steps_assertOk (.bind (steps_writeClusterChain ?_) fun _ => .pure _)) _ _ _ h
    rw [length_append, length_drop, freshBlock, length_map, length_range]
    omega

theorem steps_removeEntryWithPath : Steps ctx (fatRemoveEntryWithPath ctx env dir path) := by
  refine .bind steps_findLastDirectory (.option (.pure _) fun r => ?_)
  refine .bind steps_findEntryInfoWithPath (.option (.pure _) fun info => ?_)
  exact .bind steps_getDirSize fun _ => .bind steps_removeRange fun _ => .pure _

theorem steps_removeAndClearEntryWithPath :
    Steps ctx (fatRemoveAndClearEntryWithPath ctx env dir path) := by
  refine .bind steps_findLastDirectory (.option (.throw _) fun r => ?_)
  refine .bind steps_findEntryWithPath (.option (.pure _) fun entry => ?_)
  exact .bind (steps_assertOk steps_removeEntryWithPath) fun _ =>
    .bind steps_freeLoop fun _ => .pure _

theorem steps_updateDotDot : Steps ctx (updateDotDot ctx env entry newDir newPath) := by
  refine .bind steps_findLastDirectory fun r => .bind steps_deref fun parent => ?_
  exact .bind steps_updateEntryWithPath (.option (.pure _) fun _ => .pure _)

theorem steps_renameEntryWithPath :
    Steps ctx (fatRenameEntryWithPath ctx env oldDir newDir oldPath newPath) := by
  rw [fatRenameEntryWithPath]
  refine .ite (.pure _) ?_
  refine .bind steps_findEntryWithPath fun r => .bind steps_deref fun entry => ?_
  refine .ite (.pure _) ?_
  refine .bind steps_deref fun newName => ?_
  refine .bind steps_addEntryWithPath (.option ?_ fun _ => .pure _)
  refine .bind steps_removeEntryWithPath (.option ?_ fun _ => .pure _)
  exact .ite steps_updateDotDot (.pure _)

theorem steps_removeFile : Steps ctx (fatRemoveFile ctx env path) := by
  refine .bind steps_mallocBuffer fun _ => .bind steps_findEntryWithPath ?_
  exact .option (.pure _) fun dir => .ite (.pure _) steps_removeAndClearEntryWithPath

theorem steps_openEntry : Steps ctx (openEntry ctx env path entry) := by
  refine .ite (.pure _) (.ite ?_ (.pure _))
  exact .bind steps_updateEntryWithPath fun _ => .pure _

theorem steps_openFile : Steps ctx (fatOpenFile ctx env path create) := by
  refine .bind steps_mallocBuffer fun _ => .bind steps_findEntryWithPath ?_
  refine .option (.ite ?_ (.pure _)) fun entry => steps_openEntry
  refine .bind (.ite (.pure _) steps_addEntryWithPath) (.option ?_ fun err => .pure _)
  exact .bind steps_findEntryWithPath (.option (.throw _) fun entry => steps_openEntry)

theorem steps_fileRead : Steps ctx (fatFileRead ctx file start size) := by
  have hread : Steps ctx (readFrom ctx file start size) := .ite steps_readLoop (.pure _)
  exact .bind hread fun _ => .pure _

theorem steps_writeFrom (hd : data.length < addressSpace) :
    Steps ctx (writeFrom ctx env file start data isEndOfFile) :=
  .bind (steps_writeClusterChain hd) fun _ =>
    .bind steps_updateEntryWithPath fun _ => .pure _

theorem steps_fileWrite {sizeWrite : ℕ} (hd : data.length < addressSpace) :
    Steps ctx (fatFileWrite ctx env file start data sizeWrite isEndOfFile) := by
  refine .ite (.pure _) (.ite ?_ (steps_writeFrom hd))
  exact .bind steps_allocateCluster (.option (.pure _) fun cluster => steps_writeFrom hd)

theorem steps_addDotEntries : Steps ctx (addDotEntries ctx env path entry) :=
  .bind (steps_assertOk steps_addEntryWithPath) fun _ =>
    .bind steps_findLastDirectory fun r => .bind steps_deref fun _ =>
      steps_assertOk steps_addEntryWithPath

theorem steps_createDir : Steps ctx (fatCreateDir ctx env path) := by
  refine .ite (.pure _) (.bind steps_allocateCluster (.option (.pure _) fun base => ?_))
  have hlen := length_replicate (n := ctx.clusterSize) (a := (0 : UInt8))
  refine .bind (steps_assertOk (steps_writeCluster (Nat.zero_le _) hlen.le)) fun _ =>
    .bind steps_mallocBuffer fun _ => .bind steps_addEntryWithPath (.option ?_ fun _ => ?_)
  · exact .bind steps_addDotEntries fun _ => .pure _
  · exact .bind steps_freeCluster fun _ => .pure _

theorem steps_removeDir : Steps ctx (fatRemoveDir ctx env path) := by
  refine .bind steps_mallocBuffer fun _ => .bind steps_findEntryWithPath fun r =>
    .bind steps_deref fun dir => ?_
  refine .ite (.ite (.pure _) ?_) (.pure _)
  refine .bind steps_getDirSize fun _ => ?_
  exact .ite (.pure _) steps_removeAndClearEntryWithPath

theorem steps_rename : Steps ctx (fatRename ctx env oldPath newPath) :=
  .bind steps_mallocBuffer fun _ => steps_renameEntryWithPath

theorem steps_openDir : Steps ctx (fatOpenDir ctx env path) := by
  have hfind : Steps ctx (findDir ctx path) := .ite (.pure _) steps_findEntryWithPath
  exact .bind steps_mallocBuffer fun _ =>
    .bind hfind (.option (.pure _) fun dir => .ite (.pure _) (.pure _))

theorem steps_listDir : Steps ctx (fatListDir ctx env dir maxEntryCount position) :=
  .bind steps_mallocBuffer fun _ => .bind steps_withCache fun _ => .pure _

theorem steps_of_call {m : FatM α} {f : α × Volume → Except Fault Session} (hm : Steps ctx m)
    (h : (m v >>= f) = .ok t) (hf : ∀ a v t, f (a, v) = .ok t → t.volume = v) :
    Relation.ReflTransGen (Step ctx) v t.volume := by
  obtain ⟨⟨a, v'⟩, hcall, h⟩ := Kernel.bind_eq_ok h
  rw [hf a v' t h]
  exact hm _ _ _ hcall

theorem perform_steps {c : Call} (h : perform ctx s env c = .ok t) :
    Relation.ReflTransGen (Step ctx) s.volume t.volume := by
  cases c with
  | fileOpen handle path create => exact steps_of_call steps_openFile h (by rintro _ _ _ ⟨⟩; rfl)
  | fileClose handle => cases h; exact .refl
  | fileRead handle size =>
    rw [perform] at h
    cases hf : s.files handle with
    | none => rw [hf] at h; cases h; exact .refl
    | some f =>
      rw [hf] at h
      exact steps_of_call (.bind steps_fileRead fun _ => .pure _) h (by rintro _ _ _ ⟨⟩; rfl)
  | fileWrite handle data sizeWrite =>
    rw [perform] at h
    cases hf : s.files handle with
    | none => rw [hf] at h; cases h; exact .refl
    | some f =>
      rw [hf] at h
      exact steps_of_call (.bind (steps_fileWrite data.fits) fun _ => .pure _) h (by rintro _ _ _ ⟨⟩; rfl)
  | fileSeek handle position =>
    rw [perform] at h
    cases hf : s.files handle with
    | none | some f => rw [hf] at h; cases h; exact .refl
  | fileRemove path => exact steps_of_call steps_removeFile h (by rintro _ _ _ ⟨⟩; rfl)
  | dirCreate path => exact steps_of_call steps_createDir h (by rintro _ _ _ ⟨⟩; rfl)
  | dirRemove path => exact steps_of_call steps_removeDir h (by rintro _ _ _ ⟨⟩; rfl)
  | dirList path maxEntryCount position =>
    obtain ⟨⟨dir, volume⟩, hopen, h⟩ := Kernel.bind_eq_ok h
    have hsteps := steps_openDir _ _ _ hopen
    cases dir with
    | error _ => cases h; exact hsteps
    | ok dir => exact hsteps.trans (steps_of_call steps_listDir h (by rintro _ _ _ ⟨⟩; rfl))
  | rename oldPath newPath => exact steps_of_call steps_rename h (by rintro _ _ _ ⟨⟩; rfl)

theorem run_steps {cs : List (Call × Env)} (h : Run (callStep ctx) s cs t) :
    Relation.ReflTransGen (Step ctx) s.volume t.volume := by
  induction h with
  | nil => exact .refl
  | snoc _ hcall ih => exact ih.trans (perform_steps hcall)

end Kot.Fat
