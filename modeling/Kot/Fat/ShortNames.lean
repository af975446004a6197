import Kot.Fat.Append

/-! Runs of creations in one directory and the short names that they generate. -/
namespace Kot.Fat

open Kot.Kernel Kot.Lib Kot.Lib.Program List

variable {ctx : Context} {v v' : Volume} {base : ℕ} {cs : List ℕ}

def Entry.shortName (e : Entry) : List UInt8 := e.bytes.take 11

def shortNames (rs : List Entry) : List (List UInt8) :=
  (rs.filter fun e => e.Valid ∧ ¬ e.IsLfn).map Entry.shortName

@[simp] theorem shortNames_append (l r : List Entry) :
    shortNames (l ++ r) = shortNames l ++ shortNames r := by
  rw [shortNames, filter_append, map_append]
  rfl

theorem shortNames_eq_nil {rs : List Entry} (h : ∀ e ∈ rs, e.IsLfn) : shortNames rs = [] := by
  rw [shortNames, map_eq_nil_iff, filter_eq_nil_iff]
  intro e he
  simp [h e he]

theorem isLfn_of_mem_lfnRecords {c : ℕ} {sum : UInt8} {name : Name} {e : Entry}
    (h : e ∈ lfnRecords c sum name) : e.IsLfn := by
  obtain ⟨i, _, rfl⟩ := mem_map.mp h
  exact lfnEntry_isLfn ..

theorem shortNames_newEntries (entry : Entry) (name : Name) (behind : List UInt8) (useLfn : Bool) :
    shortNames (newEntries entry name behind useLfn) =
      if (sfnEntry entry name behind).Valid then [(sfnEntry entry name behind).shortName] else [] := by
  rw [newEntries_eq, shortNames_append, shortNames_eq_nil fun _ => isLfn_of_mem_lfnRecords,
    nil_append, shortNames]
  have hlfn := sfnEntry_not_isLfn entry name behind
  split_ifs with hvalid <;> simp [hvalid, hlfn]

theorem sizeFrom_le (index last : ℕ) (rs : List Entry) (h : last ≤ index) :
    sizeFrom index last rs ≤ index + rs.length := by
  induction rs generalizing index last with
  | nil => exact h
  | cons e rs ih =>
    rw [sizeFrom, length_cons]
    refine (ih _ _ ?_).trans (by omega)
    split_ifs <;> omega

structure Creation where
  env : Env
  /-- the directory that the path starts from -/
  start : Entry
  path : List UInt8
  entry : Entry
  useLfn : Bool

namespace Creation

variable (op : Creation)

def name : Name := (splitPath op.path).2

def behind : List UInt8 := freshBlock op.env.behind 3

def entries : List Entry := newEntries op.entry op.name op.behind op.useLfn

def sfn : Entry := sfnEntry op.entry op.name op.behind

/-- Where the new records go: behind the last valid one, as a `uint32_t` in bytes. -/
def place (rs : List Entry) : ℕ := sizeFrom 0 0 rs % 2 ^ 27

/-- The records of the directory that are neither written over nor cut off, and those that stand
behind the new ones in an attached cluster. -/
def kept (ctx : Context) (v : Volume) (cs : List ℕ) : List Entry :=
  (records ctx v cs).take (place (records ctx v cs)) ++
    (records ctx v (target ctx v cs (place (records ctx v cs) + op.entries.length))).drop
      (place (records ctx v cs) + op.entries.length)

def Room (ctx : Context) (v : Volume) (cs : List ℕ) : Prop :=
  clustersFor ctx (place (records ctx v cs) + op.entries.length) ≤ cs.length + (v.freeList ctx).length

end Creation

theorem Creation.place_le (rs : List Entry) : Creation.place rs ≤ rs.length := by
  have hle := sizeFrom_le 0 0 rs (Nat.le_refl 0)
  rw [Creation.place]
  exact (Nat.mod_le _ _).trans (by omega)

theorem Creation.records_eq (hs : ctx.Sound) {op : Creation} {dir : Entry} {v1 : Volume}
    (hlast : fatFindLastDirectory ctx op.start op.path v = .ok (some (dir, op.name), v1))
    (hc : Chain ctx v.next (fatGetClusterEntry ctx dir) cs) (hne : cs ≠ [])
    (hfresh : FreshData ctx v cs (place (records ctx v cs) + op.entries.length))
    (hadd : fatAddEntryWithPath ctx op.env op.start op.path op.entry op.useLfn v = .ok (none, v')) :
    ∃ cs', cs' ≠ [] ∧ Chain ctx v'.next (fatGetClusterEntry ctx dir) cs' ∧
      ((op.Room ctx v cs ∧ records ctx v' cs' =
          (records ctx v cs).take (place (records ctx v cs)) ++ op.entries ++
            (records ctx v (target ctx v cs (place (records ctx v cs) + op.entries.length))).drop
              (place (records ctx v cs) + op.entries.length)) ∨
        (¬ op.Room ctx v cs ∧ ∃ j, j ≤ lfnWritten op.name op.useLfn ∧ records ctx v' cs' =
          (records ctx v cs).take (place (records ctx v cs)) ++ op.entries.take j)) := by
  obtain ⟨_, buffer, r, hwrite⟩ := fatAddEntryWithPath_cases hs hlast hc hne hadd
  rw [writeClusterChain_mod] at hwrite
  have hplace := place_le (records ctx v cs)
  have hsmall : place (records ctx v cs) < 2 ^ 27 := Nat.mod_lt _ (by decide)
  have hcount : op.entries.length = lfnWritten op.name op.useLfn + 1 := length_newEntries ..
  have hlt := lfnWritten_lt op.name op.useLfn
  have hes : op.entries ≠ [] := length_pos_iff.mp (by omega)
  by_cases hroom : op.Room ctx v cs
  · obtain ⟨v2, _, hok, hc', heq⟩ := writeRecords_room (v := v.withBuffer buffer) hs hc hne hplace hsmall
      hes (by omega) hfresh hroom
    obtain ⟨_, rfl⟩ : _ ∧ v2 = v' := by simpa using hok.symm.trans hwrite
    exact ⟨_, target_ne_nil hs hne (by omega), hc', .inl ⟨hroom, heq⟩⟩
  · obtain ⟨v2, _, hfull, hc', heq, hshort⟩ := writeRecords_full (v := v.withBuffer buffer) hs hc hne
      hplace hsmall (by omega) hfresh (Nat.lt_of_not_le hroom)
    obtain ⟨_, rfl⟩ : _ ∧ v2 = v' := by simpa using hfull.symm.trans hwrite
    exact ⟨_, by simp [hne], hc', .inr ⟨hroom, _, by omega, heq⟩⟩

inductive Event
  | create (op : Creation)
  /-- anything that leaves the directory as it is -/
  | elsewhere

/-- The steps of a run of creations in the directory that starts at the cluster `base`. The clusters
that are attached to it are clusters of the volume. -/
inductive CreateStep (ctx : Context) (base : ℕ) : Volume → Event → Volume → Prop
  | create {op : Creation} {dir : Entry} {v v1 v' : Volume} {cs : List ℕ} :
      fatFindLastDirectory ctx op.start op.path v = .ok (some (dir, op.name), v1) →
      fatGetClusterEntry ctx dir = base → Chain ctx v.next base cs →
      FreshData ctx v cs (Creation.place (records ctx v cs) + op.entries.length) →
      fatAddEntryWithPath ctx op.env op.start op.path op.entry op.useLfn v = .ok (none, v') →
      CreateStep ctx base v (.create op) v'
  | elsewhere {v v' : Volume} :
      (∀ cs, Chain ctx v.next base cs → ∀ c ∈ cs,
        v'.next c = v.next c ∧ v'.clusterBytes ctx c = v.clusterBytes ctx c) →
      CreateStep ctx base v .elsewhere v'

def Distinct (ctx : Context) (base : ℕ) (v : Volume) : Prop :=
  ∃ cs, cs ≠ [] ∧ Chain ctx v.next base cs ∧ (shortNames (records ctx v cs)).Nodup

/-- Before a creation with room for its records: the records that stay and those that an attached
cluster brings along have distinct short names, and the generated one is new among them. -/
def Meets (ctx : Context) (base : ℕ) (v : Volume) : Event → Prop
  | .create op => ∀ cs, Chain ctx v.next base cs → op.Room ctx v cs →
      (shortNames (op.kept ctx v cs)).Nodup ∧
        (op.sfn.Valid → op.sfn.shortName ∉ shortNames (op.kept ctx v cs))
  | .elsewhere => True

theorem distinct_iff (hne : cs ≠ []) (hc : Chain ctx v.next base cs) :
    Distinct ctx base v ↔ (shortNames (records ctx v cs)).Nodup := by
  refine ⟨?_, fun h => ⟨cs, hne, hc, h⟩⟩
  rintro ⟨cs', _, hc', h⟩
  rwa [hc.unique hc']

theorem CreateStep.distinct_iff (hs : ctx.Sound) {e : Event} (h : CreateStep ctx base v e v')
    (hd : Distinct ctx base v) : Distinct ctx base v' ↔ Meets ctx base v e := by
  obtain ⟨cs, hne, hc, hnd⟩ := hd
  cases h with
  | elsewhere hsame =>
    have hsame := hsame cs hc
    refine iff_of_true ⟨cs, hne, hc.congr fun c hcs => (hsame c hcs).1, ?_⟩ trivial
    have hrecords : records ctx v' cs = records ctx v cs :=
      flatMap_congr fun c hcs => by rw [(hsame c hcs).2]
    rwa [hrecords]
  | @create op dir _ v1 _ cs' hlast hbase hc' hfresh hadd =>
    obtain rfl := hc.unique hc'
    obtain rfl := hbase
    have hmeets : Meets ctx (fatGetClusterEntry ctx dir) v (.create op) ↔ (op.Room ctx v cs →
        (shortNames (op.kept ctx v cs)).Nodup ∧
          (op.sfn.Valid → op.sfn.shortName ∉ shortNames (op.kept ctx v cs))) := by
      refine ⟨fun h => h cs hc, fun h cs' hcs' => ?_⟩
      rwa [← hc.unique hcs']
    have hsub : (shortNames ((records ctx v cs).take (Creation.place (records ctx v cs)))).Nodup :=
      (((take_sublist _ _).filter _).map _).nodup hnd
    obtain ⟨cs'', hne'', hc'', ⟨hroom, heq⟩ | ⟨hroom, j, hj, heq⟩⟩ :=
      Creation.records_eq hs hlast hc hne hfresh hadd
    · rw [hmeets, Fat.distinct_iff hne'' hc'', heq]
      have hnew := shortNames_newEntries op.entry op.name op.behind op.useLfn
      refine Iff.trans ?_ (forall_prop_of_true hroom).symm
      rw [shortNames_append, shortNames_append, Creation.kept, shortNames_append, Creation.entries, hnew,
        Creation.sfn]
      split_ifs with hvalid
      · rw [append_assoc, singleton_append, nodup_middle, nodup_cons, and_comm]
        exact and_congr_right fun _ => ⟨fun h _ => h, fun h => h hvalid⟩
      · rw [append_nil]
        exact (and_iff_left fun h => absurd h hvalid).symm
    · rw [hmeets, Fat.distinct_iff hne'' hc'', heq, shortNames_append]
      refine iff_of_true ?_ (fun h => absurd h hroom)
      rw [Creation.entries, newEntries_eq, take_append_of_le_length (by simpa [lfnRecords] using hj),
        shortNames_eq_nil fun _ he => isLfn_of_mem_lfnRecords (mem_of_mem_take he), append_nil]
      exact hsub

/-- In every run of creations that all meet the condition the short names stay distinct, and the next
step keeps them distinct exactly when it meets the condition too. -/
theorem shortNames_distinct_iff (ctx : Context) (hs : ctx.Sound) (base : ℕ) (v0 v : Volume)
    (es : List Event) (h0 : Distinct ctx base v0)
    (hrun : Run (Guarded (CreateStep ctx base) (Meets ctx base)) v0 es v) :
    Distinct ctx base v ∧
      ∀ e v', CreateStep ctx base v e v' → (Distinct ctx base v' ↔ Meets ctx base v e) := by
  have hd := hrun.invariant h0 fun _ _ _ hd hstep => (hstep.1.distinct_iff hs hd).mpr hstep.2
  exact ⟨hd, fun _ _ hstep => hstep.distinct_iff hs hd⟩

/-- The creation of `LONGNAME1.TXT` for the digit `1`. -/
def longCreation (digit : UInt8) : Creation where
  env := .idle
  start := smallContext.rootDir
  path := [0x4C, 0x4F, 0x4E, 0x47, 0x4E, 0x41, 0x4D, 0x45, digit, 0x2E, 0x54, 0x58, 0x54]
  entry := newEntry .idle 0
  useLfn := true

def longVolume : Volume :=
  ((fatAddEntryWithPath smallContext .idle smallContext.rootDir (longCreation 0x31).path
    (newEntry .idle 0) true smallVolume).toOption.map Prod.snd).getD smallVolume

theorem createStep_long {digit : UInt8} {v v' : Volume} {cs : List ℕ}
    (hc : Chain smallContext v.next 2 cs) (hne : cs ≠ [])
    (hfit : clustersFor smallContext
      (Creation.place (records smallContext v cs) + (longCreation digit).entries.length) ≤ 1)
    (hlast : (fatFindLastDirectory smallContext smallContext.rootDir (longCreation digit).path
      v).toOption.map Prod.fst = some (some (smallContext.rootDir, (longCreation digit).name)))
    (hadd : fatAddEntryWithPath smallContext .idle smallContext.rootDir (longCreation digit).path
      (newEntry .idle 0) true v = .ok (none, v')) :
    CreateStep smallContext 2 v (.create (longCreation digit)) v' := by
  obtain ⟨v1, hlast⟩ := exists_ok hlast
  refine .create hlast (by decide +kernel) hc ?_ hadd
  have hpos := length_pos_iff.mpr hne
  intro b hb
  rw [Nat.sub_eq_zero_of_le (by omega)] at hb
  exact absurd hb not_mem_nil

theorem longVolume_step :
    CreateStep smallContext 2 smallVolume (.create (longCreation 0x31)) longVolume := by
  refine createStep_long smallVolume_chain (by decide) (by decide +kernel) (by decide +kernel) ?_
  obtain ⟨v', h⟩ : ∃ v', fatAddEntryWithPath smallContext .idle smallContext.rootDir
      (longCreation 0x31).path (newEntry .idle 0) true smallVolume = .ok (none, v') :=
    exists_ok (by decide +kernel)
  rw [longVolume, h]
  rfl

theorem longVolume_chain : Chain smallContext longVolume.next 2 [2] :=
  ⟨⟨0xFFFFFFF, ⟨rfl, by decide, show longVolume.next 2 = 0xFFFFFFF by decide +kernel⟩,
    by decide⟩, by decide +kernel⟩

theorem smallVolume_distinct : Distinct smallContext 2 smallVolume :=
  ⟨[2, 3, 4], by decide, smallVolume_chain, by decide +kernel⟩

theorem longCreation_meets : Meets smallContext 2 smallVolume (.create (longCreation 0x31)) := by
  intro cs hcs _
  obtain rfl := smallVolume_chain.unique hcs
  have hnil : shortNames ((longCreation 0x31).kept smallContext smallVolume [2, 3, 4]) = [] := by
    decide +kernel
  rw [hnil]
  exact ⟨nodup_nil, fun _ => not_mem_nil⟩

theorem shortNames_distinct_one :
    Run (Guarded (CreateStep smallContext 2) (Meets smallContext 2)) smallVolume
        [.create (longCreation 0x31)] longVolume ∧
      Distinct smallContext 2 longVolume := by
  have hrun : Run (Guarded (CreateStep smallContext 2) (Meets smallContext 2)) smallVolume
      [.create (longCreation 0x31)] longVolume :=
    .cons ⟨longVolume_step, longCreation_meets⟩ .nil
  exact ⟨hrun, (shortNames_distinct_iff smallContext smallContext_sound 2 smallVolume
    longVolume _ smallVolume_distinct hrun).1⟩

/-- `LONGNAME1.TXT` and `LONGNAME2.TXT` both get the short name `LONGNA~1.TXT`. -/
theorem long_names_share_short_name : (∀ digit ∈ [0x31, 0x32], (longCreation digit).sfn.shortName =
        [0x4C, 0x4F, 0x4E, 0x47, 0x4E, 0x41, 0x7E, 0x31, 0x54, 0x58, 0x54]) ∧
      Distinct smallContext 2 smallVolume ∧
      ∃ v, Run (CreateStep smallContext 2) smallVolume
          [.create (longCreation 0x31), .create (longCreation 0x32)] v ∧
        ¬ Distinct smallContext 2 v := by
  obtain ⟨v, hadd⟩ : ∃ v, fatAddEntryWithPath smallContext .idle smallContext.rootDir
      (longCreation 0x32).path (newEntry .idle 0) true longVolume = .ok (none, v) :=
    exists_ok (by decide +kernel)
  have hfit : clustersFor smallContext (Creation.place (records smallContext longVolume [2]) +
      (longCreation 0x32).entries.length) ≤ [2].length := by decide +kernel
  have hstep := createStep_long longVolume_chain (by decide) hfit (by decide +kernel) hadd
  have hmeets : ¬ Meets smallContext 2 longVolume (.create (longCreation 0x32)) := by
    intro h
    have hmem : (longCreation 0x32).sfn.shortName ∈
        shortNames ((longCreation 0x32).kept smallContext longVolume [2]) := by decide +kernel
    have hroom : (longCreation 0x32).Room smallContext longVolume [2] :=
      hfit.trans (Nat.le_add_right _ _)
    exact (h [2] longVolume_chain hroom).2 (by decide +kernel) hmem
  have hdistinct :=
    (longVolume_step.distinct_iff smallContext_sound smallVolume_distinct).mpr longCreation_meets
  refine ⟨by decide +kernel, smallVolume_distinct, v, .cons longVolume_step (.cons hstep .nil), ?_⟩
  rwa [hstep.distinct_iff smallContext_sound hdistinct]

end Kot.Fat
