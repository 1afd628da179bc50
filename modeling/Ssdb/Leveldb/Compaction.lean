import Ssdb.Leveldb.FileIterators

structure CompactionState where
  compaction : Compaction
  /-- Sequence numbers below it are not significant: of the versions of a key up to it, only the
  newest is needed. -/
  smallest_snapshot : UInt64
  outputs : List FileMetaData
  /-- The number of the output that is being built, and what has been added to it. -/
  builder : Option (ℕ × OrdMap InternalKey Bytes)
  /-- The entries that the input iterator has not come past. -/
  input : List (InternalKey × Bytes)
  current_user_key : Option Bytes
  last_sequence_for_key : UInt64
  /-- The files of each level from `level_ptrs_` on. -/
  level_ptrs : ℕ → List FileMetaData
  /-- The grandparents from `grandparent_index_` on. -/
  grandparents : List FileMetaData
  seen_key : Bool
  overlapped_bytes : ℕ

namespace CompactionState

def new (c : Compaction) (smallest_snapshot : UInt64) : CompactionState where
  compaction := c
  smallest_snapshot
  outputs := []
  builder := none
  input := inputEntries c
  current_user_key := none
  last_sequence_for_key := kMaxSequence
  level_ptrs := c.input_version
  grandparents := c.grandparents
  seen_key := false
  overlapped_bytes := 0

def passGrandparents (seen_key : Bool) (key : InternalKey) :
    List FileMetaData → ℕ → List FileMetaData × ℕ
  | [], overlapped => ([], overlapped)
  | f :: files, overlapped =>
    if f.largest < key then
      passGrandparents seen_key key files (if seen_key then overlapped + f.file_size else overlapped)
    else (f :: files, overlapped)

def shouldStopBefore (o : DBOptions) (c : CompactionState) (key : InternalKey) : Bool × CompactionState :=
  let passed := passGrandparents c.seen_key key c.grandparents c.overlapped_bytes
  let c := { c with grandparents := passed.1, seen_key := true }
  if o.maxGrandParentOverlapBytes < passed.2 then (true, { c with overlapped_bytes := 0 })
  else (false, { c with overlapped_bytes := passed.2 })

def passLevel (user_key : Bytes) : List FileMetaData → Bool × List FileMetaData
  | [] => (false, [])
  | f :: files =>
    if BytewiseComparator.compare user_key f.largest.user_key ≤ 0 then
      (BytewiseComparator.compare user_key f.smallest.user_key ≥ 0, f :: files)
    else passLevel user_key files

def passLevels (user_key : Bytes) : List ℕ → (ℕ → List FileMetaData) → Bool × (ℕ → List FileMetaData)
  | [], level_ptrs => (true, level_ptrs)
  | lvl :: levels, level_ptrs =>
    let passed := passLevel user_key (level_ptrs lvl)
    let level_ptrs := Function.update level_ptrs lvl passed.2
    if passed.1 then (false, level_ptrs) else passLevels user_key levels level_ptrs

def lowerLevels (level : ℕ) : List ℕ := (List.range kNumLevels).filter fun lvl => level + 2 ≤ lvl

def isBaseLevelForKey (c : CompactionState) (user_key : Bytes) : Bool × CompactionState :=
  let passed := passLevels user_key (lowerLevels c.compaction.level) c.level_ptrs
  (passed.1, { c with level_ptrs := passed.2 })

def drop (c : CompactionState) (key : InternalKey) : Bool × CompactionState :=
  match key.parse with
  | none => (false, { c with current_user_key := none, last_sequence_for_key := kMaxSequence })
  | some ikey =>
    let c :=
      if c.current_user_key.any fun k => BytewiseComparator.compare ikey.user_key k = 0 then c
      else { c with current_user_key := some ikey.user_key, last_sequence_for_key := kMaxSequence }
    let last := c.last_sequence_for_key
    let c := { c with last_sequence_for_key := ikey.sequence }
    if last ≤ c.smallest_snapshot then (true, c)
    else if ikey.type = .kTypeDeletion ∧ ikey.sequence ≤ c.smallest_snapshot then
      c.isBaseLevelForKey ikey.user_key
    else (false, c)

def finishCompactionOutputFile (o : DBOptions) (c : CompactionState) : CompactionState :=
  match c.builder with
  | none => c
  | some (number, table) =>
    { c with
      outputs := c.outputs ++ (FileMetaData.build number (o.finished_size table) table).toList
      builder := none }

def add (o : DBOptions) (c : CompactionState) (next_file_number : ℕ) (e : InternalKey × Bytes) :
    CompactionState × ℕ :=
  let opened := c.builder.elim ((next_file_number, OrdMap.empty), next_file_number + 1)
    fun b => (b, next_file_number)
  let table := opened.1.2.insert e.1 e.2
  let c := { c with builder := some (opened.1.1, table) }
  (if o.max_file_size ≤ o.building_size table then c.finishCompactionOutputFile o else c, opened.2)

def turn (o : DBOptions) (c : CompactionState) (next_file_number : ℕ) : CompactionState × ℕ :=
  match c.input with
  | [] => (c, next_file_number)
  | e :: input =>
    let stopped := c.shouldStopBefore o e.1
    let c := if stopped.1 then stopped.2.finishCompactionOutputFile o else stopped.2
    let dropped := c.drop e.1
    let added := if dropped.1 then (dropped.2, next_file_number)
      else dropped.2.add o next_file_number e
    ({ added.1 with input }, added.2)

def kept (c : CompactionState) : List (InternalKey × Bytes) :=
  (c.outputs.flatMap fun f => f.table.entries) ++ c.builder.elim [] fun b => b.2.entries

def Base (v : Version) (level : ℕ) (k : Bytes) : Prop :=
  ∀ lvl, level + 2 ≤ lvl → lvl < kNumLevels → ∀ f ∈ v lvl,
    ¬ (f.smallest.user_key ≤ k ∧ k ≤ f.largest.user_key)

def Droppable (v : Version) (level : ℕ) (smallest : UInt64) (done : List (InternalKey × Bytes))
    (e : InternalKey × Bytes) : Prop :=
  (∃ e' ∈ done, e'.1.user_key = e.1.user_key ∧ e'.1 < e.1 ∧ e'.1.sequence ≤ smallest.toNat) ∨
    (e.1.parse.map ParsedInternalKey.type = some .kTypeDeletion ∧ e.1.sequence ≤ smallest.toNat ∧
      Base v level e.1.user_key)

structure Swept (c : CompactionState) (done : List (InternalKey × Bytes)) : Prop where
  sorted : (done ++ c.input).Pairwise fun e e' => e.1 < e'.1
  typed : ∀ e ∈ done ++ c.input, e.1.parse ≠ none
  sub : c.kept.Sublist done
  dropped : ∀ e ∈ done, e ∉ c.kept →
    Droppable c.compaction.input_version c.compaction.level c.smallest_snapshot done e
  shadowed : ∀ e ∈ done, e.1.sequence ≤ c.smallest_snapshot.toNat → ∀ e' ∈ c.kept,
    e'.1.user_key = e.1.user_key → e'.1 ≤ e.1
  current : c.current_user_key = done.getLast?.map fun e => e.1.user_key
  last : ∀ e ∈ done.getLast?, c.last_sequence_for_key.toNat = e.1.sequence
  passed : ∀ lvl, c.compaction.level + 2 ≤ lvl → lvl < kNumLevels →
    ∃ before, c.compaction.input_version lvl = before ++ c.level_ptrs lvl ∧
      ∀ f ∈ before, ∀ e ∈ c.input, f.largest.user_key < e.1.user_key

end CompactionState

namespace CompactionState
variable {c : CompactionState} {done input : List (InternalKey × Bytes)} {e : InternalKey × Bytes}
  {k : Bytes}

theorem passLevel_spec {files : List FileMetaData} (hs : files.Pairwise fun f g => f.largest < g.smallest) :
    ∃ before, files = before ++ (passLevel k files).2 ∧ (∀ f ∈ before, f.largest.user_key < k) ∧
      ((passLevel k files).1 = false → ∀ f ∈ files, ¬ (f.smallest.user_key ≤ k ∧ k ≤ f.largest.user_key)) := by
  induction files with
  | nil => exact ⟨[], rfl, by simp, by simp⟩
  | cons f files ih =>
    obtain ⟨hnext, hrest⟩ := List.pairwise_cons.mp hs
    rw [passLevel]
    by_cases hle : BytewiseComparator.compare k f.largest.user_key ≤ 0
    · rw [if_pos hle]
      refine ⟨[], rfl, by simp, fun hout g hg hin => ?_⟩
      have hlow : k < f.smallest.user_key := by
        rw [decide_eq_false_iff_not, ge_iff_le, not_le] at hout
        exact BytewiseComparator.compare_lt.mp hout
      rcases List.mem_cons.mp hg with rfl | hg
      · exact absurd hin.1 (not_le.mpr hlow)
      · have hafter := InternalKey.user_key_mono (f.smallest_le_largest.trans (hnext g hg).le)
        exact absurd (hin.1.trans_lt hlow) (not_lt.mpr hafter)
    · rw [if_neg hle]
      have hpast : f.largest.user_key < k := BytewiseComparator.compare_gt.mp (not_le.mp hle)
      obtain ⟨before, hsplit, hbefore, hnone⟩ := ih hrest
      refine ⟨f :: before, by rw [List.cons_append, ← hsplit], List.forall_mem_cons.mpr ⟨hpast, hbefore⟩, ?_⟩
      exact fun hout => List.forall_mem_cons.mpr ⟨fun hin => absurd hpast (not_lt.mpr hin.2), hnone hout⟩

structure Scanned (levels : List ℕ) (k : Bytes) (ptrs : ℕ → List FileMetaData)
    (result : Bool × (ℕ → List FileMetaData)) : Prop where
  split : ∀ lvl, ∃ before, ptrs lvl = before ++ result.2 lvl ∧ ∀ f ∈ before, f.largest.user_key < k
  base : result.1 = true → ∀ lvl ∈ levels, ∀ f ∈ ptrs lvl,
    ¬ (f.smallest.user_key ≤ k ∧ k ≤ f.largest.user_key)

theorem passLevels_spec (k : Bytes) {levels : List ℕ} (ptrs : ℕ → List FileMetaData) (hnodup : levels.Nodup)
    (hs : ∀ lvl ∈ levels, (ptrs lvl).Pairwise fun f g => f.largest < g.smallest) :
    Scanned levels k ptrs (passLevels k levels ptrs) := by
  induction levels generalizing ptrs with
  | nil => exact ⟨fun lvl => ⟨[], rfl, by simp⟩, by simp⟩
  | cons lvl levels ih =>
    obtain ⟨hfresh, hnodup⟩ := List.nodup_cons.mp hnodup
    obtain ⟨before, hsplit, hbefore, hnone⟩ := passLevel_spec (k := k) (hs lvl (by simp))
    have hother (l : ℕ) (hl : l ∈ levels) : l ≠ lvl := fun heq => hfresh (heq ▸ hl)
    have hone (l : ℕ) : ∃ before, ptrs l =
        before ++ Function.update ptrs lvl (passLevel k (ptrs lvl)).2 l ∧
          ∀ f ∈ before, f.largest.user_key < k := by
      rcases eq_or_ne l lvl with rfl | hne
      · exact ⟨before, by rw [Function.update_self]; exact hsplit, hbefore⟩
      · exact ⟨[], by rw [Function.update_of_ne hne]; rfl, by simp⟩
    rw [passLevels]
    by_cases hfound : (passLevel k (ptrs lvl)).1 = true
    · rw [if_pos hfound]
      exact ⟨hone, fun h => absurd h Bool.false_ne_true⟩
    · rw [if_neg hfound]
      obtain ⟨hrest, hbase⟩ := ih (Function.update ptrs lvl (passLevel k (ptrs lvl)).2) hnodup
        fun l hl => by
          rw [Function.update_of_ne (hother l hl)]
          exact hs l (List.mem_cons_of_mem _ hl)
      refine ⟨fun l => ?_, fun htrue l hl f hf => ?_⟩
      · obtain ⟨before1, hsplit1, hbefore1⟩ := hone l
        obtain ⟨before2, hsplit2, hbefore2⟩ := hrest l
        refine ⟨before1 ++ before2, by rw [List.append_assoc, ← hsplit2, ← hsplit1], fun f hf => ?_⟩
        rcases List.mem_append.mp hf with hf | hf
        · exact hbefore1 f hf
        · exact hbefore2 f hf
      · rcases List.mem_cons.mp hl with rfl | hl
        · exact hnone (by simpa using hfound) f hf
        · refine hbase htrue l hl f ?_
          rwa [Function.update_of_ne (hother l hl)]

theorem mem_lowerLevels {level lvl : ℕ} : lvl ∈ lowerLevels level ↔ lvl < kNumLevels ∧ level + 2 ≤ lvl := by
  simp [lowerLevels]

theorem sequence_le {a b : InternalKey} (hkey : a.user_key = b.user_key) (h : a ≤ b) :
    b.sequence ≤ a.sequence := by
  rcases h.lt_or_eq with hlt | rfl
  · rcases InternalKey.lt_iff.mp hlt with hu | ⟨-, htag⟩
    · exact absurd hu (hkey ▸ lt_irrefl _)
    · have hnat := UInt64.lt_iff_toNat_lt.mp htag
      rw [InternalKey.sequence, InternalKey.sequence]
      omega
  · exact le_rfl

def lastFor (c : CompactionState) (k : Bytes) : UInt64 :=
  if c.current_user_key.any fun k' => BytewiseComparator.compare k k' = 0 then c.last_sequence_for_key
  else kMaxSequence

theorem drop_eq {p : ParsedInternalKey} (hp : e.1.parse = some p) : c.drop e.1 =
    (let c' := { c with current_user_key := some p.user_key, last_sequence_for_key := p.sequence }
    if c.lastFor p.user_key ≤ c.smallest_snapshot then (true, c')
    else if p.type = .kTypeDeletion ∧ p.sequence ≤ c.smallest_snapshot then
      c'.isBaseLevelForKey p.user_key
    else (false, c')) := by
  rw [drop, hp]
  by_cases hsame : (c.current_user_key.any fun k =>
      BytewiseComparator.compare p.user_key k = 0) = true
  · obtain ⟨k, hk, heq⟩ := any_iff.mp hsame
    have hkey := BytewiseComparator.compare_eq.mp heq
    simp only [lastFor, if_pos hsame]
    obtain ⟨⟩ := c
    simp only at hk
    simp [hk, hkey]
  · simp only [lastFor, if_neg hsame]

variable (hswept : Swept c done) (hinput : c.input = e :: input)
include hswept hinput

theorem done_lt {e' : InternalKey × Bytes} (he' : e' ∈ done) : e'.1 < e.1 := by
  have hsorted := hswept.sorted
  rw [hinput] at hsorted
  exact (List.pairwise_append.mp hsorted).2.2 e' he' e (by simp)

omit hinput in
theorem le_last {l e' : InternalKey × Bytes} (hl : done.getLast? = some l) (he' : e' ∈ done) : e'.1 ≤ l.1 := by
  obtain ⟨before, rfl⟩ := List.getLast?_eq_some_iff.mp hl
  rcases List.mem_append.mp he' with hin | hin
  · have hsorted := (List.pairwise_append.mp hswept.sorted).1
    exact ((List.pairwise_append.mp hsorted).2.2 e' hin l (by simp)).le
  · rw [List.mem_singleton.mp hin]

theorem lastFor_spec (hmax : c.smallest_snapshot < kMaxSequence) :
    (c.lastFor e.1.user_key ≤ c.smallest_snapshot → ∃ e' ∈ done, e'.1.user_key = e.1.user_key ∧
        e'.1 < e.1 ∧ e'.1.sequence ≤ c.smallest_snapshot.toNat) ∧
      (¬ c.lastFor e.1.user_key ≤ c.smallest_snapshot → ∀ e' ∈ done,
        e'.1.user_key = e.1.user_key → c.smallest_snapshot.toNat < e'.1.sequence) := by
  have hnever : ¬ kMaxSequence ≤ c.smallest_snapshot := UInt64.not_le.mpr hmax
  rw [lastFor]
  by_cases hsame : (c.current_user_key.any fun k =>
      BytewiseComparator.compare e.1.user_key k = 0) = true
  · rw [if_pos hsame]
    obtain ⟨k, hk, heq⟩ := any_iff.mp hsame
    obtain ⟨l, hl, rfl⟩ := Option.map_eq_some_iff.mp (hswept.current.symm.trans hk)
    have hkey := BytewiseComparator.compare_eq.mp heq
    have hlast := hswept.last l hl
    constructor
    · intro hle
      have hmem : l ∈ done := List.mem_of_mem_getLast? hl
      refine ⟨l, hmem, hkey.symm, done_lt hswept hinput hmem, ?_⟩
      rw [← hlast]
      exact UInt64.le_iff_toNat_le.mp hle
    · intro hnot e' he' hkey'
      have hold := sequence_le (hkey'.trans hkey) (le_last hswept hl he')
      have hlt := UInt64.lt_iff_toNat_lt.mp (UInt64.not_le.mp hnot)
      omega
  · rw [if_neg hsame]
    refine ⟨fun h => absurd h hnever, fun _ e' he' hkey' => ?_⟩
    cases hl : done.getLast? with
    | none => exact absurd he' (by simp [List.getLast?_eq_none_iff.mp hl])
    | some l =>
      have hlow := InternalKey.user_key_mono (le_last hswept hl he')
      have hhigh := InternalKey.user_key_mono (done_lt hswept hinput (List.mem_of_mem_getLast? hl)).le
      rw [hkey'] at hlow
      have hk : c.current_user_key = some l.1.user_key := by rw [hswept.current, hl, Option.map_some]
      exact absurd (any_iff.mpr ⟨_, hk, BytewiseComparator.compare_eq.mpr (le_antisymm hlow hhigh)⟩) hsame

structure Decided (c : CompactionState) (done : List (InternalKey × Bytes)) (e : InternalKey × Bytes)
    (result : Bool × CompactionState) : Prop where
  same : result.2 = { c with
    current_user_key := some e.1.user_key
    last_sequence_for_key := result.2.last_sequence_for_key
    level_ptrs := result.2.level_ptrs }
  last : result.2.last_sequence_for_key.toNat = e.1.sequence
  passed : ∀ lvl, c.compaction.level + 2 ≤ lvl → lvl < kNumLevels →
    ∃ before, c.compaction.input_version lvl = before ++ result.2.level_ptrs lvl ∧
      ∀ f ∈ before, f.largest.user_key < e.1.user_key
  out : result.1 = true →
    Droppable c.compaction.input_version c.compaction.level c.smallest_snapshot done e
  needed : result.1 = false → ∀ e' ∈ done, e'.1.user_key = e.1.user_key →
    c.smallest_snapshot.toNat < e'.1.sequence

theorem drop_spec (hmax : c.smallest_snapshot < kMaxSequence)
    (hs : ∀ lvl, 0 < lvl → (c.compaction.input_version lvl).Pairwise fun f g => f.largest < g.smallest) :
    Decided c done e (c.drop e.1) := by
  have hmem : e ∈ done ++ c.input := by simp [hinput]
  obtain ⟨p, hp⟩ := Option.ne_none_iff_exists'.mp (hswept.typed e hmem)
  obtain ⟨hkey, -⟩ := InternalKey.parse_some hp
  have hseq := InternalKey.sequence_parse hp
  obtain ⟨hout, hneeded⟩ := lastFor_spec hswept hinput hmax
  have hpassed (lvl : ℕ) (hlvl : c.compaction.level + 2 ≤ lvl) (hnum : lvl < kNumLevels) :
      ∃ before, c.compaction.input_version lvl = before ++ c.level_ptrs lvl ∧
        ∀ f ∈ before, f.largest.user_key < e.1.user_key := by
    obtain ⟨before, hsplit, hbefore⟩ := hswept.passed lvl hlvl hnum
    exact ⟨before, hsplit, fun f hf => hbefore f hf e (by simp [hinput])⟩
  rw [drop_eq hp, hkey]
  dsimp only
  by_cases hhidden : c.lastFor e.1.user_key ≤ c.smallest_snapshot
  · rw [if_pos hhidden]
    exact ⟨rfl, hseq, hpassed, fun _ => .inl (hout hhidden), fun h => absurd h.symm Bool.false_ne_true⟩
  · rw [if_neg hhidden]
    by_cases hdeletion : p.type = .kTypeDeletion ∧ p.sequence ≤ c.smallest_snapshot
    · rw [if_pos hdeletion, isBaseLevelForKey]
      have hlevels : (lowerLevels c.compaction.level).Nodup := List.nodup_range.filter _
      have hscan := passLevels_spec e.1.user_key c.level_ptrs hlevels fun lvl hlvl => by
        obtain ⟨hnum, hlow⟩ := mem_lowerLevels.mp hlvl
        obtain ⟨before, hsplit, -⟩ := hpassed lvl hlow hnum
        have hsorted := hs lvl (by omega)
        rw [hsplit] at hsorted
        exact (List.pairwise_append.mp hsorted).2.1
      refine ⟨rfl, hseq, fun lvl hlow hnum => ?_, fun htrue => .inr ⟨?_, ?_, ?_⟩, fun _ => hneeded hhidden⟩
      · obtain ⟨before, hsplit, hbefore⟩ := hpassed lvl hlow hnum
        obtain ⟨more, hmore, hpast⟩ := hscan.split lvl
        refine ⟨before ++ more, by rw [hsplit, hmore, List.append_assoc], fun f hf => ?_⟩
        rcases List.mem_append.mp hf with hf | hf
        · exact hbefore f hf
        · exact hpast f hf
      · rw [hp, Option.map_some, hdeletion.1]
      · rw [← hseq]
        exact UInt64.le_iff_toNat_le.mp hdeletion.2
      · intro lvl hlow hnum f hf
        obtain ⟨before, hsplit, hbefore⟩ := hpassed lvl hlow hnum
        rw [hsplit] at hf
        rcases List.mem_append.mp hf with hf | hf
        · exact fun hin => absurd (hbefore f hf) (not_lt.mpr hin.2)
        · exact hscan.base htrue lvl (mem_lowerLevels.mpr ⟨hnum, hlow⟩) f hf
    · rw [if_neg hdeletion]
      exact ⟨rfl, hseq, hpassed, fun h => absurd h Bool.false_ne_true, fun _ => hneeded hhidden⟩

omit hswept hinput

def numbers (c : CompactionState) : List ℕ :=
  c.outputs.map FileMetaData.number ++ (c.builder.map Prod.fst).toList

theorem build_entries (number file_size : ℕ) (table : OrdMap InternalKey Bytes) :
    ((FileMetaData.build number file_size table).toList.flatMap fun f => f.table.entries) = table.entries ∧
      ((FileMetaData.build number file_size table).toList.map FileMetaData.number).Sublist [number] := by
  rw [FileMetaData.build]
  split_ifs with h
  · simp [h]
  · simp

theorem finish_kept (o : DBOptions) (c : CompactionState) :
    (c.finishCompactionOutputFile o).kept = c.kept := by
  rw [finishCompactionOutputFile]
  cases hb : c.builder with
  | none => rfl
  | some b =>
    simp [kept, hb, (build_entries b.1 (o.finished_size b.2) b.2).1]

theorem finish_numbers (o : DBOptions) (c : CompactionState) :
    (c.finishCompactionOutputFile o).numbers.Sublist c.numbers := by
  rw [finishCompactionOutputFile]
  cases hb : c.builder with
  | none => exact List.Sublist.refl _
  | some b =>
    simpa [numbers, hb] using (build_entries b.1 (o.finished_size b.2) b.2).2

structure Alike (c c' : CompactionState) : Prop where
  compaction : c'.compaction = c.compaction
  smallest_snapshot : c'.smallest_snapshot = c.smallest_snapshot
  kept : c'.kept = c.kept
  input : c'.input = c.input
  current_user_key : c'.current_user_key = c.current_user_key
  last_sequence_for_key : c'.last_sequence_for_key = c.last_sequence_for_key
  level_ptrs : c'.level_ptrs = c.level_ptrs

theorem Alike.swept {c' : CompactionState} (h : Alike c c') (hswept : Swept c done) : Swept c' done := by
  obtain ⟨hcomp, hsmall, hkept, hin, hcur, hlast, hptrs⟩ := h
  constructor
  · rw [hin]
    exact hswept.sorted
  · rw [hin]
    exact hswept.typed
  · rw [hkept]
    exact hswept.sub
  · rw [hkept, hcomp, hsmall]
    exact hswept.dropped
  · rw [hkept, hsmall]
    exact hswept.shadowed
  · rw [hcur]
    exact hswept.current
  · rw [hlast]
    exact hswept.last
  · rw [hin, hcomp, hptrs]
    exact hswept.passed

theorem finish_alike (o : DBOptions) (c : CompactionState) : Alike c (c.finishCompactionOutputFile o) := by
  refine ⟨?_, ?_, finish_kept o c, ?_, ?_, ?_, ?_⟩ <;>
  · rw [finishCompactionOutputFile]
    cases c.builder <;> rfl

theorem stop_alike (o : DBOptions) (c : CompactionState) (key : InternalKey) :
    Alike c (c.shouldStopBefore o key).2 ∧ (c.shouldStopBefore o key).2.numbers = c.numbers := by
  rw [shouldStopBefore]
  dsimp only
  split_ifs <;> exact ⟨⟨rfl, rfl, rfl, rfl, rfl, rfl, rfl⟩, rfl⟩

def atEntry (o : DBOptions) (c : CompactionState) (key : InternalKey) : CompactionState :=
  let stopped := c.shouldStopBefore o key
  if stopped.1 then stopped.2.finishCompactionOutputFile o else stopped.2

theorem atEntry_spec (o : DBOptions) (c : CompactionState) (key : InternalKey) :
    Alike c (c.atEntry o key) ∧ (c.atEntry o key).numbers.Sublist c.numbers := by
  obtain ⟨hstop, hnumbers⟩ := stop_alike o c key
  rw [atEntry]
  split_ifs
  · obtain ⟨h1, h2, h3, h4, h5, h6, h7⟩ := finish_alike o (c.shouldStopBefore o key).2
    refine ⟨⟨h1.trans hstop.1, h2.trans hstop.2, h3.trans hstop.3, h4.trans hstop.4, h5.trans hstop.5,
      h6.trans hstop.6, h7.trans hstop.7⟩, ?_⟩
    exact hnumbers ▸ finish_numbers o _
  · exact ⟨hstop, hnumbers ▸ List.Sublist.refl _⟩

structure Added (c : CompactionState) (next : ℕ) (e : InternalKey × Bytes) (result : CompactionState × ℕ) :
    Prop where
  compaction : result.1.compaction = c.compaction
  smallest_snapshot : result.1.smallest_snapshot = c.smallest_snapshot
  kept : result.1.kept = c.kept ++ [e]
  current_user_key : result.1.current_user_key = c.current_user_key
  last_sequence_for_key : result.1.last_sequence_for_key = c.last_sequence_for_key
  level_ptrs : result.1.level_ptrs = c.level_ptrs
  numbers : result.1.numbers.Sublist c.numbers ∧ result.2 = next ∨
    result.1.numbers.Sublist (c.numbers ++ [next]) ∧ result.2 = next + 1

theorem add_spec (o : DBOptions) (next : ℕ) (hlast : ∀ x ∈ c.kept, x.1 < e.1) :
    Added c next e (c.add o next e) := by
  have hopen (number : ℕ) (table : OrdMap InternalKey Bytes)
      (hb : c.builder.elim [] (fun b => b.2.entries) = table.entries) :
      ({ c with builder := some (number, table.insert e.1 e.2) } : CompactionState).kept = c.kept ++ [e] := by
    have hend : ∀ x ∈ table.entries, x.1 < e.1 := fun x hx =>
      hlast x (List.mem_append_right _ (hb ▸ hx))
    simp only [kept, Option.elim_some, OrdMap.entries_insert_last hend, hb, List.append_assoc]
  have hclose (next' : ℕ) (c' : CompactionState) (full : Prop) [Decidable full] (h : Added c next e (c', next')) :
      Added c next e (if full then c'.finishCompactionOutputFile o else c', next') := by
    split_ifs
    · obtain ⟨h1, h2, h3, h4, h5, h6, h7⟩ := finish_alike o c'
      refine ⟨h1.trans h.1, h2.trans h.2, h3.trans h.3, h5.trans h.4, h6.trans h.5, h7.trans h.6, ?_⟩
      rcases h.numbers with ⟨hsub, heq⟩ | ⟨hsub, heq⟩
      · exact .inl ⟨(finish_numbers o c').trans hsub, heq⟩
      · exact .inr ⟨(finish_numbers o c').trans hsub, heq⟩
    · exact h
  rw [add]
  cases hb : c.builder with
  | none =>
    refine hclose _ _ _ ⟨rfl, rfl, hopen next OrdMap.empty (by rw [hb]; rfl), rfl, rfl, rfl, .inr ⟨?_, rfl⟩⟩
    simp [numbers, hb]
  | some b =>
    refine hclose _ _ _ ⟨rfl, rfl, hopen b.1 b.2 (by rw [hb]; rfl), rfl, rfl, rfl, .inl ⟨?_, rfl⟩⟩
    simp [numbers, hb]

structure Turned (c : CompactionState) (next : ℕ) (done input : List (InternalKey × Bytes))
    (e : InternalKey × Bytes) (result : CompactionState × ℕ) : Prop where
  compaction : result.1.compaction = c.compaction
  smallest_snapshot : result.1.smallest_snapshot = c.smallest_snapshot
  input : result.1.input = input
  swept : Swept result.1 (done ++ [e])
  numbers : result.1.numbers.Sublist c.numbers ∧ result.2 = next ∨
    result.1.numbers.Sublist (c.numbers ++ [next]) ∧ result.2 = next + 1

theorem turn_eq (o : DBOptions) (next : ℕ) (hinput : c.input = e :: input) : c.turn o next =
    (let dropped := (c.atEntry o e.1).drop e.1
    let added := if dropped.1 then (dropped.2, next) else dropped.2.add o next e
    ({ added.1 with input }, added.2)) := by
  rw [turn, hinput]
  rfl

theorem Swept.next {c' : CompactionState} {result : Bool × CompactionState} (hswept : Swept c done)
    (hinput : c.input = e :: input) (hdecided : Decided c done e result)
    (hcomp : c'.compaction = c.compaction) (hsmall : c'.smallest_snapshot = c.smallest_snapshot)
    (hin : c'.input = input) (hkept : c'.kept = if result.1 then c.kept else c.kept ++ [e])
    (hcur : c'.current_user_key = some e.1.user_key)
    (hlast : c'.last_sequence_for_key = result.2.last_sequence_for_key)
    (hptrs : c'.level_ptrs = result.2.level_ptrs) : Swept c' (done ++ [e]) := by
  have hsplit : done ++ [e] ++ input = done ++ c.input := by simp [hinput]
  have hbefore (x : InternalKey × Bytes) (hx : x ∈ done) : x.1 < e.1 := done_lt hswept hinput hx
  have hdroppable {x : InternalKey × Bytes} (hx : Droppable c.compaction.input_version c.compaction.level
      c.smallest_snapshot done x) : Droppable c.compaction.input_version c.compaction.level
        c.smallest_snapshot (done ++ [e]) x := by
    rcases hx with ⟨e', he', h⟩ | h
    · exact .inl ⟨e', List.mem_append_left _ he', h⟩
    · exact .inr h
  constructor
  · rw [hin, hsplit]
    exact hswept.sorted
  · rw [hin, hsplit]
    exact hswept.typed
  · rw [hkept]
    split_ifs
    · exact hswept.sub.trans (List.sublist_append_left _ _)
    · exact hswept.sub.append (List.Sublist.refl _)
  · rw [hcomp, hsmall]
    intro x hx hnot
    have hout : x ∉ c.kept := fun h => hnot (by rw [hkept]; split_ifs <;> simp [h])
    rcases List.mem_append.mp hx with hx | hx
    · exact hdroppable (hswept.dropped x hx hout)
    · obtain rfl := List.mem_singleton.mp hx
      refine hdroppable (hdecided.out ?_)
      by_contra hneeded
      exact hnot (by simp [hkept, hneeded])
  · rw [hsmall]
    intro x hx hseq x' hx' hkey
    have hx'' : x' ∈ c.kept ∨ result.1 = false ∧ x' = e := by
      rw [hkept] at hx'
      cases hr : result.1 with
      | true => exact .inl (by simpa [hr] using hx')
      | false =>
        rw [hr, if_neg Bool.false_ne_true] at hx'
        rcases List.mem_append.mp hx' with hx' | hx'
        · exact .inl hx'
        · exact .inr ⟨rfl, List.mem_singleton.mp hx'⟩
    rcases List.mem_append.mp hx with hold | hnew
    · rcases hx'' with hx' | ⟨hr, rfl⟩
      · exact hswept.shadowed x hold hseq x' hx' hkey
      · exact absurd (hdecided.needed hr x hold hkey.symm) (by omega)
    · obtain rfl := List.mem_singleton.mp hnew
      rcases hx'' with hx' | ⟨-, rfl⟩
      · exact (hbefore x' (hswept.sub.subset hx')).le
      · exact le_rfl
  · simp [hcur]
  · intro x hx
    obtain rfl : e = x := by simpa using hx
    rw [hlast, hdecided.last]
  · rw [hcomp, hptrs, hin]
    intro lvl hlow hnum
    obtain ⟨before, hparts, hpast⟩ := hdecided.passed lvl hlow hnum
    refine ⟨before, hparts, fun f hf x hx => (hpast f hf).trans_le ?_⟩
    have hsorted := hswept.sorted
    rw [hinput] at hsorted
    have hlater := (List.pairwise_cons.mp (List.pairwise_append.mp hsorted).2.1).1 x hx
    exact InternalKey.user_key_mono hlater.le

theorem turn_spec (o : DBOptions) (next : ℕ) (hswept : Swept c done) (hinput : c.input = e :: input)
    (hmax : c.smallest_snapshot < kMaxSequence)
    (hs : ∀ lvl, 0 < lvl → (c.compaction.input_version lvl).Pairwise fun f g => f.largest < g.smallest) :
    Turned c next done input e (c.turn o next) := by
  obtain ⟨halike, hnumbers⟩ := atEntry_spec o c e.1
  have hswept' := halike.swept hswept
  have hinput' : (c.atEntry o e.1).input = e :: input := halike.input.trans hinput
  have hdecided := drop_spec hswept' hinput' (by rw [halike.smallest_snapshot]; exact hmax)
    (by rw [halike.compaction]; exact hs)
  rw [turn_eq o next hinput]
  generalize c.atEntry o e.1 = c1 at halike hnumbers hswept' hinput' hdecided
  generalize c1.drop e.1 = result at hdecided
  obtain ⟨out, c2⟩ := result
  have hcomp : c2.compaction = c1.compaction :=
    (congrArg CompactionState.compaction hdecided.same :)
  have hsmall : c2.smallest_snapshot = c1.smallest_snapshot :=
    (congrArg CompactionState.smallest_snapshot hdecided.same :)
  have hkept : c2.kept = c1.kept := (congrArg kept hdecided.same :)
  have hnums : c2.numbers = c1.numbers := (congrArg numbers hdecided.same :)
  have hcur : c2.current_user_key = some e.1.user_key :=
    (congrArg CompactionState.current_user_key hdecided.same :)
  cases out with
  | true =>
    refine ⟨hcomp.trans halike.compaction, hsmall.trans halike.smallest_snapshot, rfl, ?_, .inl ⟨?_, rfl⟩⟩
    · exact hswept'.next hinput' hdecided hcomp hsmall rfl hkept hcur rfl rfl
    · exact hnums ▸ hnumbers
  | false =>
    have hadd := add_spec (c := c2) (e := e) o next fun x hx =>
      done_lt hswept' hinput' (hswept'.sub.subset (hkept ▸ hx))
    dsimp only
    rw [if_neg Bool.false_ne_true]
    refine ⟨hadd.compaction.trans (hcomp.trans halike.compaction),
      hadd.smallest_snapshot.trans (hsmall.trans halike.smallest_snapshot), rfl, ?_, ?_⟩
    · exact hswept'.next hinput' hdecided (hadd.compaction.trans hcomp) (hadd.smallest_snapshot.trans hsmall)
        rfl (hadd.kept.trans (by rw [hkept]; rfl)) (hadd.current_user_key.trans hcur)
        hadd.last_sequence_for_key hadd.level_ptrs
    · rcases hadd.numbers with ⟨hsub, heq⟩ | ⟨hsub, heq⟩
      · exact .inl ⟨hsub.trans (hnums ▸ hnumbers), heq⟩
      · exact .inr ⟨hsub.trans ((hnums ▸ hnumbers).append (List.Sublist.refl _)), heq⟩

theorem new_swept {c : Compaction} {smallest : UInt64} (hinput : inputEntries c = (merged c).entries)
    (ht : ∀ e ∈ (merged c).entries, e.1.parse ≠ none) : Swept (new c smallest) [] := by
  have hnew : (new c smallest).input = (merged c).entries := hinput
  constructor
  · rw [hnew]
    exact (merged c).sorted
  · rw [hnew]
    exact ht
  · exact List.Sublist.refl _
  · exact fun e he => absurd he (by simp)
  · exact fun e he => absurd he (by simp)
  · rfl
  · exact fun e he => absurd he (by simp)
  · exact fun lvl _ _ => ⟨[], rfl, fun f hf => absurd hf (by simp)⟩

end CompactionState
