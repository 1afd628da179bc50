import Mathlib.Data.List.TakeWhile
import Ssdb.Leveldb.Version

def kMaxMemCompactLevel : ℕ := 2

structure DBOptions where
  max_file_size : ℕ
  building_size : OrdMap InternalKey Bytes → ℕ
  finished_size : OrdMap InternalKey Bytes → ℕ

namespace DBOptions

def maxGrandParentOverlapBytes (o : DBOptions) : ℕ := 10 * o.max_file_size

def expandedCompactionByteSizeLimit (o : DBOptions) : ℕ := 25 * o.max_file_size

end DBOptions

def totalFileSize (files : List FileMetaData) : ℕ := (files.map FileMetaData.file_size).sum

structure VersionEdit where
  compact_pointers : List (ℕ × InternalKey)
  deleted_files : List (ℕ × ℕ)
  new_files : List (ℕ × FileMetaData)

namespace VersionEdit

def new : VersionEdit := ⟨[], [], []⟩

def setCompactPointer (edit : VersionEdit) (level : ℕ) (key : InternalKey) : VersionEdit :=
  { edit with compact_pointers := edit.compact_pointers ++ [(level, key)] }

def deleteFile (edit : VersionEdit) (level number : ℕ) : VersionEdit :=
  { edit with deleted_files := edit.deleted_files ++ [(level, number)] }

def addFile (edit : VersionEdit) (level : ℕ) (f : FileMetaData) : VersionEdit :=
  { edit with new_files := edit.new_files ++ [(level, f)] }

end VersionEdit

namespace Builder

structure LevelState where
  deleted_files : List ℕ
  added_files : List FileMetaData

def insert (f : FileMetaData) : List FileMetaData → List FileMetaData
  | [] => [f]
  | g :: files =>
    if bySmallestKey f g then f :: g :: files
    else if bySmallestKey g f then g :: insert f files
    else g :: files

def LevelState.delete (st : LevelState) (number : ℕ) : LevelState :=
  { st with deleted_files := number :: st.deleted_files }

def LevelState.add (st : LevelState) (f : FileMetaData) : LevelState :=
  ⟨st.deleted_files.filter fun number => number ≠ f.number, insert f st.added_files⟩

def apply (edit : VersionEdit) (level : ℕ) (st : LevelState) : LevelState :=
  let deleted := (edit.deleted_files.filter fun d => d.1 = level).foldl (fun st d => st.delete d.2) st
  (edit.new_files.filter fun n => n.1 = level).foldl (fun st n => st.add n.2) deleted

/-- Each added file after the base files that are not greater (`std::upper_bound`). -/
def merge : List FileMetaData → List FileMetaData → List FileMetaData
  | base, [] => base
  | base, f :: added =>
    base.takeWhile (fun g => ¬ bySmallestKey f g) ++
      f :: merge (base.dropWhile fun g => ¬ bySmallestKey f g) added

/-- `MaybeAddFile` for each file of the level. -/
def saveTo (base : Version) (edit : VersionEdit) : Version := fun level =>
  let st := apply edit level ⟨[], []⟩
  (merge (base level) st.added_files).filter fun f => f.number ∉ st.deleted_files

end Builder

structure VersionSet where
  current : Version
  compact_pointer : ℕ → Option InternalKey
  next_file_number : ℕ
  last_sequence : UInt64

namespace VersionSet

def newFileNumber (s : VersionSet) : ℕ × VersionSet :=
  (s.next_file_number, { s with next_file_number := s.next_file_number + 1 })

def logAndApply (s : VersionSet) (edit : VersionEdit) : VersionSet :=
  { s with
    current := Builder.saveTo s.current edit
    compact_pointer := edit.compact_pointers.foldl
      (fun pointer p => Function.update pointer p.1 (some p.2)) s.compact_pointer }

end VersionSet

def overlapPass (level : ℕ) (user_begin user_end : Option Bytes) :
    List FileMetaData → List FileMetaData → List FileMetaData ⊕ (Option Bytes × Option Bytes)
  | [], inputs => .inl inputs
  | f :: files, inputs =>
    let file_start := f.smallest.user_key
    let file_limit := f.largest.user_key
    if user_begin.any fun k => BytewiseComparator.compare file_limit k < 0 then
      overlapPass level user_begin user_end files inputs
    else if user_end.any fun k => BytewiseComparator.compare file_start k > 0 then
      overlapPass level user_begin user_end files inputs
    else if level = 0 then
      if user_begin.any fun k => BytewiseComparator.compare file_start k < 0 then
        .inr (some file_start, user_end)
      else if user_end.any fun k => BytewiseComparator.compare file_limit k > 0 then
        .inr (user_begin, some file_limit)
      else overlapPass level user_begin user_end files (inputs ++ [f])
    else overlapPass level user_begin user_end files (inputs ++ [f])

def overlapLoop (files : List FileMetaData) (level : ℕ) :
    ℕ → Option Bytes → Option Bytes → List FileMetaData
  | 0, _, _ => []
  | fuel + 1, user_begin, user_end =>
    match overlapPass level user_begin user_end files [] with
    | .inl inputs => inputs
    | .inr (user_begin, user_end) => overlapLoop files level fuel user_begin user_end

namespace Version

def getOverlappingInputs (v : Version) (level : ℕ) (begin_ end_ : Option InternalKey) :
    List FileMetaData :=
  overlapLoop (v level) level (2 * (v level).length + 1) (begin_.map InternalKey.user_key)
    (end_.map InternalKey.user_key)

def overlapInLevel (v : Version) (level : ℕ) (smallest_user_key largest_user_key : Bytes) : Bool :=
  someFileOverlapsRange (level > 0) (v level) (some smallest_user_key) (some largest_user_key)

def pickLevelLoop (o : DBOptions) (v : Version) (smallest_user_key largest_user_key : Bytes) :
    ℕ → ℕ → ℕ
  | 0, level => level
  | fuel + 1, level =>
    if level < kMaxMemCompactLevel then
      if v.overlapInLevel (level + 1) smallest_user_key largest_user_key then level
      else
        let overlaps := v.getOverlappingInputs (level + 2)
          (some (InternalKey.earliest smallest_user_key))
          (some (InternalKey.ofParsed ⟨largest_user_key, 0, .kTypeDeletion⟩))
        if level + 2 < kNumLevels ∧ o.maxGrandParentOverlapBytes < totalFileSize overlaps then level
        else pickLevelLoop o v smallest_user_key largest_user_key fuel (level + 1)
    else level

def pickLevelForMemTableOutput (o : DBOptions) (v : Version) (smallest_user_key largest_user_key : Bytes) :
    ℕ :=
  if v.overlapInLevel 0 smallest_user_key largest_user_key then 0
  else pickLevelLoop o v smallest_user_key largest_user_key kMaxMemCompactLevel 0

end Version

def getRange : List FileMetaData → Option (InternalKey × InternalKey)
  | [] => none
  | f :: files =>
    some (files.foldl
      (fun r g => (if g.smallest < r.1 then g.smallest else r.1, if r.2 < g.largest then g.largest else r.2))
      (f.smallest, f.largest))

structure Compaction where
  level : ℕ
  input_version : Version
  inputs0 : List FileMetaData
  inputs1 : List FileMetaData
  grandparents : List FileMetaData
  edit : VersionEdit

inductive Trigger where
  | size (level : ℕ)
  | seek (level number : ℕ)
  | manual (level : ℕ) (begin_ end_ : Option InternalKey)

def Trigger.automatic : Trigger → Bool
  | .size _ => true
  | .seek _ _ => true
  | .manual _ _ _ => false

namespace VersionSet
variable (o : DBOptions) (s : VersionSet)

def expand (level : ℕ) (inputs0 inputs1 : List FileMetaData) (all_start all_limit : InternalKey) :
    Option (List FileMetaData × List FileMetaData) :=
  let expanded0 := s.current.getOverlappingInputs level (some all_start) (some all_limit)
  if inputs1 ≠ [] ∧ inputs0.length < expanded0.length ∧
      totalFileSize inputs1 + totalFileSize expanded0 < o.expandedCompactionByteSizeLimit then
    (getRange expanded0).bind fun new =>
      let expanded1 := s.current.getOverlappingInputs (level + 1) (some new.1) (some new.2)
      if expanded1.length = inputs1.length then some (expanded0, expanded1) else none
  else none

def setupOtherInputs (level : ℕ) (inputs0 : List FileMetaData) : Option (Compaction × VersionSet) :=
  (getRange inputs0).bind fun range =>
    let inputs1 := s.current.getOverlappingInputs (level + 1) (some range.1) (some range.2)
    (getRange (inputs0 ++ inputs1)).bind fun all =>
      let inputs := (s.expand o level inputs0 inputs1 all.1 all.2).getD (inputs0, inputs1)
      (getRange inputs.1).bind fun range =>
        (getRange (inputs.1 ++ inputs.2)).map fun all =>
          let grandparents := if level + 2 < kNumLevels then
            s.current.getOverlappingInputs (level + 2) (some all.1) (some all.2) else []
          ({ level
             input_version := s.current
             inputs0 := inputs.1
             inputs1 := inputs.2
             grandparents
             edit := VersionEdit.new.setCompactPointer level range.2 },
            { s with compact_pointer := Function.update s.compact_pointer level (some range.2) })

def pickUp (level : ℕ) (f : FileMetaData) : List FileMetaData :=
  if level = 0 then s.current.getOverlappingInputs 0 (some f.smallest) (some f.largest) else [f]

def within (limit : ℕ) : ℕ → List FileMetaData → List FileMetaData
  | _, [] => []
  | total, f :: files =>
    if limit ≤ total + f.file_size then [f] else f :: within limit (total + f.file_size) files

/-- `PickCompaction` and `CompactRange`: the files of the level to begin with. -/
def startInputs : Trigger → Option (ℕ × List FileMetaData)
  | .size level =>
    ((((s.current level).find? fun f => (s.compact_pointer level).all fun p => p < f.largest).or
      (s.current level).head?).map fun f => (level, s.pickUp level f))
  | .seek level number =>
    ((s.current level).find? fun f => f.number = number).map fun f => (level, s.pickUp level f)
  | .manual level begin_ end_ =>
    let inputs := s.current.getOverlappingInputs level begin_ end_
    if inputs = [] then none
    else some (level, if 0 < level then within o.max_file_size 0 inputs else inputs)

def pickCompaction (trigger : Trigger) : Option (Compaction × VersionSet) :=
  (s.startInputs o trigger).bind fun start =>
    if start.1 + 1 < kNumLevels then s.setupOtherInputs o start.1 start.2 else none

end VersionSet

namespace Builder
variable {f g : FileMetaData} {files base added : List FileMetaData}

theorem mem_insert (hfresh : ∀ g ∈ files, g.number ≠ f.number) :
    g ∈ insert f files ↔ g = f ∨ g ∈ files := by
  induction files with
  | nil => simp [insert]
  | cons x files ih =>
    obtain ⟨hx, hfiles⟩ := List.forall_mem_cons.mp hfresh
    rw [insert]
    split_ifs with hlt hgt
    · simp
    · rw [List.mem_cons, ih hfiles, List.mem_cons]
      exact or_left_comm
    · rcases bySmallestKey_total hx with h | h
      · exact absurd h hgt
      · exact absurd h hlt

theorem insert_placed (hfresh : ∀ g ∈ files, g.number ≠ f.number)
    (h : files.Pairwise fun f g => bySmallestKey f g = true) :
    (insert f files).Pairwise fun f g => bySmallestKey f g = true := by
  induction files with
  | nil => simp [insert]
  | cons x files ih =>
    obtain ⟨hx, hfiles⟩ := List.forall_mem_cons.mp hfresh
    obtain ⟨hafter, hrest⟩ := List.pairwise_cons.mp h
    rw [insert]
    split_ifs with hlt hgt
    · refine List.pairwise_cons.mpr ⟨fun g hg => ?_, h⟩
      rcases List.mem_cons.mp hg with rfl | hg
      · exact hlt
      · exact bySmallestKey_trans hlt (hafter g hg)
    · refine List.pairwise_cons.mpr ⟨fun g hg => ?_, ih hfiles hrest⟩
      rcases (mem_insert hfiles).mp hg with rfl | hg
      · exact hgt
      · exact hafter g hg
    · exact h

theorem mem_merge : g ∈ merge base added ↔ g ∈ base ∨ g ∈ added := by
  induction added generalizing base with
  | nil => simp [merge]
  | cons x added ih =>
    have hbase : g ∈ base ↔ g ∈ base.takeWhile (fun g => ¬ bySmallestKey x g) ∨
        g ∈ base.dropWhile fun g => ¬ bySmallestKey x g := by
      rw [← List.mem_append, List.takeWhile_append_dropWhile]
    rw [merge, List.mem_append, List.mem_cons, ih, List.mem_cons, hbase]
    tauto

theorem merge_placed (hbase : base.Pairwise fun f g => bySmallestKey f g = true)
    (hadded : added.Pairwise fun f g => bySmallestKey f g = true)
    (hfresh : ∀ g ∈ base, ∀ f ∈ added, g.number ≠ f.number) :
    (merge base added).Pairwise fun f g => bySmallestKey f g = true := by
  induction added generalizing base with
  | nil => exact hbase
  | cons x added ih =>
    obtain ⟨hx, hadded⟩ := List.pairwise_cons.mp hadded
    have hsplit := List.takeWhile_append_dropWhile (p := fun g => !bySmallestKey x g) (l := base)
    have hparts := hbase
    rw [← hsplit, List.pairwise_append] at hparts
    obtain ⟨hlow, hhigh, hcross⟩ := hparts
    have hbefore (g : FileMetaData) (hg : g ∈ base.takeWhile fun g => !bySmallestKey x g) :
        bySmallestKey g x = true := by
      have hnot : bySmallestKey x g = false := by simpa using List.mem_takeWhile_imp hg
      have hmem : g ∈ base := List.takeWhile_subset _ hg
      rcases bySmallestKey_total (hfresh g hmem x (by simp)) with h | h
      · exact h
      · exact absurd h (by simp [hnot])
    have hafter (g : FileMetaData) (hg : g ∈ base.dropWhile fun g => !bySmallestKey x g) :
        bySmallestKey x g = true := by
      cases hd : base.dropWhile fun g => !bySmallestKey x g with
      | nil => simp [hd] at hg
      | cons y ys =>
        have hy : bySmallestKey x y = true := by
          have hhead := List.head_dropWhile_not (fun g => !bySmallestKey x g) (l := base) (by simp [hd])
          simpa [hd] using hhead
        rw [hd] at hg hhigh
        rcases List.mem_cons.mp hg with rfl | hg
        · exact hy
        · exact bySmallestKey_trans hy ((List.pairwise_cons.mp hhigh).1 g hg)
    have hmerged := ih hhigh hadded fun g hg f hf =>
      hfresh g (List.dropWhile_subset _ hg) f (List.mem_cons_of_mem _ hf)
    simp only [merge, Bool.not_eq_true, Bool.decide_eq_false]
    refine List.pairwise_append.mpr ⟨hlow, List.pairwise_cons.mpr ⟨fun g hg => ?_, hmerged⟩, ?_⟩
    · rcases mem_merge.mp hg with hg | hg
      · exact hafter g hg
      · exact hx g hg
    · intro g hg f hf
      rcases List.mem_cons.mp hf with rfl | hf
      · exact hbefore g hg
      · rcases mem_merge.mp hf with hf | hf
        · exact hcross g hg f hf
        · exact bySmallestKey_trans (hbefore g hg) (hx f hf)

def deletedAt (edit : VersionEdit) (level : ℕ) : List ℕ :=
  (edit.deleted_files.filter fun d => d.1 = level).map Prod.snd

def newAt (edit : VersionEdit) (level : ℕ) : List FileMetaData :=
  (edit.new_files.filter fun n => n.1 = level).map Prod.snd

theorem delete_spec (numbers : List ℕ) (st : LevelState) :
    (numbers.foldl LevelState.delete st).added_files = st.added_files ∧
      ∀ n, n ∈ (numbers.foldl LevelState.delete st).deleted_files ↔ n ∈ numbers ∨ n ∈ st.deleted_files := by
  induction numbers generalizing st with
  | nil => exact ⟨rfl, by simp⟩
  | cons number numbers ih =>
    obtain ⟨hadded, hdeleted⟩ := ih (st.delete number)
    refine ⟨hadded, fun n => ?_⟩
    rw [List.foldl_cons, hdeleted, LevelState.delete, List.mem_cons, List.mem_cons]
    tauto

theorem add_spec (news : List FileMetaData) (st : LevelState) (hnews : (news.map FileMetaData.number).Nodup)
    (hfresh : ∀ g ∈ st.added_files, ∀ f ∈ news, g.number ≠ f.number)
    (hplaced : st.added_files.Pairwise fun f g => bySmallestKey f g = true) :
    ((news.foldl LevelState.add st).added_files.Pairwise fun f g => bySmallestKey f g = true) ∧
      (∀ g, g ∈ (news.foldl LevelState.add st).added_files ↔ g ∈ news ∨ g ∈ st.added_files) ∧
      ∀ n, n ∈ (news.foldl LevelState.add st).deleted_files ↔
        n ∈ st.deleted_files ∧ n ∉ news.map FileMetaData.number := by
  induction news generalizing st with
  | nil => exact ⟨hplaced, by simp, by simp⟩
  | cons x news ih =>
    obtain ⟨hx, hnews⟩ := List.nodup_cons.mp hnews
    have hnumber (g : FileMetaData) (hg : g ∈ st.added_files) : g.number ≠ x.number :=
      hfresh g hg x (by simp)
    have hadded (g : FileMetaData) : g ∈ (st.add x).added_files ↔ g = x ∨ g ∈ st.added_files :=
      mem_insert hnumber
    obtain ⟨hp, hmem, hdeleted⟩ := ih (st.add x) hnews (fun g hg f hf => by
      rcases (hadded g).mp hg with rfl | hg
      · exact fun heq => hx (heq ▸ List.mem_map_of_mem hf)
      · exact hfresh g hg f (List.mem_cons_of_mem _ hf)) (insert_placed hnumber hplaced)
    refine ⟨hp, fun g => ?_, fun n => ?_⟩
    · rw [List.foldl_cons, hmem, hadded, List.mem_cons]
      tauto
    · have hkept : n ∈ (st.add x).deleted_files ↔ n ∈ st.deleted_files ∧ n ≠ x.number := by
        simp [LevelState.add]
      rw [List.foldl_cons, hdeleted, hkept, List.map_cons, List.mem_cons]
      tauto

variable (edit : VersionEdit) (v : Version) (level : ℕ)

theorem apply_eq : apply edit level ⟨[], []⟩ =
    (newAt edit level).foldl LevelState.add ((deletedAt edit level).foldl LevelState.delete ⟨[], []⟩) := by
  rw [apply, newAt, deletedAt, List.foldl_map, List.foldl_map]

theorem saveTo_spec (hnew : ((newAt edit level).map FileMetaData.number).Nodup)
    (hfresh : ∀ g ∈ v level, ∀ f ∈ newAt edit level, g.number ≠ f.number)
    (hplaced : (v level).Pairwise fun f g => bySmallestKey f g = true) :
    ((saveTo v edit level).Pairwise fun f g => bySmallestKey f g = true) ∧
      ∀ g, g ∈ saveTo v edit level ↔
        g ∈ newAt edit level ∨ g ∈ v level ∧ g.number ∉ deletedAt edit level := by
  obtain ⟨hkept, hdeleted⟩ := delete_spec (deletedAt edit level) ⟨[], []⟩
  have hnone : ((deletedAt edit level).foldl LevelState.delete ⟨[], []⟩).added_files = [] := hkept
  obtain ⟨hp, hmem, hdel⟩ := add_spec (newAt edit level)
    ((deletedAt edit level).foldl LevelState.delete ⟨[], []⟩) hnew (by simp [hnone]) (by simp [hnone])
  rw [← apply_eq] at hp hmem hdel
  have hadded (g : FileMetaData) : g ∈ (apply edit level ⟨[], []⟩).added_files ↔ g ∈ newAt edit level := by
    simp [hmem, hnone]
  refine ⟨(merge_placed hplaced hp fun g hg f hf => hfresh g hg f ((hadded f).mp hf)).filter _, fun g => ?_⟩
  simp only [saveTo, List.mem_filter, mem_merge, hadded, decide_eq_true_eq, hdel, hdeleted,
    List.not_mem_nil, or_false]
  constructor
  · rintro ⟨hg | hg, hnot⟩
    · by_cases hin : g.number ∈ deletedAt edit level
      · obtain ⟨f, hf, heq⟩ := List.mem_map.mp (not_not.mp (not_and.mp hnot hin))
        exact absurd heq.symm (hfresh g hg f hf)
      · exact .inr ⟨hg, hin⟩
    · exact .inl hg
  · rintro (hg | ⟨hg, hnot⟩)
    · exact ⟨.inr hg, fun h => h.2 (List.mem_map_of_mem hg)⟩
    · exact ⟨.inl hg, fun h => hnot h.1⟩

end Builder

namespace Version
variable {v : Version} {edit : VersionEdit} {level : ℕ} {news : List FileMetaData}

structure Fitting (v : Version) (edit : VersionEdit) (level : ℕ) (news : List FileMetaData) : Prop where
  bottom : level < kNumLevels
  newAt : ∀ l, Builder.newAt edit l = if l = level then news else []
  nodup : (news.map FileMetaData.number).Nodup
  fresh : ∀ l, ∀ g ∈ v l, l = level ∨ g.number ∉ Builder.deletedAt edit l → ∀ f ∈ news, g.number ≠ f.number
  typed : ∀ f ∈ news, MemTable.Typed f.table
  above : ∀ l < level, ∀ g ∈ v l, g.number ∉ Builder.deletedAt edit l → ∀ f ∈ news, g.Newer f
  below : ∀ l > level, ∀ g ∈ v l, g.number ∉ Builder.deletedAt edit l → ∀ f ∈ news, f.Newer g
  among : level = 0 → ∀ f ∈ news, (∀ g ∈ news, g = f) ∧ ∀ g ∈ v 0, g.number < f.number ∧ f.Newer g
  beside : 0 < level → ∀ f ∈ news, ∀ g ∈ v level, g.number ∉ Builder.deletedAt edit level →
    f.largest < g.smallest ∨ g.largest < f.smallest
  sorted : 0 < level → news.Pairwise fun f g => f.largest < g.smallest

theorem Fitting.spec (h : Fitting v edit level news) (hv : v.Sound) (l : ℕ) :
    ((Builder.saveTo v edit l).Pairwise fun f g => bySmallestKey f g = true) ∧
      ∀ g, g ∈ Builder.saveTo v edit l ↔
        l = level ∧ g ∈ news ∨ g ∈ v l ∧ g.number ∉ Builder.deletedAt edit l := by
  have hat := h.newAt l
  by_cases hl : l = level
  · rw [if_pos hl] at hat
    obtain ⟨hplaced, hmem⟩ := Builder.saveTo_spec edit v l (hat ▸ h.nodup)
      (fun g hg f hf => h.fresh l g hg (.inl hl) f (hat ▸ hf)) (hv.placed l)
    refine ⟨hplaced, fun g => ?_⟩
    rw [hmem, hat, and_iff_right hl]
  · rw [if_neg hl] at hat
    obtain ⟨hplaced, hmem⟩ := Builder.saveTo_spec edit v l (by simp [hat])
      (by simp [hat]) (hv.placed l)
    refine ⟨hplaced, fun g => ?_⟩
    rw [hmem, hat]
    simp [hl]

theorem sorted_of_placed {files : List FileMetaData}
    (hplaced : files.Pairwise fun f g => bySmallestKey f g = true)
    (h : ∀ f ∈ files, ∀ g ∈ files, f ≠ g → f.largest < g.smallest ∨ g.largest < f.smallest) :
    files.Pairwise fun f g => f.largest < g.smallest := by
  refine hplaced.imp_of_mem fun {f g} hf hg hlt => ?_
  have hne : f ≠ g := fun heq => bySmallestKey_irrefl (heq ▸ hlt)
  have hle : f.smallest ≤ g.smallest := by
    rw [bySmallestKey, decide_eq_true_eq] at hlt
    rcases hlt with hlt | ⟨heq, -⟩
    · exact hlt.le
    · exact heq.le
  refine (h f hf g hg hne).resolve_right fun hgt => ?_
  exact absurd ((g.smallest_le_largest.trans_lt hgt).trans_le hle) (lt_irrefl _)

theorem pairwise_apart {files : List FileMetaData} (hs : files.Pairwise fun f g => f.largest < g.smallest)
    {f g : FileMetaData} (hf : f ∈ files) (hg : g ∈ files) (hne : f ≠ g) :
    f.largest < g.smallest ∨ g.largest < f.smallest := by
  induction files with
  | nil => exact absurd hf (by simp)
  | cons x files ih =>
    obtain ⟨hx, hrest⟩ := List.pairwise_cons.mp hs
    rcases List.mem_cons.mp hf with rfl | hf'
    · rcases List.mem_cons.mp hg with rfl | hg'
      · exact absurd rfl hne
      · exact .inl (hx g hg')
    · rcases List.mem_cons.mp hg with rfl | hg'
      · exact .inr (hx f hf')
      · exact ih hrest hf' hg'

theorem Fitting.sound (h : Fitting v edit level news) (hv : v.Sound) : (Builder.saveTo v edit).Sound := by
  have hmem (l : ℕ) (g : FileMetaData) := (h.spec hv l).2 g
  constructor
  · intro l hl
    refine List.eq_nil_iff_forall_not_mem.mpr fun g hg => ?_
    rcases (hmem l g).mp hg with ⟨rfl, -⟩ | ⟨hg, -⟩
    · exact absurd h.bottom (not_lt.mpr hl)
    · rw [hv.bounded l hl] at hg
      exact absurd hg (by simp)
  · intro l f hf
    rcases (hmem l f).mp hf with ⟨-, hf⟩ | ⟨hf, -⟩
    · exact h.typed f hf
    · exact hv.typed l f hf
  · intro i j hij f hf g hg
    rcases (hmem i f).mp hf with ⟨rfl, hf⟩ | ⟨hf, hkeep⟩
    · rcases (hmem j g).mp hg with ⟨rfl, -⟩ | ⟨hg, hkeep'⟩
      · exact absurd hij (lt_irrefl _)
      · exact h.below j hij g hg hkeep' f hf
    · rcases (hmem j g).mp hg with ⟨rfl, hg⟩ | ⟨hg, -⟩
      · exact h.above i hij f hf hkeep g hg
      · exact hv.levels i j hij f hf g hg
  · intro i j f hf g hg heq
    rcases (hmem i f).mp hf with ⟨rfl, hf'⟩ | ⟨hf, hkeep⟩
    · rcases (hmem j g).mp hg with ⟨rfl, hg'⟩ | ⟨hg, hkeep'⟩
      · exact ⟨rfl, List.inj_on_of_nodup_map h.nodup hf' hg' heq⟩
      · exact absurd heq.symm (h.fresh j g hg (.inr hkeep') f hf')
    · rcases (hmem j g).mp hg with ⟨rfl, hg⟩ | ⟨hg, -⟩
      · exact absurd heq (h.fresh i f hf (.inr hkeep) g hg)
      · exact hv.numbers i j f hf g hg heq
  · intro f hf g hg hlt
    rcases (hmem 0 f).mp hf with ⟨hzero, hf⟩ | ⟨hf, -⟩
    · rcases (hmem 0 g).mp hg with ⟨-, hg⟩ | ⟨hg, -⟩
      · exact absurd hlt ((h.among hzero.symm f hf).1 g hg ▸ lt_irrefl _)
      · exact ((h.among hzero.symm f hf).2 g hg).2
    · rcases (hmem 0 g).mp hg with ⟨hzero, hg⟩ | ⟨hg, -⟩
      · exact absurd (((h.among hzero.symm g hg).2 f hf).1.trans hlt) (lt_irrefl _)
      · exact hv.overlapping f hf g hg hlt
  · exact fun l => (h.spec hv l).1
  · intro l hl
    refine sorted_of_placed (h.spec hv l).1 fun f hf g hg hne => ?_
    rcases (hmem l f).mp hf with ⟨rfl, hf⟩ | ⟨hf, hkeep⟩
    · rcases (hmem l g).mp hg with ⟨-, hg⟩ | ⟨hg, hkeep'⟩
      · exact pairwise_apart (h.sorted hl) hf hg hne
      · exact h.beside hl f hf g hg hkeep'
    · rcases (hmem l g).mp hg with ⟨rfl, hg⟩ | ⟨hg, -⟩
      · exact (h.beside hl g hg f hf hkeep).symm
      · exact pairwise_apart (hv.sorted l hl) hf hg hne

theorem keys_apart (hv : v.Sound) {i j : ℕ} {f g : FileMetaData} (hf : f ∈ v i) (hg : g ∈ v j)
    (hne : f ≠ g) {e e' : InternalKey × Bytes} (he : e ∈ f.table.entries) (he' : e' ∈ g.table.entries) :
    e.1 ≠ e'.1 := by
  intro heq
  have hkey : e.1.user_key = e'.1.user_key := congrArg InternalKey.user_key heq
  rcases lt_trichotomy i j with hij | rfl | hij
  · exact absurd (hv.levels i j hij f hf g hg e he e' he' hkey) (heq ▸ lt_irrefl _)
  · rcases Nat.eq_zero_or_pos i with rfl | hi
    · rcases lt_trichotomy f.number g.number with hlt | hsame | hlt
      · exact absurd (hv.overlapping g hg f hf hlt e' he' e he hkey.symm) (heq ▸ lt_irrefl _)
      · exact hne (hv.numbers 0 0 f hf g hg hsame).2
      · exact absurd (hv.overlapping f hf g hg hlt e he e' he' hkey) (heq ▸ lt_irrefl _)
    · rcases pairwise_apart (hv.sorted i hi) hf hg hne with hlt | hlt
      · have hle := ((FileMetaData.le_largest he).trans_lt hlt).trans_le (FileMetaData.smallest_le he')
        exact absurd hle (heq ▸ lt_irrefl _)
      · have hle := ((FileMetaData.le_largest he').trans_lt hlt).trans_le (FileMetaData.smallest_le he)
        exact absurd hle (heq ▸ lt_irrefl _)
  · exact absurd (hv.levels j i hij g hg f hf e' he' e he hkey.symm) (heq ▸ lt_irrefl _)

end Version
