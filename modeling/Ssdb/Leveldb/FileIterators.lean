import Ssdb.Leveldb.Merger
import Ssdb.Leveldb.Overlaps
import Ssdb.Leveldb.TwoLevelIterator
import Ssdb.Library.Union
import Ssdb.Library.Walkers

structure LevelFileNumIterator where
  flist : List FileMetaData
  index : ℕ

namespace LevelFileNumIterator

def new (flist : List FileMetaData) : LevelFileNumIterator := ⟨flist, flist.length⟩

def current (s : LevelFileNumIterator) : Option (InternalKey × ℕ × ℕ) :=
  s.flist[s.index]?.map fun f => (f.largest, f.number, f.file_size)

def walker : Walker LevelFileNumIterator InternalKey (ℕ × ℕ) where
  current := current
  seek target s := { s with index := findFile s.flist target }
  seekToFirst s := { s with index := 0 }
  seekToLast s := { s with index := if s.flist.isEmpty then 0 else s.flist.length - 1 }
  next s := { s with index := s.index + 1 }
  prev s := { s with index := if s.index = 0 then s.flist.length else s.index - 1 }

def numbered (files : List FileMetaData) (h : files.Pairwise fun f g => f.largest < g.smallest) :
    OrdMap InternalKey (ℕ × ℕ) where
  entries := files.map fun f => (f.largest, f.number, f.file_size)
  sorted := List.pairwise_map.mpr (h.imp fun {_ g} hfg => hfg.trans_le g.smallest_le_largest)

variable {files : List FileMetaData} (h : files.Pairwise fun f g => f.largest < g.smallest)

theorem numbered_getElem? (i : ℕ) : (numbered files h).entries[i]? =
    files[i]?.map fun f => (f.largest, f.number, f.file_size) := List.getElem?_map ..

theorem seek_current (target : InternalKey) : (files[findFile files target]?.map fun f =>
    (f.largest, f.number, f.file_size)) = (numbered files h).least (Move.since target) := by
  have hpred : (fun f : FileMetaData => decide ¬ f.largest < target) = fun f => Move.since target f.largest := by
    funext f
    rw [Bool.eq_iff_iff, decide_eq_true_iff, Move.since_iff, not_lt]
  rw [Version.findFile_getElem? h, hpred, OrdMap.least, numbered, List.find?_map]
  rfl

theorem walks : walker.Walks (fun s => s.flist = files) (numbered files h) where
  mem s e hs he := by
    obtain ⟨flist, index⟩ := s
    obtain rfl : flist = files := hs
    exact List.mem_of_getElem? ((numbered_getElem? h index).trans he)
  keeps mv s hs _ _ := by
    cases mv <;> exact hs
  target mv s hs hmv _ := by
    obtain ⟨flist, index⟩ := s
    obtain rfl : flist = files := hs
    cases mv with
    | seek target => exact seek_current h target
    | seekToFirst => exact ((OrdMap.least_first _).trans (numbered_getElem? h 0)).symm
    | seekToLast =>
      refine Eq.trans ?_ ((OrdMap.greatest_last _).trans (numbered_getElem? h _)).symm
      cases flist with
      | nil => rfl
      | cons f files => simp [walker, Walker.move, current, numbered]
    | next =>
      obtain ⟨e, he⟩ := Option.isSome_iff_exists.mp hmv
      rw [he]
      exact ((OrdMap.least_next ((numbered_getElem? h index).trans he)).trans (numbered_getElem? h _)).symm
    | prev =>
      obtain ⟨e, he⟩ := Option.isSome_iff_exists.mp hmv
      rw [he]
      refine ((OrdMap.greatest_prev ((numbered_getElem? h index).trans he)).trans ?_).symm
      rw [numbered_getElem?]
      change _ = flist[if index = 0 then flist.length else index - 1]?.map _
      split_ifs with hzero
      · simp
      · rfl

end LevelFileNumIterator

abbrev FileIterator (τ : Type) : Type := τ ⊕ TwoLevelIterator LevelFileNumIterator τ (ℕ × ℕ)

namespace Version
variable {τ : Type} (newTable : OrdMap InternalKey Bytes → τ) (it : Walker τ InternalKey Bytes) (n : ℕ)
  (v : Version)

/-- What the table cache finds under the number of a file. -/
def tableOf (number : ℕ) : OrdMap InternalKey Bytes :=
  (((List.range kNumLevels).flatMap v).find? fun f => f.number = number).elim OrdMap.empty FileMetaData.table

def getFileIterator (file_value : ℕ × ℕ) : τ := newTable (v.tableOf file_value.1)

def newConcatenatingIterator (files : List FileMetaData) : TwoLevelIterator LevelFileNumIterator τ (ℕ × ℕ) :=
  TwoLevelIterator.new (LevelFileNumIterator.new files)

-- the files of the first level may overlap, so each has an iterator of its own
def levelIterators (level : ℕ) (files : List FileMetaData) : List (FileIterator τ) :=
  if files.isEmpty then []
  else if level = 0 then files.map fun f => .inl (v.getFileIterator newTable (f.number, f.file_size))
  else [.inr (newConcatenatingIterator files)]

def iterators (sources : List (ℕ × List FileMetaData)) : List (FileIterator τ) :=
  sources.flatMap fun source => v.levelIterators newTable source.1 source.2

def addIterators : List (FileIterator τ) :=
  v.iterators newTable ((List.range kNumLevels).map fun level => (level, v level))

def fileWalker : Walker (FileIterator τ) InternalKey Bytes :=
  it.either (TwoLevelIterator.walker LevelFileNumIterator.walker it (v.getFileIterator newTable) n)

variable {newTable it n v} {J : OrdMap InternalKey Bytes → τ → Prop} {P : InternalKey → Prop} {level : ℕ}
  {f : FileMetaData} {files : List FileMetaData} {sources : List (ℕ × List FileMetaData)}

theorem tableOf_eq (hv : v.Sound) (hf : f ∈ v level) : v.tableOf f.number = f.table := by
  have hlevel : level < kNumLevels := by
    by_contra hge
    rw [hv.bounded level (not_lt.mp hge)] at hf
    exact absurd hf (by simp)
  have hin : f ∈ (List.range kNumLevels).flatMap v :=
    List.mem_flatMap.mpr ⟨level, List.mem_range.mpr hlevel, hf⟩
  rw [tableOf]
  cases hfind : ((List.range kNumLevels).flatMap v).find? fun g => g.number = f.number with
  | none => exact absurd (List.find?_eq_none.mp hfind f hin) (by simp)
  | some g =>
    obtain ⟨level', -, hg⟩ := List.mem_flatMap.mp (List.mem_of_find?_eq_some hfind)
    have hnumber : g.number = f.number := by simpa using List.find?_some hfind
    rw [Option.elim_some, (hv.numbers level' level g hg f hf hnumber).2]

def joined (files : List FileMetaData) : OrdMap InternalKey Bytes :=
  OrdMap.ofList (files.flatMap fun f => f.table.entries)

theorem joined_entries (h : files.Pairwise fun f g => f.largest < g.smallest) :
    (joined files).entries = files.flatMap fun f => f.table.entries := by
  refine OrdMap.entries_ofList (List.pairwise_flatMap.mpr ⟨fun f _ => f.table.sorted, h.imp ?_⟩)
  intro f g hfg e he e' he'
  exact ((FileMetaData.le_largest he).trans_lt hfg).trans_le (FileMetaData.smallest_le he')

theorem shelved (h : files.Pairwise fun f g => f.largest < g.smallest)
    (htables : ∀ f ∈ files, v.tableOf f.number = f.table) :
    OrdMap.Shelved (LevelFileNumIterator.numbered files h) (fun file_value => v.tableOf file_value.1)
      (joined files) where
  entries := by
    rw [joined_entries h, LevelFileNumIterator.numbered, List.flatMap_map]
    refine List.flatMap_congr fun f hf => ?_
    rw [htables f hf]
  upTo i hi e he := by
    obtain ⟨f, hf, rfl⟩ := List.mem_map.mp hi
    rw [htables f hf] at he
    exact FileMetaData.le_largest he
  above i hi j hj hij e he := by
    obtain ⟨f, hf, rfl⟩ := List.mem_map.mp hi
    obtain ⟨g, hg, rfl⟩ := List.mem_map.mp hj
    rw [htables g hg] at he
    have hne : f ≠ g := fun heq => absurd hij (heq ▸ lt_irrefl _)
    rcases pairwise_apart h hf hg hne with hlt | hlt
    · exact hlt.trans_le (FileMetaData.smallest_le he)
    · exact absurd ((hlt.trans_le f.smallest_le_largest).trans hij) (lt_irrefl _)

structure Joins (n : ℕ) (v : Version) (files : List FileMetaData) (m : OrdMap InternalKey Bytes) : Prop where
  turns : files.length + 1 < n
  sorted : files.Pairwise fun f g => f.largest < g.smallest
  tables : ∀ f ∈ files, v.tableOf f.number = f.table
  joined : joined files = m

def OnMap (it : Walker τ InternalKey Bytes) (J : OrdMap InternalKey Bytes → τ → Prop) (n : ℕ) (v : Version)
    (m : OrdMap InternalKey Bytes) : FileIterator τ → Prop :=
  Sum.elim (J m) fun s => ∃ files : {files // Joins n v files m},
    TwoLevelIterator.Follows LevelFileNumIterator.walker it (fun s => s.flist = files.1)
      (fun file_value => J (v.tableOf file_value.1)) s

theorem file_walks (hit : ∀ m, it.WalksOn P (J m) m) (hnew : ∀ m, J m (newTable m))
    (m : OrdMap InternalKey Bytes) : (v.fileWalker newTable it n).WalksOn P (OnMap it J n v m) m := by
  refine Walker.either_walks (hit m) (Walker.walks_of_each fun files s _ => ?_)
  obtain ⟨files, hturns, hsorted, htables, rfl⟩ := files
  refine TwoLevelIterator.walks ((LevelFileNumIterator.walks hsorted).mono fun _ _ => trivial) (fun i _ => hit _)
    (fun i _ => hnew _) (shelved hsorted htables) ?_
  simpa [LevelFileNumIterator.numbered] using hturns

def levelMaps (level : ℕ) (files : List FileMetaData) : List (OrdMap InternalKey Bytes) :=
  if files.isEmpty then [] else if level = 0 then files.map FileMetaData.table else [joined files]

def maps (sources : List (ℕ × List FileMetaData)) : List (OrdMap InternalKey Bytes) :=
  sources.flatMap fun source => levelMaps source.1 source.2

structure Chosen (v : Version) (sources : List (ℕ × List FileMetaData)) : Prop where
  sub : ∀ source ∈ sources, source.2.Sublist (v source.1)
  levels : sources.Pairwise fun source source' => source.1 < source'.1

theorem chosen_all (v : Version) : v.Chosen ((List.range kNumLevels).map fun level => (level, v level)) where
  sub source hsource := by
    obtain ⟨level, -, rfl⟩ := List.mem_map.mp hsource
    exact List.Sublist.refl _
  levels := List.pairwise_map.mpr List.pairwise_lt_range

section
variable (hv : v.Sound) (hsub : files.Sublist (v level))
include hv hsub

theorem sublist_sorted (hlevel : level ≠ 0) : files.Pairwise fun f g => f.largest < g.smallest :=
  (hv.sorted level (Nat.pos_of_ne_zero hlevel)).sublist hsub

theorem mem_levelMaps {e : InternalKey × Bytes} :
    (∃ m ∈ levelMaps level files, e ∈ m.entries) ↔ ∃ f ∈ files, e ∈ f.table.entries := by
  rw [levelMaps]
  split_ifs with hempty hlevel
  · rw [List.isEmpty_iff.mp hempty]
    simp
  · simp
  · simp [joined_entries (sublist_sorted hv hsub hlevel)]

theorem levelMaps_disjoint : (levelMaps level files).Pairwise fun a b =>
    ∀ e ∈ a.entries, ∀ e' ∈ b.entries, e.1 ≠ e'.1 := by
  rw [levelMaps]
  split_ifs with hempty hlevel
  · exact List.Pairwise.nil
  · refine List.pairwise_map.mpr (((hv.nodup level).sublist hsub).imp_of_mem fun {f g} hf hg hne e he e' he' => ?_)
    exact keys_apart hv (hsub.subset hf) (hsub.subset hg) hne he he'
  · exact List.pairwise_singleton _ _

theorem levelIterators_on (hnew : ∀ m, J m (newTable m)) (hn : files.length + 1 < n) :
    List.Forall₂ (OnMap it J n v) (levelMaps level files) (v.levelIterators newTable level files) := by
  rw [levelMaps, levelIterators]
  split_ifs with hempty hlevel
  · exact .nil
  · refine List.forall₂_map_left_iff.mpr (List.forall₂_map_right_iff.mpr (List.forall₂_same.mpr fun f hf => ?_))
    change J f.table (newTable (v.tableOf f.number))
    rw [tableOf_eq hv (hsub.subset hf)]
    exact hnew f.table
  · have hjoins : Joins n v files (joined files) :=
      ⟨hn, sublist_sorted hv hsub hlevel, fun f hf => tableOf_eq hv (hsub.subset hf), rfl⟩
    refine .cons ⟨⟨files, hjoins⟩, rfl, fun d hd => ?_, fun e he => ?_⟩ .nil
    · exact absurd hd (by simp [newConcatenatingIterator, TwoLevelIterator.new])
    · exact absurd he (by simp [TwoLevelIterator.current, newConcatenatingIterator, TwoLevelIterator.new])

end

namespace Chosen

theorem mem_maps (h : v.Chosen sources) (hv : v.Sound) {e : InternalKey × Bytes} :
    (∃ m ∈ maps sources, e ∈ m.entries) ↔ ∃ source ∈ sources, ∃ f ∈ source.2, e ∈ f.table.entries := by
  simp only [maps, List.mem_flatMap]
  constructor
  · rintro ⟨m, ⟨source, hsource, hm⟩, he⟩
    exact ⟨source, hsource, (mem_levelMaps hv (h.sub source hsource)).mp ⟨m, hm, he⟩⟩
  · rintro ⟨source, hsource, hfile⟩
    obtain ⟨m, hm, he⟩ := (mem_levelMaps hv (h.sub source hsource)).mpr hfile
    exact ⟨m, ⟨source, hsource, hm⟩, he⟩

theorem disjoint (h : v.Chosen sources) (hv : v.Sound) : (maps sources).Pairwise fun a b =>
    ∀ e ∈ a.entries, ∀ e' ∈ b.entries, e.1 ≠ e'.1 := by
  refine List.pairwise_flatMap.mpr ⟨fun source hsource => levelMaps_disjoint hv (h.sub source hsource), ?_⟩
  refine h.levels.imp_of_mem fun {source source'} hsource hsource' hlt a ha b hb e he e' he' => ?_
  obtain ⟨f, hf, he⟩ := (mem_levelMaps hv (h.sub source hsource)).mp ⟨a, ha, he⟩
  obtain ⟨g, hg, he'⟩ := (mem_levelMaps hv (h.sub source' hsource')).mp ⟨b, hb, he'⟩
  have hf' := (h.sub source hsource).subset hf
  have hg' := (h.sub source' hsource').subset hg
  exact keys_apart hv hf' hg' (fun heq => hlt.ne (hv.numbers _ _ f hf' g hg' (by rw [heq])).1) he he'

theorem on_maps (h : v.Chosen sources) (hv : v.Sound) (hnew : ∀ m, J m (newTable m))
    (hn : ∀ source ∈ sources, source.2.length + 1 < n) :
    List.Forall₂ (OnMap it J n v) (maps sources) (v.iterators newTable sources) := by
  have hall : ∀ source ∈ sources, List.Forall₂ (OnMap it J n v) (levelMaps source.1 source.2)
      (v.levelIterators newTable source.1 source.2) := fun source hsource =>
    levelIterators_on hv (h.sub source hsource) hnew (hn source hsource)
  clear h hn
  rw [maps, iterators]
  induction sources with
  | nil => exact .nil
  | cons source sources ih =>
    rw [List.flatMap_cons, List.flatMap_cons]
    exact List.rel_append (hall source (by simp)) (ih fun source' h => hall source' (by simp [h]))

end Chosen

end Version

namespace CompactionState
variable (c : Compaction)

def sources : List (ℕ × List FileMetaData) := [(c.level, c.inputs0), (c.level + 1, c.inputs1)]

def openTable (m : OrdMap InternalKey Bytes) : OrdMap InternalKey Bytes × Cursor InternalKey Bytes := (m, ⟨[], []⟩)

def makeInputIterator : MergingIterator (FileIterator (OrdMap InternalKey Bytes × Cursor InternalKey Bytes)) :=
  MergingIterator.new (c.input_version.iterators openTable (sources c))

def inputWalker : Walker (MergingIterator (FileIterator (OrdMap InternalKey Bytes × Cursor InternalKey Bytes)))
    InternalKey Bytes :=
  MergingIterator.walker (c.input_version.fileWalker openTable Cursor.held (c.inputs.length + 2))

/-- What the loop of `DoCompactionWork` comes to, from the first entry on. -/
def inputEntries : List (InternalKey × Bytes) :=
  (inputWalker c).drain (c.inputs.flatMap fun f => f.table.entries).length
    ((inputWalker c).seekToFirst (makeInputIterator c))

def merged : OrdMap InternalKey Bytes := Version.joined c.inputs

variable {c} {v : Version}

theorem openTable_splits (m : OrdMap InternalKey Bytes) : (openTable m).1 = m ∧ Cursor.Splits m (openTable m).2 :=
  ⟨rfl, fun hvalid => absurd hvalid (by simp [openTable, Cursor.valid, Cursor.current])⟩

theorem chosen (hready : Compaction.Ready v c) : v.Chosen (sources c) where
  sub source hsource := by
    rcases List.mem_pair.mp hsource with rfl | rfl
    · exact hready.sub0
    · exact hready.sub1
  levels := by simp [sources]

theorem inputs_nodup (hv : v.Sound) (hready : Compaction.Ready v c) : c.inputs.Nodup := by
  refine List.nodup_append.mpr ⟨(hv.nodup _).sublist hready.sub0, (hv.nodup _).sublist hready.sub1, ?_⟩
  rintro f hf _ hg rfl
  have hlevels := hv.numbers _ _ f (hready.sub0.subset hf) f (hready.sub1.subset hg) rfl
  exact absurd hlevels.1 (by omega)

theorem inputs_keys_nodup (hv : v.Sound) (hready : Compaction.Ready v c) :
    ((c.inputs.flatMap fun f => f.table.entries).map Prod.fst).Nodup := by
  have hin {f : FileMetaData} (hf : f ∈ c.inputs) : ∃ i, f ∈ v i := by
    rcases List.mem_append.mp hf with hf | hf
    · exact ⟨_, hready.sub0.subset hf⟩
    · exact ⟨_, hready.sub1.subset hf⟩
  rw [List.map_flatMap, List.nodup_flatMap]
  refine ⟨fun f _ => f.table.keys_nodup, (inputs_nodup hv hready).imp_of_mem fun {f g} hf hg hne => ?_⟩
  obtain ⟨i, hi⟩ := hin hf
  obtain ⟨j, hj⟩ := hin hg
  intro k hk hk'
  obtain ⟨e, he, rfl⟩ := List.mem_map.mp hk
  obtain ⟨e', he', heq⟩ := List.mem_map.mp hk'
  exact Version.keys_apart hv hi hj hne he he' heq.symm

theorem mem_merged (hv : v.Sound) (hready : Compaction.Ready v c) {e : InternalKey × Bytes} :
    e ∈ (merged c).entries ↔ ∃ f ∈ c.inputs, e ∈ f.table.entries := by
  rw [merged, Version.joined, OrdMap.mem_ofList (inputs_keys_nodup hv hready), List.mem_flatMap]

theorem input_merges (hv : v.Sound) (hready : Compaction.Ready v c) :
    MergingIterator.Merges (Version.maps (sources c)) (merged c) where
  mem e := by
    rw [mem_merged hv hready, (chosen hready).mem_maps hv]
    simp [sources, Compaction.inputs, or_and_right, exists_or]
  disjoint := (chosen hready).disjoint hv

theorem inputEntries_eq (hv : v.Sound) (hready : Compaction.Ready v c) : inputEntries c = (merged c).entries := by
  have hn : ∀ source ∈ sources c, source.2.length + 1 < c.inputs.length + 2 := by
    intro source hsource
    rw [Compaction.inputs, List.length_append]
    rcases List.mem_pair.mp hsource with rfl | rfl <;> dsimp only <;> omega
  have hsize : (merged c).size = (c.inputs.flatMap fun f => f.table.entries).length :=
    OrdMap.size_ofList (inputs_keys_nodup hv hready)
  rw [inputEntries, inputWalker, makeInputIterator, hready.version]
  refine (MergingIterator.walks (fun m _ => Version.file_walks Cursor.held_walks openTable_splits m)
    (input_merges hv hready) fun _ _ => trivial).drain_all (MergingIterator.new_follows ?_) hsize.le
  exact (chosen hready).on_maps hv openTable_splits hn

end CompactionState
