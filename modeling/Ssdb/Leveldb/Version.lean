import Ssdb.Leveldb.MemTable
import Ssdb.Library.Bisect
import Ssdb.Library.Strata

def kNumLevels : ℕ := 7

/-- A table file: what the version knows of it, and the entries that its number stands for. -/
structure FileMetaData where
  number : ℕ
  file_size : ℕ
  smallest : InternalKey
  largest : InternalKey
  table : OrdMap InternalKey Bytes
  first : table.entries.head?.map Prod.fst = some smallest
  last : table.entries.getLast?.map Prod.fst = some largest

inductive SaverState where
  | kNotFound
  | kFound (value : Bytes)
  | kDeleted
  | kCorrupt
deriving DecidableEq, Repr

def saveValue (user_key : Bytes) (ikey : InternalKey) (v : Bytes) : SaverState :=
  match ikey.parse with
  | none => .kCorrupt
  | some parsed_key =>
    if BytewiseComparator.compare parsed_key.user_key user_key = 0 then
      match parsed_key.type with
      | .kTypeValue => .kFound v
      | .kTypeDeletion => .kDeleted
    else .kNotFound

namespace FileMetaData

/-- `TableCache::Get`: the first entry at the key or after it is what is saved. -/
def get (f : FileMetaData) (ikey : InternalKey) (user_key : Bytes) : SaverState :=
  match f.table.least (Move.since ikey) with
  | none => .kNotFound
  | some e => saveValue user_key e.1 e.2

/-- `BuildTable`: no file where there is no entry. -/
def build (number file_size : ℕ) (table : OrdMap InternalKey Bytes) : Option FileMetaData :=
  if h : table.entries = [] then none
  else some {
    number, file_size, table
    smallest := (table.entries.head h).1
    largest := (table.entries.getLast h).1
    first := by rw [List.head?_eq_some_head h, Option.map_some]
    last := by rw [List.getLast?_eq_some_getLast h, Option.map_some] }

end FileMetaData

def findFile (files : List FileMetaData) (key : InternalKey) : ℕ :=
  Bisect.search (fun mid => (files[mid]?).any fun f => ¬ f.largest < key) files.length 0 files.length

/-- `NULL` comes before all keys and is never after a file. -/
def afterFile (user_key : Option Bytes) (f : FileMetaData) : Bool :=
  user_key.any fun k => BytewiseComparator.compare k f.largest.user_key > 0

/-- `NULL` comes after all keys and is never before a file. -/
def beforeFile (user_key : Option Bytes) (f : FileMetaData) : Bool :=
  user_key.any fun k => BytewiseComparator.compare k f.smallest.user_key < 0

def someFileOverlapsRange (disjoint_sorted_files : Bool) (files : List FileMetaData)
    (smallest_user_key largest_user_key : Option Bytes) : Bool :=
  if disjoint_sorted_files then
    let index := match smallest_user_key with
      | none => 0
      | some k => findFile files (InternalKey.earliest k)
    match files[index]? with
    | none => false
    | some f => !beforeFile largest_user_key f
  else files.any fun f => !(afterFile smallest_user_key f || beforeFile largest_user_key f)

def bySmallestKey (f1 f2 : FileMetaData) : Bool :=
  f1.smallest < f2.smallest ∨ f1.smallest = f2.smallest ∧ f1.number < f2.number

abbrev Version := ℕ → List FileMetaData

namespace Version

def newestFirst (files : List FileMetaData) : List FileMetaData :=
  files.insertionSort fun a b => b.number ≤ a.number

def candidates (v : Version) (ikey : InternalKey) (user_key : Bytes) (level : ℕ) : List FileMetaData :=
  if level = 0 then
    newestFirst ((v 0).filter fun f =>
      BytewiseComparator.compare user_key f.smallest.user_key ≥ 0 ∧
        BytewiseComparator.compare user_key f.largest.user_key ≤ 0)
  else
    match (v level)[findFile (v level) ikey]? with
    | none => []
    | some f => if BytewiseComparator.compare user_key f.smallest.user_key < 0 then [] else [f]

def search (ikey : InternalKey) (user_key : Bytes) : List FileMetaData → SaverState
  | [] => .kNotFound
  | f :: files =>
    match f.get ikey user_key with
    | .kNotFound => search ikey user_key files
    | found => found

def get (v : Version) (user_key : Bytes) (s : UInt64) : SaverState :=
  let ikey := InternalKey.lookup user_key s
  search ikey user_key ((List.range kNumLevels).flatMap (candidates v ikey user_key))

end Version

theorem bySmallestKey_irrefl {f : FileMetaData} : ¬ bySmallestKey f f = true := by
  simp [bySmallestKey]

theorem bySmallestKey_trans {f g h : FileMetaData} (hfg : bySmallestKey f g = true)
    (hgh : bySmallestKey g h = true) : bySmallestKey f h = true := by
  rw [bySmallestKey, decide_eq_true_eq] at hfg hgh ⊢
  rcases hfg with hlt | ⟨heq, hnum⟩
  · rcases hgh with hlt' | ⟨heq', -⟩
    · exact .inl (hlt.trans hlt')
    · exact .inl (heq' ▸ hlt)
  · rcases hgh with hlt' | ⟨heq', hnum'⟩
    · exact .inl (heq ▸ hlt')
    · exact .inr ⟨heq.trans heq', hnum.trans hnum'⟩

theorem bySmallestKey_total {f g : FileMetaData} (h : f.number ≠ g.number) :
    bySmallestKey f g = true ∨ bySmallestKey g f = true := by
  simp only [bySmallestKey, decide_eq_true_eq]
  rcases lt_trichotomy f.smallest g.smallest with hlt | heq | hgt
  · exact .inl (.inl hlt)
  · rcases Nat.lt_or_gt_of_ne h with hlt | hgt
    · exact .inl (.inr ⟨heq, hlt⟩)
    · exact .inr (.inr ⟨heq.symm, hgt⟩)
  · exact .inr (.inl hgt)

namespace FileMetaData
variable {f : FileMetaData} {e : InternalKey × Bytes}

theorem smallest_mem (f : FileMetaData) : ∃ v, (f.smallest, v) ∈ f.table.entries := by
  obtain ⟨⟨k, v⟩, hhead, hk⟩ := Option.map_eq_some_iff.mp f.first
  obtain rfl : k = f.smallest := hk
  exact ⟨v, List.mem_of_mem_head? hhead⟩

theorem largest_mem (f : FileMetaData) : ∃ v, (f.largest, v) ∈ f.table.entries := by
  obtain ⟨⟨k, v⟩, hlast, hk⟩ := Option.map_eq_some_iff.mp f.last
  obtain rfl : k = f.largest := hk
  exact ⟨v, List.mem_of_mem_getLast? hlast⟩

theorem smallest_le (he : e ∈ f.table.entries) : f.smallest ≤ e.1 := by
  obtain ⟨x, hhead, hk⟩ := Option.map_eq_some_iff.mp f.first
  rw [← OrdMap.least_true] at hhead
  exact hk ▸ (OrdMap.least_eq_some_iff.mp hhead).2.2 e he rfl

theorem le_largest (he : e ∈ f.table.entries) : e.1 ≤ f.largest := by
  obtain ⟨x, hlast, hk⟩ := Option.map_eq_some_iff.mp f.last
  rw [← List.head?_reverse, ← OrdMap.greatest_true] at hlast
  exact hk ▸ (OrdMap.greatest_eq_some_iff.mp hlast).2.2 e he rfl

theorem smallest_le_largest (f : FileMetaData) : f.smallest ≤ f.largest := by
  obtain ⟨v, hv⟩ := f.smallest_mem
  exact le_largest hv

def Newer (f g : FileMetaData) : Prop :=
  Versions.Newer InternalKey.user_key f.table.entries g.table.entries

instance decidableNewer (f g : FileMetaData) : Decidable (f.Newer g) :=
  inferInstanceAs (Decidable (∀ e ∈ f.table.entries, ∀ e' ∈ g.table.entries,
    e.1.user_key = e'.1.user_key → e.1 < e'.1))

def Before (f g : FileMetaData) : Prop := f.largest.user_key < g.smallest.user_key

instance decidableBefore (f g : FileMetaData) : Decidable (f.Before g) :=
  inferInstanceAs (Decidable (f.largest.user_key < g.smallest.user_key))

theorem Before.keys {g : FileMetaData} {e' : InternalKey × Bytes} (h : f.Before g)
    (he : e ∈ f.table.entries) (he' : e' ∈ g.table.entries) : e.1.user_key < e'.1.user_key :=
  ((InternalKey.user_key_mono (le_largest he)).trans_lt h).trans_le
    (InternalKey.user_key_mono (smallest_le he'))

theorem newer_of_apart {g : FileMetaData} (h : f.Before g ∨ g.Before f) : f.Newer g := by
  refine Versions.newer_of_apart fun e he e' he' hkey => ?_
  rcases h with h | h
  · exact absurd hkey (h.keys he he').ne
  · exact absurd hkey (h.keys he' he).ne'

theorem build_eq {number file_size : ℕ} {table : OrdMap InternalKey Bytes}
    (h : build number file_size table = some f) :
    f.number = number ∧ f.file_size = file_size ∧ f.table = table := by
  rw [build] at h
  split_ifs at h
  obtain rfl := Option.some.inj h
  exact ⟨rfl, rfl, rfl⟩

end FileMetaData

namespace Version
variable {v : Version} {level : ℕ} {k : Bytes} {s : UInt64}

structure Sound (v : Version) : Prop where
  bounded : ∀ level, kNumLevels ≤ level → v level = []
  typed : ∀ level, ∀ f ∈ v level, MemTable.Typed f.table
  levels : ∀ i j, i < j → ∀ f ∈ v i, ∀ g ∈ v j, f.Newer g
  numbers : ∀ i j, ∀ f ∈ v i, ∀ g ∈ v j, f.number = g.number → i = j ∧ f = g
  overlapping : ∀ f ∈ v 0, ∀ g ∈ v 0, g.number < f.number → f.Newer g
  placed : ∀ level, (v level).Pairwise fun f g => bySmallestKey f g = true
  sorted : ∀ level, 0 < level → (v level).Pairwise fun f g => f.largest < g.smallest

def layer (v : Version) (level : ℕ) : List FileMetaData :=
  if level = 0 then newestFirst (v 0) else v level

def contents (v : Version) : List (InternalKey × Bytes) :=
  (List.range kNumLevels).flatMap fun level => (v.layer level).flatMap fun f => f.table.entries

theorem mem_newestFirst {files : List FileMetaData} {f : FileMetaData} :
    f ∈ newestFirst files ↔ f ∈ files :=
  (List.perm_insertionSort _ files).mem_iff

theorem mem_layer {f : FileMetaData} : f ∈ v.layer level ↔ f ∈ v level := by
  rw [layer]
  split_ifs with h
  · rw [mem_newestFirst, h]
  · rfl

theorem mem_contents {e : InternalKey × Bytes} :
    e ∈ v.contents ↔ ∃ level < kNumLevels, ∃ f ∈ v level, e ∈ f.table.entries := by
  simp only [contents, List.mem_flatMap, List.mem_range, mem_layer]

end Version

namespace InternalKey

theorem unread_before {k : Bytes} {s : UInt64} {e : InternalKey × Bytes} (hs : s ≤ kMaxSequence)
    (h : e.1 < lookup k s) (hkey : e.1.user_key = k) : reading s e = none := by
  by_contra hread
  exact absurd (hkey ▸ lookup_le hs hread) (not_le.mpr h)

end InternalKey

namespace SaverState

def ofReading : Option (Option Bytes) → SaverState
  | none => .kNotFound
  | some none => .kDeleted
  | some (some value) => .kFound value

end SaverState

theorem FileMetaData.get_eq {f : FileMetaData} {s : UInt64} (ht : MemTable.Typed f.table)
    (hs : s ≤ kMaxSequence) (k : Bytes) :
    f.get (InternalKey.lookup k s) k = SaverState.ofReading
      (Versions.newest InternalKey.user_key (InternalKey.reading s) k f.table.entries) := by
  rw [get, MemTable.newest_eq ht hs]
  cases hleast : f.table.least (Move.since (InternalKey.lookup k s)) with
  | none => rfl
  | some e =>
    obtain ⟨p, hp⟩ := Option.ne_none_iff_exists'.mp (ht e (OrdMap.least_eq_some_iff.mp hleast).1)
    obtain ⟨hkey, -⟩ := InternalKey.parse_some hp
    dsimp only [Option.bind_some]
    rw [saveValue, hp]
    dsimp only
    rw [hkey]
    by_cases hcompare : BytewiseComparator.compare e.1.user_key k = 0
    · have hread := MemTable.least_reading ht hs hleast hcompare
      rw [if_pos hcompare, if_pos hcompare]
      by_cases hle : p.sequence ≤ s
      · cases htype : p.type <;> simp [InternalKey.reading, hp, hle, htype, SaverState.ofReading]
      · exact absurd (by simp [InternalKey.reading, hp, hle]) hread
    · rw [if_neg hcompare, if_neg hcompare]
      rfl

namespace Version
variable {v : Version} {level : ℕ} {k : Bytes} {s : UInt64}

theorem search_eq {files : List FileMetaData} (ht : ∀ f ∈ files, MemTable.Typed f.table)
    (hs : s ≤ kMaxSequence) : search (InternalKey.lookup k s) k files = SaverState.ofReading
      (Versions.newest InternalKey.user_key (InternalKey.reading s) k
        (files.flatMap fun f => f.table.entries)) := by
  induction files with
  | nil => rfl
  | cons f files ih =>
    have hf := FileMetaData.get_eq (ht f (by simp)) hs k
    rw [List.flatMap_cons, Versions.newest_append, search, hf, ih fun g hg => ht g (by simp [hg])]
    cases Versions.newest InternalKey.user_key (InternalKey.reading s) k f.table.entries with
    | none => rfl
    | some r => cases r <;> rfl

theorem Sound.nodup (h : v.Sound) (level : ℕ) : (v level).Nodup := by
  refine (h.placed level).imp ?_
  rintro f _ hlt rfl
  exact bySmallestKey_irrefl hlt

theorem Sound.newestFirst_newer (h : v.Sound) {files : List FileMetaData} (hsub : files ⊆ v 0)
    (hnodup : files.Nodup) : (newestFirst files).Pairwise FileMetaData.Newer := by
  have hsorted : (newestFirst files).Pairwise fun a b => b.number ≤ a.number :=
    List.pairwise_insertionSort _ _
  have hdistinct : (newestFirst files).Nodup := (List.perm_insertionSort _ _).nodup_iff.mpr hnodup
  refine (hsorted.and hdistinct).imp_of_mem fun {f g} hf hg hfg => ?_
  have hf' := hsub (mem_newestFirst.mp hf)
  have hg' := hsub (mem_newestFirst.mp hg)
  refine h.overlapping f hf' g hg' (lt_of_le_of_ne hfg.1 fun heq => hfg.2 ?_)
  exact (h.numbers 0 0 f hf' g hg' heq.symm).2

theorem Sound.newestFirst_ordered (h : v.Sound) {files : List FileMetaData} (hsub : files ⊆ v 0)
    (hnodup : files.Nodup) : Versions.Ordered InternalKey.user_key
      ((newestFirst files).flatMap fun f => f.table.entries) :=
  Versions.ordered_flatMap (fun f _ => Versions.ordered_entries f.table) (h.newestFirst_newer hsub hnodup)

theorem Sound.entries_sorted (h : v.Sound) (hlevel : 0 < level) :
    ((v level).flatMap fun f => f.table.entries).Pairwise fun e e' => e.1 < e'.1 := by
  refine List.pairwise_flatMap.mpr ⟨fun f _ => f.table.sorted, (h.sorted level hlevel).imp ?_⟩
  intro f g hfg e he e' he'
  exact ((FileMetaData.le_largest he).trans_lt hfg).trans_le (FileMetaData.smallest_le he')

theorem Sound.layer_ordered (h : v.Sound) (level : ℕ) :
    Versions.Ordered InternalKey.user_key ((v.layer level).flatMap fun f => f.table.entries) := by
  rw [layer]
  split_ifs with hlevel
  · exact h.newestFirst_ordered (List.Subset.refl _) (h.nodup 0)
  · refine List.Pairwise.imp ?_ (h.entries_sorted (Nat.pos_of_ne_zero hlevel))
    exact fun hlt _ => hlt

theorem Sound.contents_ordered (h : v.Sound) : Versions.Ordered InternalKey.user_key v.contents := by
  refine Versions.ordered_flatMap (fun level _ => h.layer_ordered level) ?_
  refine List.pairwise_lt_range.imp fun {i j} hij => ?_
  refine Versions.newer_flatMap.mpr fun g hg e he => ?_
  obtain ⟨f, hf, he⟩ := List.mem_flatMap.mp he
  exact h.levels i j hij f (mem_layer.mp hf) g (mem_layer.mp hg) e he

theorem candidates_subset {ikey : InternalKey} : v.candidates ikey k level ⊆ v level := by
  intro f hf
  rw [candidates] at hf
  split_ifs at hf with hlevel
  · rw [mem_newestFirst] at hf
    exact hlevel ▸ (List.mem_filter.mp hf).1
  · cases hfile : (v level)[findFile (v level) ikey]? with
    | none => simp [hfile] at hf
    | some g =>
      simp only [hfile] at hf
      split_ifs at hf
      · simp at hf
      · rw [List.mem_singleton.mp hf]
        exact List.mem_of_getElem? hfile

theorem Sound.candidates_zero (h : v.Sound) :
    Versions.newest InternalKey.user_key (InternalKey.reading s) k
        ((v.candidates (InternalKey.lookup k s) k 0).flatMap fun f => f.table.entries) =
      Versions.newest InternalKey.user_key (InternalKey.reading s) k
        ((v.layer 0).flatMap fun f => f.table.entries) := by
  refine Versions.newest_relaid ?_ (h.layer_ordered 0) fun e hkey => ?_
  · rw [candidates, if_pos rfl]
    exact h.newestFirst_ordered (fun f hf => (List.mem_filter.mp hf).1) ((h.nodup 0).filter _)
  · simp only [candidates, if_pos, List.mem_flatMap, mem_newestFirst, List.mem_filter, mem_layer,
      decide_eq_true_eq]
    constructor
    · rintro ⟨f, ⟨hf, -⟩, he⟩
      exact ⟨f, hf, he⟩
    · rintro ⟨f, hf, he⟩
      refine ⟨f, ⟨hf, ?_, ?_⟩, he⟩
      · have hle := InternalKey.user_key_mono (FileMetaData.smallest_le he)
        rw [hkey] at hle
        exact not_lt.mp fun hlt => absurd (BytewiseComparator.compare_lt.mp hlt) (not_lt.mpr hle)
      · have hle := InternalKey.user_key_mono (FileMetaData.le_largest he)
        rw [hkey] at hle
        exact not_lt.mp fun hgt => absurd (BytewiseComparator.compare_gt.mp hgt) (not_lt.mpr hle)

theorem findFile_getElem? {files : List FileMetaData} {key : InternalKey}
    (h : files.Pairwise fun f g => f.largest < g.smallest) :
    files[findFile files key]? = files.find? fun f => ¬ f.largest < key := by
  refine Bisect.getElem?_search (h.imp fun {f g} hfg hf => ?_)
  rw [decide_eq_true_eq, not_lt] at hf ⊢
  exact (hf.trans hfg.le).trans g.smallest_le_largest

theorem newest_before (files : List FileMetaData) (hs : s ≤ kMaxSequence)
    (h : ∀ f ∈ files, f.largest < InternalKey.lookup k s) :
    Versions.newest InternalKey.user_key (InternalKey.reading s) k
      (files.flatMap fun f => f.table.entries) = none := by
  refine Versions.newest_eq_none_iff.mpr fun e he hkey => ?_
  obtain ⟨f, hf, he⟩ := List.mem_flatMap.mp he
  exact InternalKey.unread_before hs ((FileMetaData.le_largest he).trans_lt (h f hf)) hkey

theorem newest_after {es : List (InternalKey × Bytes)} (h : ∀ e ∈ es, k < e.1.user_key) :
    Versions.newest InternalKey.user_key (InternalKey.reading s) k es = none :=
  Versions.newest_eq_none_iff.mpr fun e he hkey => absurd hkey (h e he).ne'

theorem Sound.candidates_pos (h : v.Sound) (hs : s ≤ kMaxSequence) (hlevel : 0 < level) :
    Versions.newest InternalKey.user_key (InternalKey.reading s) k
        ((v.candidates (InternalKey.lookup k s) k level).flatMap fun f => f.table.entries) =
      Versions.newest InternalKey.user_key (InternalKey.reading s) k
        ((v.layer level).flatMap fun f => f.table.entries) := by
  have hsorted := h.sorted level hlevel
  rw [candidates, if_neg hlevel.ne', layer, if_neg hlevel.ne', findFile_getElem? hsorted]
  cases hfind : (v level).find? fun f => ¬ f.largest < InternalKey.lookup k s with
  | none =>
    refine (newest_before _ hs fun f hf => ?_).symm
    simpa using List.find?_eq_none.mp hfind f hf
  | some f =>
    obtain ⟨hlarge, before, after, hsplit, hbefore⟩ := List.find?_eq_some_iff_append.mp hfind
    rw [decide_eq_true_eq, not_lt] at hlarge
    have hpassed := newest_before (k := k) before hs fun g hg => by simpa using hbefore g hg
    rw [hsplit] at hsorted
    have hnext := (List.pairwise_cons.mp (List.pairwise_append.mp hsorted).2.1).1
    dsimp only
    have hlater (hkey : k < f.largest.user_key) : Versions.newest InternalKey.user_key
        (InternalKey.reading s) k (after.flatMap fun f => f.table.entries) = none := by
      refine newest_after fun e he => ?_
      obtain ⟨g, hg, he⟩ := List.mem_flatMap.mp he
      exact hkey.trans_le (InternalKey.user_key_mono ((hnext g hg).le.trans (FileMetaData.smallest_le he)))
    rw [hsplit, List.flatMap_append, Versions.newest_append, hpassed, Option.none_or, List.flatMap_cons,
      Versions.newest_append]
    by_cases hpast : BytewiseComparator.compare k f.smallest.user_key < 0
    · have hkey := BytewiseComparator.compare_lt.mp hpast
      have hnone : Versions.newest InternalKey.user_key (InternalKey.reading s) k f.table.entries = none :=
        newest_after fun e he => hkey.trans_le (InternalKey.user_key_mono (FileMetaData.smallest_le he))
      rw [if_pos hpast, hnone, Option.none_or,
        hlater (hkey.trans_le (InternalKey.user_key_mono f.smallest_le_largest))]
      rfl
    · rw [if_neg hpast, List.flatMap_singleton]
      cases hnew : Versions.newest InternalKey.user_key (InternalKey.reading s) k f.table.entries with
      | some r => rfl
      | none =>
        obtain ⟨w, hw⟩ := f.largest_mem
        have hf : f ∈ v level := by simp [hsplit]
        have hne : f.largest.user_key ≠ k := fun hkey => by
          have hread := MemTable.reading_since hs hkey hlarge (h.typed level f hf _ hw)
          exact hread (Versions.newest_eq_none_iff.mp hnew _ hw hkey)
        have hle : k ≤ f.largest.user_key := InternalKey.user_key_mono hlarge
        rw [Option.none_or, hlater (lt_of_le_of_ne hle hne.symm)]

theorem Sound.get_eq (h : v.Sound) (hs : s ≤ kMaxSequence) (k : Bytes) :
    v.get k s = SaverState.ofReading
      (Versions.newest InternalKey.user_key (InternalKey.reading s) k v.contents) := by
  have hlevels (levels : List ℕ) :
      Versions.newest InternalKey.user_key (InternalKey.reading s) k
          ((levels.flatMap (v.candidates (InternalKey.lookup k s) k)).flatMap fun f => f.table.entries) =
        Versions.newest InternalKey.user_key (InternalKey.reading s) k
          (levels.flatMap fun level => (v.layer level).flatMap fun f => f.table.entries) := by
    induction levels with
    | nil => rfl
    | cons level levels ih =>
      rw [List.flatMap_cons, List.flatMap_append, Versions.newest_append, ih, List.flatMap_cons,
        Versions.newest_append]
      rcases Nat.eq_zero_or_pos level with rfl | hlevel
      · rw [h.candidates_zero]
      · rw [h.candidates_pos hs hlevel]
  rw [get, search_eq (fun f hf => ?_) hs, hlevels, contents]
  obtain ⟨level, -, hf⟩ := List.mem_flatMap.mp hf
  exact h.typed level f (candidates_subset hf)

end Version
