import Ssdb.Leveldb.DBIter
import Ssdb.Leveldb.DBUnsplit

namespace DBImpl
variable {τ : Type} (newTable : OrdMap InternalKey Bytes → τ) (it : Walker τ InternalKey Bytes)

abbrev ChildIterator (τ : Type) : Type := MemTableIterator ⊕ FileIterator τ

def newInternalIterator (s : DBImpl) : MergingIterator (ChildIterator τ) :=
  MergingIterator.new (.inl (MemTableIterator.new s.mem) ::
    (s.imm.toList.map fun imm => .inl (MemTableIterator.new imm)) ++
      (s.versions.current.addIterators newTable).map .inr)

def newIterator (s : DBImpl) : DBIter (MergingIterator (ChildIterator τ)) :=
  DBIter.new (s.newInternalIterator newTable)

variable (n : ℕ)

-- `n` bounds the turns of the loops
def internalWalker (s : DBImpl) : Walker (MergingIterator (ChildIterator τ)) InternalKey Bytes :=
  MergingIterator.walker (MemTableIterator.walker.either (s.versions.current.fileWalker newTable it n))

def iterator (snapshot : Option UInt64) (s : DBImpl) :
    Walker (DBIter (MergingIterator (ChildIterator τ))) Bytes Bytes :=
  DBIter.walker (s.internalWalker newTable it n) (snapshot.getD s.versions.last_sequence) n

variable {newTable it n} {J : OrdMap InternalKey Bytes → τ → Prop} {s : DBImpl} {t : Told} {o : DBOptions}

def Over (it : Walker τ InternalKey Bytes) (J : OrdMap InternalKey Bytes → τ → Prop) (n : ℕ) (v : Version)
    (m : OrdMap InternalKey Bytes) : ChildIterator τ → Prop :=
  Sum.elim (fun s => s.table = m ∧ Cursor.Splits m s.iter) (Version.OnMap it J n v m)

def maps (s : DBImpl) : List (OrdMap InternalKey Bytes) :=
  s.mem :: s.imm.toList ++ Version.maps ((List.range kNumLevels).map fun level => (level, s.versions.current level))

theorem mem_fileMaps (hs : s.Sound) {e : InternalKey × Bytes} :
    (∃ m ∈ Version.maps ((List.range kNumLevels).map fun level => (level, s.versions.current level)),
      e ∈ m.entries) ↔ e ∈ s.versions.current.contents := by
  rw [(Version.chosen_all _).mem_maps hs.version, Version.mem_contents]
  simp

theorem mem_maps (hs : s.Sound) (e : InternalKey × Bytes) :
    e ∈ (OrdMap.ofList s.store).entries ↔ ∃ m ∈ s.maps, e ∈ m.entries := by
  rw [OrdMap.mem_ofList hs.ordered.keys_nodup, mem_store, ← mem_fileMaps hs]
  simp [maps, or_and_right, exists_or]

theorem merges (hs : s.Sound) : MergingIterator.Merges s.maps (OrdMap.ofList s.store) where
  mem := mem_maps hs
  disjoint := by
    have hfiles {es : List (InternalKey × Bytes)}
        (h : ∀ level, ∀ f ∈ s.versions.current level, Versions.Newer InternalKey.user_key es f.table.entries) :
        ∀ m ∈ Version.maps ((List.range kNumLevels).map fun level => (level, s.versions.current level)),
          ∀ e ∈ es, ∀ e' ∈ m.entries, e.1 ≠ e'.1 := fun m hm e he e' he' =>
      (newer_contents h).ne e he e' ((mem_fileMaps hs).mp ⟨m, hm, he'⟩)
    refine List.pairwise_append.mpr ⟨List.pairwise_cons.mpr ⟨fun imm himm => ?_, ?_⟩,
      (Version.chosen_all _).disjoint hs.version, fun m hm m' hm' => ?_⟩
    · exact (hs.mem_imm imm (Option.mem_toList.mp himm)).ne
    · cases s.imm <;> simp
    · rcases List.mem_cons.mp hm with rfl | hm
      · exact hfiles hs.mem_files m' hm'
      · exact hfiles (hs.imm_files m (Option.mem_toList.mp hm)) m' hm'

def turns (s : DBImpl) : ℕ := s.store.length + ((List.range kNumLevels).flatMap s.versions.current).length + 1

theorem level_turns (hn : s.turns < n) {level : ℕ} (hlevel : level < kNumLevels) :
    (s.versions.current level).length + 1 < n := by
  have hle : (s.versions.current level).length ≤ ((List.range kNumLevels).flatMap s.versions.current).length := by
    rw [List.length_flatMap]
    exact List.le_sum_of_mem (List.mem_map_of_mem (List.mem_range.mpr hlevel))
  rw [turns] at hn
  omega

theorem children_on (hnew : ∀ m, J m (newTable m)) (hs : s.Sound) (hn : s.turns < n) :
    List.Forall₂ (Over it J n s.versions.current) s.maps (s.newInternalIterator newTable).children := by
  have hmem (m : MemTable) : Over it J n s.versions.current m (.inl (MemTableIterator.new m)) :=
    ⟨rfl, fun hvalid => absurd hvalid (by simp [MemTableIterator.new, Cursor.valid, Cursor.current])⟩
  refine List.rel_append (List.Forall₂.cons (hmem s.mem) ?_) ?_
  · exact List.forall₂_map_right_iff.mpr (List.forall₂_same.mpr fun imm _ => hmem imm)
  · refine List.forall₂_map_right_iff.mpr ((Version.chosen_all _).on_maps hs.version hnew fun source hsource => ?_)
    obtain ⟨level, hlevel, rfl⟩ := List.mem_map.mp hsource
    exact level_turns hn (List.mem_range.mp hlevel)

theorem internal_walks (hs : s.Sound) (hit : ∀ m, it.WalksOn InternalKey.Short (J m) m)
    (hnew : ∀ m, J m (newTable m)) : (s.internalWalker newTable it n).WalksOn InternalKey.Short
      (MergingIterator.Follows (MemTableIterator.walker.either (s.versions.current.fileWalker newTable it n))
        (Over it J n s.versions.current) s.maps (OrdMap.ofList s.store)) (OrdMap.ofList s.store) := by
  refine MergingIterator.walks (fun m _ => ?_) (merges hs) fun e he => ?_
  · exact Walker.either_walks (MemTableIterator.walks m) (Version.file_walks hit hnew m)
  · exact hs.short e ((OrdMap.mem_ofList hs.ordered.keys_nodup).mp he)

theorem snapshotView_get (hs : s.Sound) (q : UInt64) (k : Bytes) :
    (snapshotView q (OrdMap.ofList s.store)).get k = s.finds q k := by
  rw [snapshotView, Versions.get_visible, finds, Versions.newest_relaid (Versions.ordered_entries _) hs.ordered]
  exact fun e _ => OrdMap.mem_ofList hs.ordered.keys_nodup

end DBImpl

inductive Told.Sees (t : Told) : Option UInt64 → OrdMap Bytes Bytes → Prop where
  | current : Sees t none t.current
  | held (p : UInt64 × OrdMap Bytes Bytes) (h : p ∈ t.held) : Sees t (some p.1) p.2

namespace DBImpl
variable {τ : Type} {newTable : OrdMap InternalKey Bytes → τ} {it : Walker τ InternalKey Bytes}
  {J : OrdMap InternalKey Bytes → τ → Prop} {n : ℕ} {s : DBImpl} {t : Told} {o : DBOptions}

theorem sees_view (hs : s.Sound) (hshows : s.Shows t) {snapshot : Option UInt64} {view : OrdMap Bytes Bytes}
    (hsees : t.Sees snapshot view) : snapshot.getD s.versions.last_sequence ≤ kMaxSequence ∧
      snapshotView (snapshot.getD s.versions.last_sequence) (OrdMap.ofList s.store) = view := by
  cases hsees with
  | current => exact ⟨hs.le_max le_rfl, OrdMap.ext_get fun k => (snapshotView_get hs _ k).trans (hshows.current k)⟩
  | held p hp =>
    have hin : p.1 ∈ s.snapshots := hshows.snapshots ▸ List.mem_map_of_mem hp
    exact ⟨hs.le_max (hs.snapshots_le p.1 hin),
      OrdMap.ext_get fun k => (snapshotView_get hs _ k).trans (hshows.held p hp k)⟩

/-- In every state of every run an iterator shows, whatever moves it makes, what a cursor over the
records shows. -/
theorem iterators_told (o : DBOptions) (next_file_number : ℕ) (es : List Event)
    (h : Trace.Along (step o) (Careful o) es (open_ next_file_number))
    (hit : ∀ m, it.WalksOn InternalKey.Short (J m) m) (hnew : ∀ m, J m (newTable m)) (snapshot : Option UInt64)
    (view : OrdMap Bytes Bytes) (moves : List (Move Bytes)) :
    let s := Trace.run (step o) es (open_ next_file_number)
    let reader := s.iterator newTable it n snapshot
    s.turns < n → (Trace.run Told.step es Told.start).Sees snapshot view →
      Trace.Along reader.move (fun mv d => mv.Allowed (reader.current d)) moves (s.newIterator newTable) →
      (∀ mv ∈ moves, mv.SeeksIn fun k => k.length + 8 < 2 ^ 32) →
      reader.current (Trace.run reader.move moves (s.newIterator newTable)) =
        (Trace.run (Cursor.walker view).move moves ⟨[], []⟩).current := by
  intro s reader hn hsees hallowed hsought
  obtain ⟨hopen, hstart⟩ := open_sound next_file_number
  obtain ⟨hs, hshows⟩ : s.Sound ∧ s.Shows (Trace.run Told.step es Told.start) := run_shows es hopen hstart h
  obtain ⟨hmax, rfl⟩ := sees_view hs hshows hsees
  have hlength : (OrdMap.ofList s.store).entries.length < n := by
    have hsize : (OrdMap.ofList s.store).size = s.store.length := OrdMap.size_ofList hs.ordered.keys_nodup
    rw [turns] at hn
    change (OrdMap.ofList s.store).size < n
    omega
  have hwalks := DBIter.walks n (internal_walks (n := n) hs hit hnew) hmax hlength
  refine hwalks.agree ((Cursor.walks _).mono fun _ _ => trivial) ?_ ?_ rfl hallowed hsought
  · exact .invalid (MergingIterator.new_follows (children_on hnew hs hn)) rfl
  · exact fun hvalid => absurd hvalid (by decide)

theorem iterators_told_busy :
    let s := Trace.run (step tight) busy (open_ 2)
    let reader := s.iterator CompactionState.openTable Cursor.held 20 (some 4)
    reader.current (Trace.run reader.move [.seek [1, 0], .prev, .next, .next, .seekToLast]
      (s.newIterator CompactionState.openTable)) = some ([2], [1]) := by
  intro s reader
  have h : Trace.Along (step tight) (Careful tight) busy (open_ 2) := by decide +kernel
  have hsees : (Trace.run Told.step busy Told.start).Sees (some 4) (OrdMap.ofList [([1], [2]), ([2], [1])]) := by
    have hheld : (Trace.run Told.step busy Told.start).held = [(4, OrdMap.ofList [([1], [2]), ([2], [1])])] := rfl
    exact .held (4, _) (hheld ▸ List.mem_singleton_self _)
  have htold := iterators_told (n := 20) tight 2 busy h (fun m => (Cursor.held_walks m).mono fun _ _ => trivial)
    CompactionState.openTable_splits (some 4) _ [.seek [1, 0], .prev, .next, .next, .seekToLast] (by decide +kernel)
    hsees (by decide +kernel) (by decide +kernel)
  exact htold.trans (by decide +kernel)

end DBImpl
