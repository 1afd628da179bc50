import Ssdb.Leveldb.DBImpl

namespace DBImpl

def store (s : DBImpl) : List (InternalKey × Bytes) :=
  s.mem.entries ++ (s.imm.elim [] OrdMap.entries ++ s.versions.current.contents)

def finds (s : DBImpl) (number : UInt64) (k : Bytes) : Option Bytes :=
  (Versions.newest InternalKey.user_key (InternalKey.reading number) k s.store).join

def top (s : DBImpl) : ℕ := s.versions.last_sequence.toNat + s.inserted.length

structure Around (v : Version) (c : Compaction) (is_manual : Bool) : Prop where
  bottom : c.level + 1 < kNumLevels
  input_version : c.input_version.Sound
  sub0 : c.inputs0 ⊆ v c.level
  sub1 : c.inputs1 ⊆ v (c.level + 1)
  above : ∀ f ∈ v c.level, f ∉ c.inputs0 → ∀ g ∈ c.inputs0, f.Newer g
  beside : ∀ f ∈ v (c.level + 1), f ∉ c.inputs1 → ∀ g ∈ c.inputs, f.Newer g
  placed : ∀ f ∈ v (c.level + 1), f ∉ c.inputs1 →
    (∀ g ∈ c.inputs, f.largest < g.smallest) ∨ ∀ g ∈ c.inputs, g.largest < f.smallest
  below : ∀ lvl, c.level + 2 ≤ lvl → lvl < kNumLevels → ∀ f ∈ v lvl,
    f ∈ c.input_version lvl ∨ ∀ g ∈ c.inputs, f.Before g ∨ g.Before f
  contiguous : is_manual = false → Contiguous c.inputs
  merged : ∀ e, e ∈ (CompactionState.merged c).entries ↔ ∃ g ∈ c.inputs, e ∈ g.table.entries
  edit : c.edit.deleted_files = [] ∧ c.edit.new_files = []

structure Working (s : DBImpl) (c : CompactionState) (is_manual : Bool) : Prop where
  around : Around s.versions.current c.compaction is_manual
  swept : ∃ done, CompactionState.Swept c done ∧
    done ++ c.input = (CompactionState.merged c.compaction).entries
  smallest : c.smallest_snapshot.toNat ≤ s.versions.last_sequence.toNat
  oldest : ∀ q ∈ s.snapshots, c.smallest_snapshot.toNat ≤ q.toNat
  nodup : c.numbers.Nodup
  taken : ∀ n ∈ c.numbers, n < s.versions.next_file_number
  fresh : ∀ level, ∀ f ∈ s.versions.current level, f.number ∉ c.numbers

structure Sound (s : DBImpl) : Prop where
  version : s.versions.current.Sound
  mem_typed : MemTable.Typed s.mem
  imm_typed : ∀ imm ∈ s.imm, MemTable.Typed imm
  room : s.top < 2 ^ 56 - 1
  counted : s.inserted.length < 2 ^ 31
  short : ∀ e ∈ s.store, e.1.Short
  upto : ∀ e ∈ s.store, e.1.sequence ≤ s.top
  mem_imm : ∀ imm ∈ s.imm, Versions.Newer InternalKey.user_key s.mem.entries imm.entries
  mem_files : ∀ level, ∀ f ∈ s.versions.current level,
    Versions.Newer InternalKey.user_key s.mem.entries f.table.entries
  imm_files : ∀ imm ∈ s.imm, ∀ level, ∀ f ∈ s.versions.current level,
    Versions.Newer InternalKey.user_key imm.entries f.table.entries
  snapshots : s.snapshots.Pairwise fun q q' => q.toNat ≤ q'.toNat
  snapshots_le : ∀ q ∈ s.snapshots, q.toNat ≤ s.versions.last_sequence.toNat
  numbers : ∀ level, ∀ f ∈ s.versions.current level, f.number < s.versions.next_file_number
  working : ∀ c is_manual, s.compacting = some (c, is_manual) → s.Working c is_manual

structure Shows (s : DBImpl) (t : Told) : Prop where
  last : s.versions.last_sequence = t.last
  inserted : s.inserted = t.written
  current : ∀ k, s.finds s.versions.last_sequence k = t.current.get k
  written : ∀ q : UInt64, q.toNat = s.top → ∀ k,
    s.finds q k = (t.written.foldl BatchOp.apply t.current).get k
  snapshots : t.held.map Prod.fst = s.snapshots
  held : ∀ p ∈ t.held, ∀ k, s.finds p.1 k = p.2.get k

variable {s : DBImpl} {t : Told} {o : DBOptions}

theorem mem_store {e : InternalKey × Bytes} : e ∈ s.store ↔ e ∈ s.mem.entries ∨
    (∃ imm ∈ s.imm, e ∈ imm.entries) ∨ e ∈ s.versions.current.contents := by
  rw [store, List.mem_append, List.mem_append]
  cases s.imm <;> simp

theorem mem_contents_of {v : Version} {level : ℕ} (hlevel : level < kNumLevels) {f : FileMetaData}
    (hf : f ∈ v level) {e : InternalKey × Bytes} (he : e ∈ f.table.entries) : e ∈ v.contents :=
  Version.mem_contents.mpr ⟨level, hlevel, f, hf, he⟩

theorem newer_contents {v : Version} {es : List (InternalKey × Bytes)}
    (h : ∀ level, ∀ f ∈ v level, Versions.Newer InternalKey.user_key es f.table.entries) :
    Versions.Newer InternalKey.user_key es v.contents := by
  intro e he e' he'
  obtain ⟨level, -, f, hf, he'⟩ := Version.mem_contents.mp he'
  exact h level f hf e he e' he'

theorem Sound.ordered (h : s.Sound) : Versions.Ordered InternalKey.user_key s.store := by
  have hfiles := h.version.contents_ordered
  have hmem := newer_contents h.mem_files
  rw [store]
  cases himm : s.imm with
  | none => exact Versions.ordered_append.mpr ⟨Versions.ordered_entries _, hfiles, hmem⟩
  | some imm =>
    refine Versions.ordered_append.mpr ⟨Versions.ordered_entries _, ?_, ?_⟩
    · refine Versions.ordered_append.mpr ⟨Versions.ordered_entries _, hfiles, ?_⟩
      exact newer_contents (h.imm_files imm himm)
    · exact Versions.newer_append.mpr ⟨h.mem_imm imm himm, hmem⟩

theorem Sound.get_eq (h : s.Sound) (snapshot : Option UInt64) (number : UInt64)
    (hnumber : snapshot.getD s.versions.last_sequence = number) (hmax : number ≤ kMaxSequence) {k : Bytes}
    (hk : k.length + 8 < 2 ^ 32) : s.get snapshot k = .ok (s.finds number k) := by
  rw [get, finds, store, hnumber, Versions.newest_append, Versions.newest_append,
    MemTable.get_eq h.mem_typed hmax hk]
  cases Versions.newest InternalKey.user_key (InternalKey.reading number) k s.mem.entries with
  | some found => rfl
  | none =>
    have hversion := h.version.get_eq hmax k
    have hreply (r : Option (Option Bytes)) : reply k (SaverState.ofReading r) = .ok r.join := by
      cases r with
      | none => rfl
      | some r => cases r <;> rfl
    cases himm : s.imm with
    | none =>
      dsimp only [Option.bind_none]
      rw [hversion, hreply]
      rfl
    | some imm =>
      rw [Option.bind_some, MemTable.get_eq (h.imm_typed imm himm) hmax hk]
      cases hfound : Versions.newest InternalKey.user_key (InternalKey.reading number) k imm.entries with
      | some found => simp [hfound]
      | none =>
        dsimp only
        rw [hversion, hreply]
        simp [hfound]

theorem mem_store_of (h : s.Sound) {level : ℕ} {f : FileMetaData} (hf : f ∈ s.versions.current level)
    {e : InternalKey × Bytes} (he : e ∈ f.table.entries) : e ∈ s.store := by
  refine mem_store.mpr (.inr (.inr (mem_contents_of (lt_of_not_ge fun hlevel => ?_) hf he)))
  rw [h.version.bounded level hlevel] at hf
  exact absurd hf (by simp)

theorem Sound.finds_top (h : s.Sound) (q q' : UInt64) (hq : s.top ≤ q.toNat) (hq' : s.top ≤ q'.toNat)
    (k : Bytes) : s.finds q k = s.finds q' k := by
  rw [finds, finds, Versions.newest_congr fun e he =>
    InternalKey.reading_congr ((h.upto e he).trans hq) ((h.upto e he).trans hq')]

theorem upto_last (h : s.Sound) (hidle : s.inserted = []) {e : InternalKey × Bytes} (he : e ∈ s.store) :
    e.1.sequence ≤ s.versions.last_sequence.toNat := by
  have hle := h.upto e he
  rwa [top, hidle, List.length_nil, Nat.add_zero] at hle

theorem insert_eq (hidle : s.inserted = []) {groups : List (List BatchOp)} (hfits : WriteBatch.Fits groups) :
    s.insert groups = { s with
      mem := MemTable.insertOps (s.versions.last_sequence + 1) groups.flatten s.mem
      inserted := groups.flatten } := by
  rw [insert, if_pos hidle]
  dsimp only
  rw [WriteBatch.insertInto_logged hfits]

theorem inserted_newer (h : s.Sound) (hidle : s.inserted = []) {ops : List BatchOp} {mem : MemTable}
    (hmem : MemTable.Inserted s.mem s.versions.last_sequence ops mem) {es : List (InternalKey × Bytes)}
    (hes : es ⊆ s.store) (hold : Versions.Newer InternalKey.user_key s.mem.entries es) :
    Versions.Newer InternalKey.user_key mem.entries es := by
  intro e he f hf hkey
  rcases hmem.entries e he with he | ⟨⟨hlow, -⟩, -⟩
  · exact hold e he f hf hkey
  · have hle := upto_last h hidle (hes hf)
    exact InternalKey.lt_of_sequence hkey (by omega)

theorem Sound.insert (h : s.Sound) (hidle : s.inserted = []) {groups : List (List BatchOp)}
    (hfits : WriteBatch.Fits groups)
    (hroom : s.versions.last_sequence.toNat + groups.flatten.length < 2 ^ 56 - 1) :
    (s.insert groups).Sound ∧
      (t.written = [] → s.Shows t → (s.insert groups).Shows { t with written := groups.flatten }) := by
  have hupto : MemTable.Upto s.versions.last_sequence s.mem := fun e he =>
    upto_last h hidle (mem_store.mpr (.inl he))
  have hmem := MemTable.insertOps_inserted hfits.1 hupto (by omega)
  have hcounted : groups.flatten.length < 2 ^ 31 := hfits.2
  rw [insert_eq hidle hfits]
  generalize MemTable.insertOps (s.versions.last_sequence + 1) groups.flatten s.mem = mem at hmem ⊢
  generalize groups.flatten = ops at hmem hroom hcounted ⊢
  have hfinds (q : UInt64) (k : Bytes) : finds { s with mem, inserted := ops } q k =
      ((Versions.newest InternalKey.user_key (InternalKey.reading q) k mem.entries).or
        (Versions.newest InternalKey.user_key (InternalKey.reading q) k
          (s.imm.elim [] OrdMap.entries ++ s.versions.current.contents))).join := by
    rw [finds, store, Versions.newest_append]
  have hfinds' (q : UInt64) (k : Bytes) : finds s q k =
      ((Versions.newest InternalKey.user_key (InternalKey.reading q) k s.mem.entries).or
        (Versions.newest InternalKey.user_key (InternalKey.reading q) k
          (s.imm.elim [] OrdMap.entries ++ s.versions.current.contents))).join := by
    rw [finds, store, Versions.newest_append]
  have hbelow (q : UInt64) (hq : q.toNat ≤ s.versions.last_sequence.toNat) (k : Bytes) :
      finds { s with mem, inserted := ops } q k = finds s q k := by
    rw [hfinds, hfinds', hmem.below q k hq]
  constructor
  · refine { h with
      mem_typed := hmem.typed h.mem_typed
      room := hroom
      counted := hcounted
      short := fun e he => ?short
      upto := fun e he => ?upto
      mem_imm := fun imm himm => ?mem_imm
      mem_files := fun level f hf => ?mem_files
      working := fun c is_manual hc => { h.working c is_manual hc with } }
    case short =>
      rcases mem_store.mp he with he | he
      · rcases hmem.entries e he with he | ⟨-, hshort⟩
        · exact h.short e (mem_store.mpr (.inl he))
        · exact hshort
      · exact h.short e (mem_store.mpr (.inr he))
    case upto =>
      rcases mem_store.mp he with he | he
      · rcases hmem.entries e he with he | ⟨⟨-, hhigh⟩, -⟩
        · exact (hupto e he).trans (Nat.le_add_right _ _)
        · exact hhigh
      · exact (upto_last h hidle (mem_store.mpr (.inr he))).trans (Nat.le_add_right _ _)
    case mem_imm =>
      exact inserted_newer h hidle hmem (fun e he => mem_store.mpr (.inr (.inl ⟨imm, himm, he⟩)))
        (h.mem_imm imm himm)
    case mem_files =>
      exact inserted_newer h hidle hmem (fun e he => mem_store_of h hf he) (h.mem_files level f hf)
  · intro hwritten hshows
    refine ⟨hshows.last, rfl, fun k => ?_, fun q hq k => ?_, hshows.snapshots, fun p hp k => ?_⟩
    · rw [hbelow _ le_rfl]
      exact hshows.current k
    · have htop : s.top = s.versions.last_sequence.toNat := by rw [top, hidle]; rfl
      have hq' : q.toNat = s.versions.last_sequence.toNat + ops.length := hq
      have hold : finds s q k = t.current.get k := by
        rw [h.finds_top q s.versions.last_sequence (by omega) htop.le]
        exact hshows.current k
      rw [hfinds, hmem.above q k (by omega), BatchOp.after_or]
      exact BatchOp.get_foldl_apply ops ((hfinds' q k).symm.trans hold)
    · rw [hbelow]
      · exact hshows.held p hp k
      · exact h.snapshots_le p.1 (hshows.snapshots ▸ List.mem_map_of_mem hp)

theorem Sound.count_eq (h : s.Sound) :
    (WriteBatch.ofOps s.inserted).count.toInt64.toUInt64 = UInt64.ofNat s.inserted.length := by
  rw [WriteBatch.count_ofOps, WriteBatch.count_toUInt64 h.counted]

theorem Sound.published (h : s.Sound) : s.publish.versions.last_sequence.toNat = s.top := by
  have hroom := h.room
  have hlen : (UInt64.ofNat s.inserted.length).toNat = s.inserted.length := by
    rw [UInt64.toNat_ofNat']
    exact Nat.mod_eq_of_lt (by rw [top] at hroom; omega)
  rw [DBImpl.publish, h.count_eq, UInt64.toNat_add, hlen]
  rw [top] at hroom ⊢
  omega

theorem Sound.publish (h : s.Sound) (hshows : s.Shows t) :
    s.publish.Sound ∧ s.publish.Shows (Told.step .publish t) := by
  have hlast := h.published
  have htop : s.publish.top = s.top := (Nat.add_zero _).trans hlast
  have hle : s.versions.last_sequence.toNat ≤ s.publish.versions.last_sequence.toNat :=
    (Nat.le_add_right _ _).trans hlast.ge
  have hcurrent (q : UInt64) (hq : q.toNat = s.top) (k : Bytes) :
      s.publish.finds q k = (t.written.foldl BatchOp.apply t.current).get k := hshows.written q hq k
  constructor
  · exact { h with
      room := htop ▸ h.room
      counted := Nat.two_pow_pos 31
      upto := fun e he => htop ▸ h.upto e he
      snapshots_le := fun q hq => (h.snapshots_le q hq).trans hle
      working := fun c is_manual hc => { h.working c is_manual hc with
        smallest := (h.working c is_manual hc).smallest.trans hle } }
  · refine { hshows with
      last := ?_
      inserted := rfl
      current := hcurrent _ hlast
      written := fun q hq => hcurrent q (hq.trans htop) }
    change s.versions.last_sequence + (WriteBatch.ofOps s.inserted).count.toInt64.toUInt64 =
      t.last + UInt64.ofNat t.written.length
    rw [h.count_eq, hshows.last, hshows.inserted]

theorem Sound.switchMemTable (h : s.Sound) (hshows : s.Shows t) :
    s.switchMemTable.Sound ∧ s.switchMemTable.Shows t := by
  rw [DBImpl.switchMemTable]
  split_ifs with hfree
  · obtain ⟨himm, hidle⟩ := hfree
    have hstore : store { s with
        imm := some s.mem, mem := OrdMap.empty, versions := s.versions.newFileNumber.2 } = s.store := by
      simp only [store, himm]
      rfl
    have hfinds (q : UInt64) (k : Bytes) : finds { s with
        imm := some s.mem, mem := OrdMap.empty, versions := s.versions.newFileNumber.2 } q k = s.finds q k := by
      rw [finds, hstore, finds]
    have hempty (es : List (InternalKey × Bytes)) :
        Versions.Newer InternalKey.user_key (OrdMap.empty : MemTable).entries es :=
      fun e he => absurd he (by simp [OrdMap.empty])
    constructor
    · exact { h with
        mem_typed := fun e he => absurd he (by simp [OrdMap.empty])
        imm_typed := fun imm himm' => Option.mem_some.mp himm' ▸ h.mem_typed
        short := fun e he => h.short e (hstore ▸ he)
        upto := fun e he => h.upto e (hstore ▸ he)
        mem_imm := fun imm _ => hempty _
        mem_files := fun _ f _ => hempty _
        imm_files := fun imm himm' => Option.mem_some.mp himm' ▸ h.mem_files
        numbers := fun level f hf => (h.numbers level f hf).trans (Nat.lt_succ_self _)
        working := fun c is_manual hc => { h.working c is_manual hc with
          taken := fun n hn => ((h.working c is_manual hc).taken n hn).trans (Nat.lt_succ_self _) } }
    · exact { hshows with
        current := fun k => (hfinds _ k).trans (hshows.current k)
        written := fun q hq k => (hfinds q k).trans (hshows.written q hq k)
        held := fun p hp k => (hfinds _ k).trans (hshows.held p hp k) }
  · exact ⟨h, hshows⟩

theorem Sound.getSnapshot (h : s.Sound) (hshows : s.Shows t) :
    s.getSnapshot.Sound ∧ s.getSnapshot.Shows (Told.step .getSnapshot t) := by
  have hnew {P : UInt64 → Prop} (hold : ∀ q ∈ s.snapshots, P q) (hlast : P s.versions.last_sequence) :
      ∀ q ∈ s.getSnapshot.snapshots, P q :=
    List.forall_mem_append.mpr ⟨hold, List.forall_mem_singleton.mpr hlast⟩
  constructor
  · exact { h with
      snapshots := List.pairwise_append.mpr ⟨h.snapshots, List.pairwise_singleton _ _, fun q hq q' hq' =>
        List.mem_singleton.mp hq' ▸ h.snapshots_le q hq⟩
      snapshots_le := hnew h.snapshots_le le_rfl
      working := fun c is_manual hc => { h.working c is_manual hc with
        oldest := hnew (h.working c is_manual hc).oldest (h.working c is_manual hc).smallest } }
  · refine { hshows with
      snapshots := ?_
      held := List.forall_mem_append.mpr ⟨hshows.held, List.forall_mem_singleton.mpr fun k => ?_⟩ }
    · change (t.held ++ [(t.last, t.current)]).map Prod.fst = s.snapshots ++ [s.versions.last_sequence]
      rw [List.map_append, hshows.snapshots, hshows.last]
      rfl
    · exact hshows.last ▸ hshows.current k

theorem Sound.releaseSnapshot (h : s.Sound) (hshows : s.Shows t) (number : UInt64) :
    (s.releaseSnapshot number).Sound ∧ (s.releaseSnapshot number).Shows (Told.step (.releaseSnapshot number) t) := by
  have hsub : s.snapshots.erase number ⊆ s.snapshots := List.erase_subset
  constructor
  · exact { h with
      snapshots := h.snapshots.sublist List.erase_sublist
      snapshots_le := fun q hq => h.snapshots_le q (hsub hq)
      working := fun c is_manual hc => { h.working c is_manual hc with
        oldest := fun q hq => (h.working c is_manual hc).oldest q (hsub hq) } }
  · refine { hshows with
      snapshots := ?_
      held := fun p hp => hshows.held p (List.mem_of_mem_eraseP hp) }
    change (t.held.eraseP fun p => p.1 = number).map Prod.fst = s.snapshots.erase number
    have hsame : (fun p : UInt64 × OrdMap Bytes Bytes => decide (p.1 = number)) =
        (fun x => number == x) ∘ Prod.fst := by
      funext p
      rw [Bool.eq_iff_iff, decide_eq_true_eq, Function.comp_apply, beq_iff_eq]
      exact eq_comm
    rw [← hshows.snapshots, List.erase_eq_eraseP, List.eraseP_map, hsame]

theorem Shows.relaid {s' : DBImpl} (hshows : s.Shows t)
    (hlast : s'.versions.last_sequence = s.versions.last_sequence) (hinserted : s'.inserted = s.inserted)
    (hsnapshots : s'.snapshots = s.snapshots)
    (hfinds : ∀ q ∈ s.versions.last_sequence :: s.snapshots, ∀ k, s'.finds q k = s.finds q k)
    (htop : ∀ q : UInt64, q.toNat = s.top → ∀ k, s'.finds q k = s.finds q k) : s'.Shows t := by
  have hsame : s'.top = s.top := by rw [top, top, hlast, hinserted]
  refine ⟨hlast.trans hshows.last, hinserted.trans hshows.inserted, fun k => ?_, fun q hq k => ?_,
    hshows.snapshots.trans hsnapshots.symm, fun p hp k => ?_⟩
  · rw [hlast, hfinds _ (by simp)]
    exact hshows.current k
  · rw [htop q (hq.trans hsame)]
    exact hshows.written q (hq.trans hsame) k
  · rw [hfinds]
    · exact hshows.held p hp k
    · exact List.mem_cons_of_mem _ (hshows.snapshots ▸ List.mem_map_of_mem hp)

theorem finds_relaid {s' : DBImpl} (h : s.Sound) (h' : s'.Sound) (hstore : ∀ e, e ∈ s'.store ↔ e ∈ s.store)
    (q : UInt64) (k : Bytes) : s'.finds q k = s.finds q k := by
  rw [finds, finds, Versions.newest_relaid h'.ordered h.ordered fun e _ => hstore e]

/-- A manual compaction may have gaps between its inputs; no memtable goes into one of them. -/
def Clear (o : DBOptions) (s : DBImpl) : Prop :=
  ∀ work ∈ s.compacting, work.2 = true → ∀ imm ∈ s.imm, ∀ out ∈ s.level0Table o imm,
    out.1 = work.1.compaction.level + 1 →
      (∀ g ∈ work.1.compaction.inputs, out.2.Before g) ∨ ∀ g ∈ work.1.compaction.inputs, g.Before out.2

instance decidableClear (o : DBOptions) (s : DBImpl) : Decidable (Clear o s) :=
  inferInstanceAs (Decidable (∀ work ∈ s.compacting, work.2 = true → ∀ imm ∈ s.imm,
    ∀ out ∈ s.level0Table o imm, out.1 = work.1.compaction.level + 1 →
      (∀ g ∈ work.1.compaction.inputs, out.2.Before g) ∨ ∀ g ∈ work.1.compaction.inputs, g.Before out.2))

structure Landing (s : DBImpl) (imm : MemTable) (level : ℕ) (f : FileMetaData) : Prop where
  number : f.number = s.versions.next_file_number
  table : f.table = imm
  bottom : level ≤ kMaxMemCompactLevel
  apart : level ≠ 0 → ∀ l ≤ level, ∀ g ∈ s.versions.current l, g.Before f ∨ f.Before g

theorem landing (h : s.Sound) {imm : MemTable} {level : ℕ} {f : FileMetaData}
    (hout : s.level0Table o imm = some (level, f)) : s.Landing imm level f := by
  obtain ⟨g, hg, heq⟩ := Option.map_eq_some_iff.mp hout
  obtain ⟨hlevel, rfl⟩ := Prod.mk.inj heq
  obtain ⟨hnumber, -, htable⟩ := FileMetaData.build_eq hg
  have hpick := Version.pickLevel_spec o h.version g.smallest.user_key g.largest.user_key
  rw [hlevel] at hpick
  exact ⟨hnumber, htable, hpick.1, hpick.2⟩

theorem newAt_addFile (level : ℕ) (f : FileMetaData) (l : ℕ) :
    Builder.newAt (VersionEdit.new.addFile level f) l = if l = level then [f] else [] := by
  by_cases h : level = l
  · simp [Builder.newAt, VersionEdit.addFile, VersionEdit.new, h]
  · simp [Builder.newAt, VersionEdit.addFile, VersionEdit.new, h, Ne.symm h]

theorem Landing.fitting (h : s.Sound) {imm : MemTable} (himm : s.imm = some imm) {level : ℕ}
    {f : FileMetaData} (hland : s.Landing imm level f) :
    Version.Fitting s.versions.current (VersionEdit.new.addFile level f) level [f] := by
  have hnewer (l : ℕ) (g : FileMetaData) (hg : g ∈ s.versions.current l) : f.Newer g := by
    rw [FileMetaData.Newer, hland.table]
    exact h.imm_files imm himm l g hg
  have hless (l : ℕ) (g : FileMetaData) (hg : g ∈ s.versions.current l) : g.number < f.number :=
    hland.number ▸ h.numbers l g hg
  have hbottom : level < kNumLevels := hland.bottom.trans_lt (by decide)
  constructor
  · exact hbottom
  · exact newAt_addFile level f
  · simp
  · intro l g hg _ f' hf'
    rw [List.mem_singleton.mp hf']
    exact (hless l g hg).ne
  · intro f' hf'
    rw [List.mem_singleton.mp hf', hland.table]
    exact h.imm_typed imm himm
  · intro l hl g hg _ f' hf'
    rw [List.mem_singleton.mp hf']
    exact FileMetaData.newer_of_apart (hland.apart (by omega) l hl.le g hg)
  · intro l _ g hg _ f' hf'
    rw [List.mem_singleton.mp hf']
    exact hnewer l g hg
  · intro _ f' hf'
    rw [List.mem_singleton.mp hf']
    exact ⟨fun g hg => List.mem_singleton.mp hg, fun g hg => ⟨hless 0 g hg, hnewer 0 g hg⟩⟩
  · intro hlevel f' hf' g hg _
    rw [List.mem_singleton.mp hf']
    rcases hland.apart hlevel.ne' level le_rfl g hg with hbefore | hbefore
    · exact .inr (InternalKey.lt_iff.mpr (.inl hbefore))
    · exact .inl (InternalKey.lt_iff.mpr (.inl hbefore))
  · exact fun _ => List.pairwise_singleton _ _

theorem Landing.around (h : s.Sound) (hclear : s.Clear o) {imm : MemTable} (himm : s.imm = some imm)
    {level : ℕ} {f : FileMetaData} (hout : s.level0Table o imm = some (level, f)) {c : CompactionState}
    {is_manual : Bool} (hwork : s.compacting = some (c, is_manual)) {v : Version}
    (hmem : ∀ l g, g ∈ v l ↔ l = level ∧ g ∈ [f] ∨ g ∈ s.versions.current l)
    (ha : Around s.versions.current c.compaction is_manual) : Around v c.compaction is_manual := by
  have hland := landing h hout
  have hnewer (l : ℕ) (g : FileMetaData) (hg : g ∈ s.versions.current l) : f.Newer g := by
    rw [FileMetaData.Newer, hland.table]
    exact h.imm_files imm himm l g hg
  have hinput {g : FileMetaData} (hg : g ∈ c.compaction.inputs) :
      ∃ l ≤ c.compaction.level + 1, g ∈ s.versions.current l := by
    rcases List.mem_append.mp hg with hg | hg
    · exact ⟨_, Nat.le_succ _, ha.sub0 hg⟩
    · exact ⟨_, le_rfl, ha.sub1 hg⟩
  have hfits (hlevel : c.compaction.level + 1 = level) :
      (∀ g ∈ c.compaction.inputs, f.largest < g.smallest) ∨ ∀ g ∈ c.compaction.inputs, g.largest < f.smallest := by
    have hside : (∀ g ∈ c.compaction.inputs, f.Before g) ∨ ∀ g ∈ c.compaction.inputs, g.Before f := by
      cases is_manual with
      | true => exact hclear _ hwork rfl imm himm _ hout hlevel.symm
      | false =>
        have hsize := InternalKey.user_key_mono f.smallest_le_largest
        have havoids (g : FileMetaData) (hg : g ∈ c.compaction.inputs) :
            Avoids f.smallest.user_key f.largest.user_key g := by
          obtain ⟨l, hl, hg⟩ := hinput hg
          exact hland.apart (by omega) l (hlevel ▸ hl) g hg
        rcases ha.contiguous rfl _ _ hsize havoids with hleft | hright
        · exact .inr hleft
        · exact .inl hright
    rcases hside with hleft | hright
    · exact .inl fun g hg => InternalKey.lt_iff.mpr (.inl (hleft g hg))
    · exact .inr fun g hg => InternalKey.lt_iff.mpr (.inl (hright g hg))
  refine { ha with
    sub0 := fun g hg => (hmem _ g).mpr (.inr (ha.sub0 hg))
    sub1 := fun g hg => (hmem _ g).mpr (.inr (ha.sub1 hg))
    above := ?above
    beside := ?beside
    placed := ?placed
    below := ?below }
  case above =>
    intro g hg hnot g' hg'
    rcases (hmem _ g).mp hg with ⟨-, hg⟩ | hg
    · rw [List.mem_singleton.mp hg]
      exact hnewer _ g' (ha.sub0 hg')
    · exact ha.above g hg hnot g' hg'
  case beside =>
    intro g hg hnot g' hg'
    rcases (hmem _ g).mp hg with ⟨-, hg⟩ | hg
    · rw [List.mem_singleton.mp hg]
      obtain ⟨l, -, hg'⟩ := hinput hg'
      exact hnewer l g' hg'
    · exact ha.beside g hg hnot g' hg'
  case placed =>
    intro g hg hnot
    rcases (hmem _ g).mp hg with ⟨hlevel, hg⟩ | hg
    · rw [List.mem_singleton.mp hg]
      exact hfits hlevel
    · exact ha.placed g hg hnot
  case below =>
    intro l hlow hnum g hg
    rcases (hmem _ g).mp hg with ⟨rfl, hg⟩ | hg
    · rw [List.mem_singleton.mp hg]
      refine .inr fun g' hg' => ?_
      obtain ⟨l', hl', hg'⟩ := hinput hg'
      exact (hland.apart (by omega) l' (by omega) g' hg').symm
    · exact ha.below l hlow hnum g hg

structure Flushed (s : DBImpl) (imm : MemTable) (v : Version) : Prop where
  version : v.Sound
  files : ∀ l, ∀ f ∈ v l, f ∈ s.versions.current l ∨ f.table = imm ∧ f.number = s.versions.next_file_number
  contents : ∀ e, e ∈ v.contents ↔ e ∈ imm.entries ∨ e ∈ s.versions.current.contents
  around : ∀ c is_manual, s.compacting = some (c, is_manual) → Around s.versions.current c.compaction is_manual →
    Around v c.compaction is_manual

theorem Around.congr {v v' : Version} {c : Compaction} {is_manual : Bool} (h : Around v c is_manual)
    (hmem : ∀ l g, g ∈ v' l ↔ g ∈ v l) : Around v' c is_manual :=
  { h with
    sub0 := fun g hg => (hmem _ g).mpr (h.sub0 hg)
    sub1 := fun g hg => (hmem _ g).mpr (h.sub1 hg)
    above := fun g hg => h.above g ((hmem _ g).mp hg)
    beside := fun g hg => h.beside g ((hmem _ g).mp hg)
    placed := fun g hg => h.placed g ((hmem _ g).mp hg)
    below := fun l hlow hnum g hg => h.below l hlow hnum g ((hmem _ g).mp hg) }

theorem fitting_new (v : Version) : Version.Fitting v VersionEdit.new 0 [] where
  bottom := by decide
  newAt := fun l => (ite_self (c := l = 0) ([] : List FileMetaData)).symm
  nodup := List.nodup_nil
  fresh := fun _ _ _ _ f hf => absurd hf (by simp)
  typed := fun f hf => absurd hf (by simp)
  above := fun _ _ _ _ _ f hf => absurd hf (by simp)
  below := fun _ _ _ _ _ f hf => absurd hf (by simp)
  among := fun _ f hf => absurd hf (by simp)
  beside := fun hlt => absurd hlt (lt_irrefl _)
  sorted := fun hlt => absurd hlt (lt_irrefl _)

theorem flushed (h : s.Sound) (hclear : s.Clear o) {imm : MemTable} (himm : s.imm = some imm) :
    s.Flushed imm (Builder.saveTo s.versions.current
      ((s.level0Table o imm).elim VersionEdit.new fun out => VersionEdit.new.addFile out.1 out.2)) := by
  cases hout : s.level0Table o imm with
  | none =>
    have hempty : imm.entries = [] := by
      rw [level0Table, Option.map_eq_none_iff, FileMetaData.build] at hout
      by_contra hne
      simp [hne] at hout
    have hfit := fitting_new s.versions.current
    have hmem (l : ℕ) (g : FileMetaData) :
        g ∈ Builder.saveTo s.versions.current VersionEdit.new l ↔ g ∈ s.versions.current l := by
      rw [(hfit.spec h.version l).2 g]
      simp [Builder.deletedAt, VersionEdit.new]
    refine ⟨hfit.sound h.version, fun l f hf => .inl ((hmem l f).mp hf), fun e => ?_,
      fun c is_manual _ ha => ha.congr hmem⟩
    simp only [Option.elim_none, Version.mem_contents, hmem, hempty, List.not_mem_nil, false_or]
  | some out =>
    obtain ⟨level, f⟩ := out
    have hland := landing h hout
    have hfit := hland.fitting h himm
    have hmem (l : ℕ) (g : FileMetaData) :
        g ∈ Builder.saveTo s.versions.current (VersionEdit.new.addFile level f) l ↔
          l = level ∧ g ∈ [f] ∨ g ∈ s.versions.current l := by
      rw [(hfit.spec h.version l).2 g]
      simp [Builder.deletedAt, VersionEdit.addFile, VersionEdit.new]
    refine ⟨hfit.sound h.version, fun l g hg => ?_, fun e => ?_,
      fun c is_manual hwork ha => Landing.around h hclear himm hout hwork hmem ha⟩
    · rcases (hmem l g).mp hg with ⟨-, hg⟩ | hg
      · rw [List.mem_singleton.mp hg]
        exact .inr ⟨hland.table, hland.number⟩
      · exact .inl hg
    · simp only [Option.elim_some, Version.mem_contents, hmem, List.mem_singleton]
      constructor
      · rintro ⟨l, hl, g, ⟨-, rfl⟩ | hg, he⟩
        · exact .inl (hland.table ▸ he)
        · exact .inr ⟨l, hl, g, hg, he⟩
      · rintro (he | ⟨l, hl, g, hg, he⟩)
        · exact ⟨level, hland.bottom.trans_lt (by decide), f, .inl ⟨rfl, rfl⟩, hland.table ▸ he⟩
        · exact ⟨l, hl, g, .inr hg, he⟩

theorem Sound.compactMemTable (h : s.Sound) (hclear : s.Clear o) (hshows : s.Shows t) :
    (s.compactMemTable o).Sound ∧ (s.compactMemTable o).Shows t := by
  rw [DBImpl.compactMemTable]
  cases himm : s.imm with
  | none => exact ⟨h, hshows⟩
  | some imm =>
    have hflushed := flushed h hclear himm
    dsimp only
    generalize (s.level0Table o imm).elim VersionEdit.new
      (fun out => VersionEdit.new.addFile out.1 out.2) = edit at hflushed ⊢
    have hstore (e : InternalKey × Bytes) : e ∈ store { s with
        imm := none, versions := s.versions.newFileNumber.2.logAndApply edit } ↔ e ∈ s.store := by
      rw [mem_store, mem_store]
      change e ∈ s.mem.entries ∨ _ ∨ e ∈ (Builder.saveTo s.versions.current edit).contents ↔ _
      simp [hflushed.contents, himm]
    have hsound : Sound { s with
        imm := none, versions := s.versions.newFileNumber.2.logAndApply edit } := by
      have hnone {p : Prop} (imm : MemTable) (himm : imm ∈ (none : Option MemTable)) : p := absurd himm (by simp)
      refine { h with
        version := hflushed.version
        imm_typed := fun imm himm => hnone imm himm
        short := fun e he => h.short e ((hstore e).mp he)
        upto := fun e he => h.upto e ((hstore e).mp he)
        mem_imm := fun imm himm => hnone imm himm
        mem_files := fun l f hf => ?mem_files
        imm_files := fun imm himm => hnone imm himm
        numbers := fun l f hf => ?numbers
        working := fun c is_manual hc => ?working }
      case mem_files =>
        rcases hflushed.files l f hf with hf | ⟨htable, -⟩
        · exact h.mem_files l f hf
        · exact htable ▸ h.mem_imm imm himm
      case numbers =>
        rcases hflushed.files l f hf with hf | ⟨-, hnumber⟩
        · exact (h.numbers l f hf).trans (Nat.lt_succ_self _)
        · exact hnumber ▸ Nat.lt_succ_self _
      case working =>
        have hw := h.working c is_manual hc
        refine { hw with
          around := hflushed.around c is_manual hc hw.around
          taken := fun n hn => (hw.taken n hn).trans (Nat.lt_succ_self _)
          fresh := fun l f hf => ?_ }
        rcases hflushed.files l f hf with hf | ⟨-, hnumber⟩
        · exact hw.fresh l f hf
        · exact fun hin => absurd (hw.taken _ hin) (hnumber ▸ lt_irrefl _)
    exact ⟨hsound, hshows.relaid rfl rfl rfl (fun q _ k => finds_relaid h hsound hstore q k)
      fun q _ k => finds_relaid h hsound hstore q k⟩

/-- No file that stays in its level has an older version of a key of the inputs. -/
def Whole (v : Version) (c : Compaction) : Prop :=
  (0 < c.level → ∀ f ∈ v c.level, f.number ∉ c.inputs0.map FileMetaData.number →
    ∀ g ∈ c.inputs0, f.Newer g) ∧
  ∀ f ∈ v (c.level + 1), f.number ∉ c.inputs1.map FileMetaData.number → ∀ g ∈ c.inputs1, f.Newer g

instance decidableWhole (v : Version) (c : Compaction) : Decidable (Whole v c) :=
  inferInstanceAs (Decidable ((0 < c.level → ∀ f ∈ v c.level,
      f.number ∉ c.inputs0.map FileMetaData.number → ∀ g ∈ c.inputs0, f.Newer g) ∧
    ∀ f ∈ v (c.level + 1), f.number ∉ c.inputs1.map FileMetaData.number → ∀ g ∈ c.inputs1, f.Newer g))

theorem mem_of_number {v : Version} (hv : v.Sound) {l : ℕ} {files : List FileMetaData} (hsub : files ⊆ v l)
    {f : FileMetaData} (hf : f ∈ v l) : f.number ∈ files.map FileMetaData.number ↔ f ∈ files := by
  constructor
  · intro h
    obtain ⟨g, hg, heq⟩ := List.mem_map.mp h
    exact (hv.numbers l l g (hsub hg) f hf heq).2 ▸ hg
  · exact List.mem_map_of_mem

theorem around_start {v : Version} (hv : v.Sound) {c : Compaction} (hready : Compaction.Ready v c)
    (hwhole : Whole v c) (is_manual : Bool) (hcontiguous : is_manual = false → Contiguous c.inputs)
    (hedit : c.edit.deleted_files = [] ∧ c.edit.new_files = []) : Around v c is_manual := by
  have hnot0 {f : FileMetaData} (hf : f ∈ v c.level) (h : f ∉ c.inputs0) :
      f.number ∉ c.inputs0.map FileMetaData.number := by rwa [mem_of_number hv hready.sub0.subset hf]
  have hnot1 {f : FileMetaData} (hf : f ∈ v (c.level + 1)) (h : f ∉ c.inputs1) :
      f.number ∉ c.inputs1.map FileMetaData.number := by rwa [mem_of_number hv hready.sub1.subset hf]
  have hbefore {f g : FileMetaData} (h : f.Before g) : f.largest < g.smallest := InternalKey.lt_iff.mpr (.inl h)
  constructor
  · exact hready.bottom
  · exact hready.version ▸ hv
  · exact hready.sub0.subset
  · exact hready.sub1.subset
  · intro f hf hnot g hg
    rcases Nat.eq_zero_or_pos c.level with hzero | hpos
    · exact FileMetaData.newer_of_apart (hready.apart0 hzero f (hzero ▸ hf) hnot g hg)
    · exact hwhole.1 hpos f hf (hnot0 hf hnot) g hg
  · intro f hf hnot g hg
    rcases List.mem_append.mp hg with hg | hg
    · refine FileMetaData.newer_of_apart ?_
      rcases hready.apart1 f hf hnot with h | h
      · exact .inl (h g hg)
      · exact .inr (h g hg)
    · exact hwhole.2 f hf (hnot1 hf hnot) g hg
  · intro f hf hnot
    have hsorted := hv.sorted _ (Nat.succ_pos c.level)
    rcases hready.apart1 f hf hnot with hside | hside
    · refine .inl fun g hg => ?_
      rcases List.mem_append.mp hg with hg | hg
      · exact hbefore (hside g hg)
      · obtain ⟨g0, hg0, hmeets⟩ := (hready.meets1 g hg).1
        have hne : f ≠ g := fun heq => hnot (heq ▸ hg)
        refine (Version.pairwise_apart hsorted hf (hready.sub1.subset hg) hne).resolve_right fun hlt => hmeets ?_
        have hle := InternalKey.user_key_mono (hlt.le.trans f.smallest_le_largest)
        exact hle.trans_lt (hside g0 hg0)
    · refine .inr fun g hg => ?_
      rcases List.mem_append.mp hg with hg | hg
      · exact hbefore (hside g hg)
      · obtain ⟨g0, hg0, hmeets⟩ := (hready.meets1 g hg).2
        have hne : g ≠ f := fun heq => hnot (heq ▸ hg)
        refine (Version.pairwise_apart hsorted (hready.sub1.subset hg) hf hne).resolve_right fun hlt => hmeets ?_
        have hle := InternalKey.user_key_mono (f.smallest_le_largest.trans hlt.le)
        exact (hside g0 hg0).trans_le hle
  · exact fun l _ _ f hf => .inl (hready.version ▸ hf)
  · exact hcontiguous
  · exact fun e => CompactionState.mem_merged hv hready
  · exact hedit

end DBImpl
