import Ssdb.Theory.Repair

namespace ScoredSet
open Keys SSDBImpl Strings

variable {t : OrdMap Bytes Bytes} {n : Bytes} {M : OrdMap Bytes Int64} {S : Finset Item}
  {w w' : SSDBImpl} {i : Item} {l : List Item}

namespace Passes
variable (hp : Passes n M S w w' l)
include hp

theorem recorded (h : Recorded w.ldb.table n M S) :
    Recorded w'.ldb.table n (merged M S) (S ∪ l.toFinset) := by
  obtain ⟨w1, w2, w3, hmembers, hfirst, hscores, hsecond⟩ := hp.states
  have h1 : Recorded w1.ldb.table n (merged M S) S :=
    hmembers.table ▸ h.fixMembers (visible_keys h)
  have h2 := hfirst.recorded h1
  have hkeys : ∀ i ∈ l, KeyOk i.key := fun i hi =>
    h2.member_key (by simp [(mem_ranking _ i).mp (hp.items.mem_iff.mp hi)])
  exact hsecond.recorded (hscores.table ▸ h2.fixScores hkeys)

theorem foreign : foreign w'.ldb.table n = foreign w.ldb.table n := by
  obtain ⟨w1, w2, w3, hmembers, hfirst, hscores, hsecond⟩ := hp.states
  rw [hsecond.foreign, hscores.foreign_scores, hfirst.foreign, hmembers.foreign_members]

theorem count : w'.ldb.readCount (encodeZsizeKey n) = Int64.ofNat l.length := by
  obtain ⟨w1, w2, w3, -, -, -, hsecond⟩ := hp.states
  exact hsecond.count

theorem faults : w'.faults = Faults.none := by
  obtain ⟨w1, w2, w3, -, -, -, hsecond⟩ := hp.states
  exact hsecond.faults

theorem length : l.length = (merged M S).size := hp.items.length_eq.trans (ranking_length _)

end Passes

def Matched (M : OrdMap Bytes Int64) (S : Finset Item) : Prop :=
  ∀ i, i ∈ S ↔ M.get i.key = some i.score

theorem foldl_fixed {α β : Type} {f : α → β → α} {a : α} {l : List β} (h : ∀ b ∈ l, f a b = a) :
    l.foldl f a = a := by
  induction l with
  | nil => rfl
  | cons b l ih =>
    rw [List.foldl_cons, h b (by simp)]
    exact ih fun b' h' => h b' (by simp [h'])

namespace Matched
variable (hm : Matched M S)
include hm

theorem merged : merged M S = M :=
  foldl_fixed fun i hi => OrdMap.insert_same ((hm i).mp (mem_visible.mp hi).1)

theorem members_kept (h : Recorded t n M S) : (visible S).foldl (fixMember n) t = t :=
  foldl_fixed fun i hi => OrdMap.insert_same (by
    rw [h.member, (hm i).mp (mem_visible.mp hi).1]
    rfl)

omit hm in
theorem scores_kept (h : Recorded t n M S) {l : List Item} (hl : ∀ i ∈ l, i ∈ S) :
    l.foldl (fixScore n) t = t :=
  foldl_fixed fun i hi => if_neg ((h.score i).mpr (hl i hi))

theorem visible_length : (visible S).length ≤ M.size := by
  rw [← ranking_length]
  refine List.Subperm.length_le (List.subperm_of_subset (Finset.sort_nodup _ _) fun i hi => ?_)
  exact (mem_ranking M i).mpr ((hm i).mp (mem_visible.mp hi).1)

end Matched

theorem readCount_congr {db db' : LevelDB} {key : Bytes} (h : db'.table.get key = db.table.get key) :
    db'.readCount key = db.readCount key := by rw [LevelDB.readCount, LevelDB.readCount, h]

theorem readCount_record {db : LevelDB} {sizeKey : Bytes} (h : db.readCount sizeKey ≠ 0) :
    db.table.get sizeKey = some (Endian.memory (db.readCount sizeKey).toUInt64) := by
  rw [LevelDB.readCount] at h ⊢
  cases hv : db.table.get sizeKey with
  | none => simp [hv] at h
  | some v =>
    simp only [hv] at h ⊢
    split_ifs at h ⊢ with h1 h2
    · exact absurd rfl h
    · exact absurd rfl h
    · rw [UInt64.toUInt64_toInt64, Endian.memory_ofMemory (not_not.mp h1)]

theorem Passes.settled (hp : Passes n M S w w' l) (h : Recorded w.ldb.table n M S)
    (hm : Matched M S) : ∃ w1 w2 w3, w1.ldb.table = w.ldb.table ∧
      Resized n (Int64.ofNat (visible S).length) w1 w2 ∧ w3.ldb.table = w2.ldb.table ∧
      Resized n (Int64.ofNat l.length) w3 w' := by
  obtain ⟨w1, w2, w3, hmembers, hfirst, hscores, hsecond⟩ := hp.states
  have hitems : ∀ i ∈ l, i ∈ S := fun i hi => (hm i).mpr (by
    have hmem := (mem_ranking _ i).mp (hp.items.mem_iff.mp hi)
    rwa [hm.merged] at hmem)
  have h1 : w1.ldb.table = w.ldb.table := hmembers.table.trans (hm.members_kept h)
  have h3 : w3.ldb.table = w2.ldb.table :=
    hscores.table.trans (Matched.scores_kept (hfirst.recorded (h1 ▸ h)) hitems)
  exact ⟨w1, w2, w3, h1, hfirst, h3, hsecond⟩

theorem Passes.others (hp : Passes n M S w w' l) (h : Recorded w.ldb.table n M S)
    (hm : Matched M S) {key : Bytes} (hkey : key ≠ encodeZsizeKey n) :
    w'.ldb.table.get key = w.ldb.table.get key := by
  obtain ⟨w1, w2, w3, h1, hfirst, h3, hsecond⟩ := hp.settled h hm
  rw [hsecond.others key hkey, h3, hfirst.others key hkey, h1]

theorem Passes.unchanged (hp : Passes n M S w w' l) (h : Recorded w.ldb.table n M S)
    (hm : Matched M S) (hcount : w.ldb.readCount (encodeZsizeKey n) = Int64.ofNat M.size)
    (hbound : M.size < 2 ^ 63) : w'.ldb.table = w.ldb.table := by
  have hothers := fun (key : Bytes) => @Passes.others _ _ _ _ _ _ hp h hm key
  obtain ⟨w1, w2, w3, h1, hfirst, h3, hsecond⟩ := hp.settled h hm
  have hlen : l.length = M.size := hp.length.trans (by rw [hm.merged])
  have hcount1 : w1.ldb.readCount (encodeZsizeKey n) = Int64.ofNat M.size :=
    (readCount_congr (by rw [h1])).trans hcount
  have hcount3 : w3.ldb.readCount (encodeZsizeKey n) = Int64.ofNat (visible S).length :=
    (readCount_congr (by rw [h3])).trans hfirst.count
  rw [hlen] at hsecond
  rcases eq_or_ne (visible S).length M.size with hsize | hsize
  · rw [hsize] at hfirst hcount3
    have h2 := hfirst.same hcount1
    rw [hsecond.same hcount3, h3, h2, h1]
  · -- the first pass has missed members, so that the size record is written twice
    have hle := hm.visible_length
    have hdiff : Int64.ofNat (visible S).length ≠ Int64.ofNat M.size := fun he => by
      have hint := congrArg Int64.toInt he
      rw [Counter.ofNat_toInt (by omega), Counter.ofNat_toInt hbound] at hint
      omega
    have hne : Int64.ofNat M.size ≠ 0 := Counter.ofNat_ne_zero hbound (by omega)
    refine OrdMap.ext_get fun key => ?_
    rcases eq_or_ne key (encodeZsizeKey n) with rfl | hkey
    · have hrecord := hsecond.record (by rw [hcount3]; exact hdiff)
      rw [hrecord, if_neg hne, ← hcount, readCount_record (hcount ▸ hne)]
    · exact hothers key hkey

theorem zfix_matched (h : Recorded w.ldb.table n M S) (hw : w.faults = Faults.none)
    (hn : n.length < SSDB_KEY_LEN_MAX) (hseq : w.ldb.sequence < 2 ^ 60) (hm : Matched M S)
    (hcount : w.ldb.readCount (encodeZsizeKey n) = Int64.ofNat M.size)
    (hopen : ¬Blocked (foreign w.ldb.table n)) :
    (zfix n w).1 = Int64.ofNat M.size ∧ (zfix n w).2.ldb.table = w.ldb.table := by
  have hrun := zfix_run h hw hn hseq
  rw [if_neg hopen] at hrun
  obtain ⟨l, hret, hlen, hp⟩ := hrun
  have hsize : l.length = M.size := hp.length.trans (by rw [hm.merged])
  exact ⟨hret.trans (by rw [hsize]), hp.unchanged h hm hcount (by omega)⟩

variable {Z : ScoredSet}

theorem prefix_named {m k rest : Bytes} (hm : m.length ≤ SSDB_KEY_LEN_MAX)
    (hn : n.length ≤ SSDB_KEY_LEN_MAX) (h : encodeZsetKey m k = memberPrefix n ++ rest) :
    m = n ∧ rest = len8 k :: k := by
  have hlen := congrArg Fin.val (List.cons.inj (List.cons.inj h).2).1
  rw [len8_val hm, len8_val hn] at hlen
  obtain ⟨rfl, hrest⟩ := List.append_inj (List.cons.inj (List.cons.inj h).2).2 hlen
  exact ⟨rfl, hrest.symm⟩

theorem Indexed.recorded (hI : Indexed w.ldb.data Z) (ht : Container.Shaped w.ldb.table)
    (hn : n.length ≤ SSDB_KEY_LEN_MAX) :
    Recorded w.ldb.table n (Z n) (ranking (Z n)).toFinset where
  member k := member_get hI n k
  score i := by rw [List.mem_toFinset, mem_ranking, ← score_present hI n i.key i.score, itemKey]
  memberForm rest hr := by
    obtain ⟨v, hv⟩ := Option.ne_none_iff_exists'.mp hr
    obtain ⟨m, k, ha, hkey⟩ := (Container.shaped_get ht hv).zset rfl
    obtain ⟨-, hrest⟩ := prefix_named ha.2.2.1 hn hkey.symm
    exact ⟨k, hrest, ha.2.1, ha.2.2.2⟩
  scoreForm rest hr := by
    obtain ⟨v, hv⟩ := Option.ne_none_iff_exists'.mp hr
    obtain ⟨-, m, k, s, ha, hkey⟩ := (Container.shaped_get ht hv).zscore rfl
    obtain rfl : m = n := named_prefix hn ha.2.2.1 hkey.symm
    exact ⟨⟨k, s⟩, List.append_cancel_left hkey, ha.2.1, ha.2.2.2⟩

theorem matched_ranking (M : OrdMap Bytes Int64) : Matched M (ranking M).toFinset := fun i => by
  rw [List.mem_toFinset, mem_ranking]

theorem shaped_open (ht : Container.Shaped t) (n : Bytes) : ¬Blocked (foreign t n) := by
  intro h
  cases hes : foreign t n with
  | nil => rw [hes] at h; exact h
  | cons e es =>
    rw [hes] at h
    have he : e ∈ foreign t n := by rw [hes]; simp
    have hmem := (List.mem_filter.mp (List.mem_filter.mp he).1).1
    obtain ⟨m, k, ha, hkey⟩ := (ht e hmem).zset h.1
    have hdecode := h.2
    rw [hkey, decode_zset_key ha.2.2.1 ha.2.2.2] at hdecode
    cases hdecode

theorem secondPass_longest (hlen : n.length = SSDB_KEY_LEN_MAX) (w : SSDBImpl) :
    secondPass n w = zfixSize n 0 w := by
  have hempty : rawEntries (w.ldb.iterator (encodeZsetKey n []) (encodeZsetKey (n ++ [255]) [])
      UINT64_MAX.toNat) = [] := by
    rw [rawEntries_pending, LevelDB.iterator_pending, List.take_eq_nil_iff]
    right
    refine List.filter_eq_nil_iff.mpr fun e _ hb => ?_
    obtain ⟨hlow, hhigh⟩ := of_decide_eq_true hb
    have hle := hlow.trans_le (hhigh.resolve_left (by simp [encodeZsetKey]))
    have hval : (len8 n).val = 255 := (len8_val hlen.le).trans hlen
    have hwrap : (len8 (n ++ [255])).val = 0 := by
      rw [len8, Fin.val_ofNat, List.length_append, hlen]
      rfl
    rw [encodeZsetKey, encodeZsetKey, List.cons_lt_cons_iff, List.cons_lt_cons_iff, Fin.lt_def,
      Fin.lt_def, Fin.ext_iff, Fin.ext_iff, hval, hwrap] at hle
    omega
  rw [secondPass, hempty]
  rfl

theorem zfix_longest (h : Recorded w.ldb.table n M S) (hw : w.faults = Faults.none)
    (hlen : n.length = SSDB_KEY_LEN_MAX) (hseq : w.ldb.sequence < 2 ^ 60) :
    (zfix n w).1 = 0 ∧ (M = OrdMap.empty → Matched M S → w.ldb.readCount (encodeZsizeKey n) = 0 →
      (zfix n w).2.ldb.table = w.ldb.table) := by
  obtain ⟨w1, w2, hmembers, hfirst, -, hret, hldb, -⟩ := zfix_second h hw hlen.le hseq
  obtain ⟨hzero, hsecond⟩ := zfixSize_run (n := n) hfirst.faults (le_refl (0 : Int64))
  rw [secondPass_longest hlen] at hret hldb
  rw [hret, hldb]
  generalize zfixSize n 0 w2 = s at hzero hsecond
  refine ⟨hzero, fun hM hm hcount => ?_⟩
  have hnone : visible S = [] := List.eq_nil_iff_forall_not_mem.mpr fun i hi => by
    have hget := (hm i).mp (mem_visible.mp hi).1
    rw [hM] at hget
    cases hget
  rw [hnone] at hmembers hfirst
  have h1 : w1.ldb.table = w.ldb.table := hmembers.table
  have h2 := hfirst.same ((readCount_congr (by rw [h1])).trans hcount)
  exact (hsecond.same hfirst.count).trans (h2.trans h1)

/-- In every state the writes to sorted sets reach: a repair of a set keeps its records and returns
its size exactly when the name is shorter than 255 bytes or the set is empty. -/
theorem zfix_keeps_iff (enabled : Bool) (capacity : Int32) (cs : List Call)
    (hcs : ∀ c ∈ cs, c.onZset = true) (name : Bytes) (hn : name.length ≤ SSDB_KEY_LEN_MAX) :
    let w := Call.after cs (SSDBImpl.fresh enabled capacity)
    w.ldb.sequence ≤ kMaxSequenceNumber →
      ((zfix name w).1 = (zsize name w).1 ∧ (zfix name w).2.ldb.table = w.ldb.table ↔
        name.length < SSDB_KEY_LEN_MAX ∨ ∀ key, (zget name key w).1.1 ≠ 1) := by
  intro w hseq
  have hafter : ∃ Z, Holds w Z := after_holds hcs enabled capacity
  obtain ⟨Z, hZ⟩ := hafter
  have hfaults : w.faults = Faults.none := Call.after_faults cs rfl
  have hget : w.faults.get = [] := congrArg Faults.get hfaults
  have ht : Container.Shaped w.ldb.table := Container.reachable_shaped ⟨enabled, capacity, _, rfl⟩
  have hrecorded := hZ.index.recorded ht hn
  have hb := hZ.index.bound hseq name
  have hcount : w.ldb.readCount (encodeZsizeKey name) = Int64.ofNat (Z name).size := by
    refine Counter.readCount_counter (by omega) ?_
    rw [← LevelDB.data_eq (zsizeKey_data name), hZ.sizes hseq name]
  have hsize : (zsize name w).1 = Int64.ofNat (Z name).size := by
    rw [zsize, getCount_apply _ hget, hcount]
  have hmany : w.ldb.sequence < 2 ^ 60 := lt_of_le_of_lt hseq (by decide)
  rw [hsize]
  rcases lt_or_eq_of_le hn with hlen | hlen
  · exact iff_of_true (zfix_matched hrecorded hfaults hlen hmany (matched_ranking _) hcount
      (shaped_open ht name)) (.inl hlen)
  · obtain ⟨hret, hsame⟩ := zfix_longest hrecorded hfaults hlen hmany
    rw [hret, or_iff_right (by omega)]
    simp only [ne_eq, zget_one_iff hZ.index hget, not_not]
    constructor
    · rintro ⟨hzero, -⟩ key
      have hempty : (Z name).size = 0 := by
        by_contra h0
        exact Counter.ofNat_ne_zero (by omega) h0 hzero.symm
      rw [OrdMap.get, List.length_eq_zero_iff.mp hempty, OrdMap.find]
    · intro hnone
      have hempty : Z name = OrdMap.empty := OrdMap.ext_get fun key => by rw [hnone key]; rfl
      have hzero : (Z name).size = 0 := by rw [hempty]; rfl
      refine ⟨by rw [hzero]; rfl, hsame hempty (matched_ranking _) ?_⟩
      rw [hcount, hzero]
      rfl

theorem zfix_keeps_stored :
    let w := Call.after [.zset [122] [97] [50] 1, .zset [122] [98] [49] 1, .zset [121] [97] [51] 1]
      (SSDBImpl.fresh true 1000)
    (zfix [122] w).1 = (zsize [122] w).1 ∧ (zfix [122] w).2.ldb.table = w.ldb.table :=
  (zfix_keeps_iff true 1000 [.zset [122] [97] [50] 1, .zset [122] [98] [49] 1, .zset [121] [97] [51] 1]
    (by decide) [122] (by decide) (by decide)).mpr (.inl (by decide))

theorem zfix_drops_size :
    let n := List.replicate 255 122
    let w := Call.after [.zset n [97] [49] 1] (SSDBImpl.fresh true 1000)
    (zsize n w).1 = 1 ∧ (zfix n w).1 = 0 ∧ (zsize n (zfix n w).2).1 = 0 := by
  decide +kernel

structure WellFormed (t : OrdMap Bytes Bytes) (n : Bytes) : Prop where
  members : ∀ rest v, t.get (memberPrefix n ++ rest) = some v →
    ∃ k s, KeyOk k ∧ rest = len8 k :: k ∧ v = str s
  scores : ∀ rest v, t.get (scorePrefix n ++ rest) = some v →
    ∃ i : Item, KeyOk i.key ∧ rest = itemBytes i

theorem foldl_insert_get (l : List Item) (M : OrdMap Bytes Int64) (k : Bytes) :
    (∃ i ∈ l, i.key = k ∧ (l.foldl (fun M i => M.insert i.key i.score) M).get k = some i.score) ∨
      (∀ i ∈ l, i.key ≠ k) ∧ (l.foldl (fun M i => M.insert i.key i.score) M).get k = M.get k := by
  induction l generalizing M with
  | nil => exact .inr ⟨by simp, rfl⟩
  | cons i l ih =>
    rcases ih (M.insert i.key i.score) with ⟨j, hj, hkey, hget⟩ | ⟨hnone, hget⟩
    · exact .inl ⟨j, by simp [hj], hkey, hget⟩
    · rw [List.foldl_cons, hget, OrdMap.get_insert]
      split_ifs with hk
      · exact .inl ⟨i, by simp, hk.symm, rfl⟩
      · exact .inr ⟨fun j hj => (List.mem_cons.mp hj).elim (fun he => he ▸ Ne.symm hk) (hnone j), rfl⟩

theorem exists_recorded (h : WellFormed t n) : ∃ M S, Recorded t n M S := by
  have hscores : {i | t.get (itemKey n i) ≠ none}.Finite := by
    refine Set.Finite.subset ((t.keys.toFinset.finite_toSet).preimage
      (f := itemKey n) fun i _ j _ he => itemKey_inj.mp he) fun i hi => ?_
    simpa [OrdMap.mem_keys_iff] using hi
  have hmembers : {i | memberEntry n i ∈ t.entries}.Finite :=
    (t.entries.toFinset.finite_toSet).preimage (memberEntry_injective n).injOn |>.subset
      fun i hi => by simpa using hi
  let M := hmembers.toFinset.toList.foldl (fun M i => M.insert i.key i.score) OrdMap.empty
  refine ⟨M, hscores.toFinset, ?_, ?_, ?_, ?_⟩
  · intro k
    rcases foldl_insert_get hmembers.toFinset.toList OrdMap.empty k with ⟨i, hi, rfl, hget⟩ | ⟨hnone, hget⟩
    · rw [Finset.mem_toList, Set.Finite.mem_toFinset] at hi
      rw [hget, (OrdMap.mem_entries_iff _ _ _).mp hi]
      rfl
    · rw [hget, OrdMap.get_empty, Option.map_none]
      by_contra hsome
      obtain ⟨v, hv⟩ := Option.ne_none_iff_exists'.mp hsome
      obtain ⟨l, s, -, -, rfl⟩ := h.members _ v hv
      refine hnone ⟨k, s⟩ ?_ rfl
      rw [Finset.mem_toList, Set.Finite.mem_toFinset]
      exact (OrdMap.mem_entries_iff _ _ _).mpr hv
  · intro i
    simp
  · intro rest hr
    obtain ⟨v, hv⟩ := Option.ne_none_iff_exists'.mp hr
    obtain ⟨k, s, hok, hrest, -⟩ := h.members rest v hv
    exact ⟨k, hrest, hok⟩
  · intro rest hr
    obtain ⟨v, hv⟩ := Option.ne_none_iff_exists'.mp hr
    obtain ⟨i, hok, hrest⟩ := h.scores rest v hv
    exact ⟨i, hrest, hok⟩

structure Repaired (w : SSDBImpl) (n : Bytes) (r : Int64) : Prop where
  paired : ∀ key, (∃! s, w.ldb.table.get (zscoreKey n key s) ≠ none) ↔
    w.ldb.table.get (encodeZsetKey n key) ≠ none
  equal : ∀ key s v, w.ldb.table.get (zscoreKey n key s) ≠ none →
    w.ldb.table.get (encodeZsetKey n key) = some v → v = str s
  sized : (zsize n w).1 = r
  counted : ∃ members : Finset Bytes,
    (∀ key, key ∈ members ↔ w.ldb.table.get (encodeZsetKey n key) ≠ none) ∧ r.toInt = members.card
  again : (zfix n w).1 = r ∧ (zfix n w).2.ldb.table = w.ldb.table

structure Repairable (t : OrdMap Bytes Bytes) (n : Bytes) : Prop where
  single : ∀ key s u, t.get (zscoreKey n key s) ≠ none → t.get (zscoreKey n key u) ≠ none → s = u
  hidden : ∀ key, [255] < key → t.get (zscoreKey n key Int64.maxValue) ≠ none →
    t.get (encodeZsetKey n key) = some (str Int64.maxValue)

theorem visible_or (hi : i ∈ S) : i ∈ visible S ∨ i.score = Int64.maxValue ∧ [255] < i.key := by
  rw [mem_visible, and_iff_right hi, le_lastKey_iff (le_maxValue _)]
  exact em' _

theorem merged_get (M : OrdMap Bytes Int64) (S : Finset Item) (k : Bytes) :
    (∃ i ∈ visible S, i.key = k ∧ (merged M S).get k = some i.score) ∨
      (∀ i ∈ visible S, i.key ≠ k) ∧ (merged M S).get k = M.get k :=
  foldl_insert_get (visible S) M k

theorem merged_covers_iff (h : Recorded t n M S) :
    (∀ i ∈ S, (merged M S).get i.key = some i.score) ↔ Repairable t n := by
  constructor
  · intro hall
    constructor
    · intro key s u hs hu
      have h1 := hall ⟨key, s⟩ ((h.score ⟨key, s⟩).mp hs)
      have h2 := hall ⟨key, u⟩ ((h.score ⟨key, u⟩).mp hu)
      exact Option.some.inj (h1.symm.trans h2)
    · intro key hkey hs
      have hi := hall ⟨key, Int64.maxValue⟩ ((h.score ⟨key, Int64.maxValue⟩).mp hs)
      rcases merged_get M S key with ⟨j, hj, hjk, hget⟩ | ⟨-, hget⟩
      · have hscore : j.score = Int64.maxValue := Option.some.inj (hget.symm.trans hi)
        have hle := (mem_visible.mp hj).2
        rw [le_lastKey_iff (le_maxValue _)] at hle
        exact absurd ⟨hscore, hjk ▸ hkey⟩ hle
      · rw [h.member, ← hget, hi]
        rfl
  · intro hr i hi
    have hsame {j : Item} (hj : j ∈ S) (hkey : j.key = i.key) : j.score = i.score := by
      refine hr.single i.key j.score i.score ?_ ((h.score i).mpr hi)
      rw [← hkey]
      exact (h.score j).mpr hj
    rcases merged_get M S i.key with ⟨j, hj, hkey, hget⟩ | ⟨hnone, hget⟩
    · rw [hget, hsame (mem_visible.mp hj).1 hkey]
    · rcases visible_or hi with hv | ⟨hmax, hkey⟩
      · exact absurd rfl (hnone i hv)
      · have hstored := hr.hidden i.key hkey (by rw [← hmax]; exact (h.score i).mpr hi)
        obtain ⟨s, hs, hstr⟩ := Option.map_eq_some_iff.mp ((h.member i.key).symm.trans hstored)
        rw [hget, hs, hmax, str_injective hstr]

theorem Recorded.scored (h : Recorded t n M S) (hm : Matched M S) (key : Bytes) (s : Int64) :
    t.get (zscoreKey n key s) ≠ none ↔ M.get key = some s :=
  (h.score ⟨key, s⟩).trans (hm ⟨key, s⟩)

theorem Recorded.member_ne (h : Recorded t n M S) (key : Bytes) :
    t.get (encodeZsetKey n key) ≠ none ↔ M.get key ≠ none := by
  rw [h.member]
  simp

theorem Passes.matched_iff (hp : Passes n M S w w' l) (h : Recorded w.ldb.table n M S) :
    Matched (merged M S) (S ∪ l.toFinset) ↔ Repairable w.ldb.table n := by
  rw [← merged_covers_iff h]
  have hmem (i : Item) : i ∈ l ↔ (merged M S).get i.key = some i.score :=
    hp.items.mem_iff.trans (mem_ranking _ i)
  constructor
  · intro hm i hi
    exact (hm i).mp (Finset.mem_union_left _ hi)
  · intro hall i
    rw [Finset.mem_union, List.mem_toFinset, hmem]
    exact or_iff_right_of_imp (hall i)

theorem Passes.covers (hp : Passes n M S w w' l) (h : Recorded w.ldb.table n M S) {r : Int64}
    (hr : Repaired w' n r) : ∀ i ∈ S, (merged M S).get i.key = some i.score := by
  have h' := hp.recorded h
  intro i hi
  have hthere : w'.ldb.table.get (zscoreKey n i.key i.score) ≠ none :=
    (h'.score i).mpr (Finset.mem_union_left _ hi)
  cases hget : (merged M S).get i.key with
  | some s =>
    have hstored : w'.ldb.table.get (encodeZsetKey n i.key) = some (str s) := by
      rw [h'.member, hget]
      rfl
    rw [str_injective (hr.equal i.key i.score _ hthere hstored)]
  | none =>
    have hhidden : ∀ j ∈ S ∪ l.toFinset, j.key = i.key → j.score = Int64.maxValue := by
      intro j hj hkey
      rcases Finset.mem_union.mp hj with hj | hj
      · rcases visible_or hj with hv | ⟨hmax, -⟩
        · rcases merged_get M S i.key with ⟨j', -, -, hget'⟩ | ⟨hnone, -⟩
          · rw [hget] at hget'
            cases hget'
          · exact absurd hkey (hnone j hv)
        · exact hmax
      · have hj := (mem_ranking _ j).mp (hp.items.mem_iff.mp (List.mem_toFinset.mp hj))
        rw [hkey, hget] at hj
        cases hj
    have hone : ∃! s, w'.ldb.table.get (zscoreKey n i.key s) ≠ none := by
      refine ⟨i.score, hthere, fun s hs => ?_⟩
      have hmax := hhidden ⟨i.key, s⟩ ((h'.score ⟨i.key, s⟩).mp hs) rfl
      rw [hhidden i (Finset.mem_union_left _ hi) rfl]
      exact hmax
    exact absurd hget ((h'.member_ne i.key).mp ((hr.paired i.key).mp hone))

theorem matched_repaired (h : Recorded w.ldb.table n M S) (hw : w.faults = Faults.none)
    (hn : n.length < SSDB_KEY_LEN_MAX) (hseq : w.ldb.sequence < 2 ^ 60) (hm : Matched M S)
    (hcount : w.ldb.readCount (encodeZsizeKey n) = Int64.ofNat M.size) (hb : M.size < 2 ^ 63)
    (hopen : ¬Blocked (foreign w.ldb.table n)) : Repaired w n (Int64.ofNat M.size) where
  paired key := by
    simp only [h.scored hm, h.member_ne, Option.ne_none_iff_exists']
    constructor
    · rintro ⟨s, hs, -⟩
      exact ⟨s, hs⟩
    · rintro ⟨s, hs⟩
      exact ⟨s, hs, fun u hu => Option.some.inj (hu.symm.trans hs)⟩
  equal key s v hs hv := by
    rw [h.member, (h.scored hm key s).mp hs] at hv
    exact (Option.some.inj hv).symm
  sized := by rw [zsize, getCount_apply _ (by rw [hw]; rfl), hcount]
  counted := by
    refine ⟨M.keys.toFinset, fun key => ?_, ?_⟩
    · rw [List.mem_toFinset, OrdMap.mem_keys_iff, h.member_ne]
    · rw [Counter.ofNat_toInt hb, OrdMap.size_eq_card]
  again := zfix_matched h hw hn hseq hm hcount hopen

/-- A repair succeeds exactly when the record that follows those of the set can be decoded, and
then brings about what it is to exactly when no key has two score records and each score record it
does not see has its member record. -/
theorem zfix_repairs_iff {w : SSDBImpl} (hw : w.faults = Faults.none)
    (hseq : w.ldb.sequence ≤ kMaxSequenceNumber) {name : Bytes}
    (hn : name.length < SSDB_KEY_LEN_MAX) (h : WellFormed w.ldb.table name) :
    (0 ≤ (zfix name w).1 ↔ ¬Blocked (foreign w.ldb.table name)) ∧
      (0 ≤ (zfix name w).1 → (Repaired (zfix name w).2 name (zfix name w).1 ↔
        Repairable w.ldb.table name)) := by
  obtain ⟨M, S, h⟩ := exists_recorded h
  rw [kMaxSequenceNumber] at hseq
  have hrun := zfix_run h hw hn (by omega)
  generalize zfix name w = z at hrun
  obtain ⟨r, w'⟩ := z
  split_ifs at hrun with hblocked
  · obtain rfl : r = -1 := hrun
    have hneg : ¬(0 : Int64) ≤ -1 := by decide
    exact ⟨iff_of_false hneg (not_not.mpr hblocked), fun h0 => absurd h0 hneg⟩
  · obtain ⟨l, hret, hlen, hp⟩ := hrun
    obtain rfl : r = Int64.ofNat l.length := hret
    have hp : Passes name M S w w' l := hp
    have hbound : w'.ldb.sequence < 2 ^ 60 := hp.bound.trans_lt (by omega)
    refine ⟨iff_of_true (ofNat_nonneg (by omega)) hblocked, fun _ => ?_⟩
    constructor
    · intro hr
      exact (merged_covers_iff h).mp (hp.covers h hr)
    · intro hr
      have hm := (hp.matched_iff h).mpr hr
      have hcount := hp.count
      have hopen : ¬Blocked (foreign w'.ldb.table name) := by rwa [hp.foreign]
      rw [hp.length] at hcount hlen ⊢
      exact matched_repaired (hp.recorded h) hp.faults hn hbound hm hcount (by omega) hopen

theorem Recorded.wellFormed (h : Recorded t n M S) : WellFormed t n where
  members rest v hv := by
    obtain ⟨k, rfl, hok⟩ := h.memberForm rest (by simp [hv])
    obtain ⟨s, -, hs⟩ := Option.map_eq_some_iff.mp ((h.member k).symm.trans hv)
    exact ⟨k, s, hok, rfl, hs.symm⟩
  scores rest v hv := by
    obtain ⟨i, hi, hok⟩ := h.scoreForm rest (by simp [hv])
    exact ⟨i, hok, hi⟩

theorem recorded_empty (n : Bytes) : Recorded OrdMap.empty n OrdMap.empty ∅ := by
  constructor <;> simp

def scattered (n : Bytes) (l : List Item) : SSDBImpl :=
  { SSDBImpl.fresh true 1000 with
    ldb := ⟨l.foldl (fixScore n) OrdMap.empty, _, le_rfl⟩ }

theorem scattered_wellFormed (n : Bytes) {l : List Item} (hl : ∀ i ∈ l, KeyOk i.key) :
    WellFormed (scattered n l).ldb.table n := ((recorded_empty n).fixScores hl).wellFormed

theorem zfix_repairs_missing :
    let w := scattered [122] [⟨[97], 5⟩]
    (zfix [122] w).1 = 1 ∧ Repaired (zfix [122] w).2 [122] (zfix [122] w).1 := by
  intro w
  have hform : WellFormed w.ldb.table [122] := scattered_wellFormed [122] (by simp [KeyOk, SSDB_KEY_LEN_MAX])
  have hone : (zfix [122] w).1 = 1 := by decide
  refine ⟨hone, ((zfix_repairs_iff rfl (by decide) (by decide) hform).2 (by rw [hone]; decide)).mpr ?_⟩
  have hget (key : Bytes) (s : Int64) (h : w.ldb.table.get (zscoreKey [122] key s) ≠ none) :
      key = [97] ∧ s = 5 := by
    have hrecorded := (recorded_empty [122]).fixScores (l := [⟨[97], 5⟩]) (by simp [KeyOk, SSDB_KEY_LEN_MAX])
    have hmem := (hrecorded.score ⟨key, s⟩).mp h
    simpa using hmem
  constructor
  · intro key s u hs hu
    rw [(hget key s hs).2, (hget key u hu).2]
  · intro key hkey hs
    rw [(hget key _ hs).1] at hkey
    exact absurd hkey (by decide)

theorem zfix_keeps_both :
    let w := scattered [122] [⟨[97], 1⟩, ⟨[97], 2⟩]
    WellFormed w.ldb.table [122] ∧ (zfix [122] w).1 = 1 ∧
      ¬Repaired (zfix [122] w).2 [122] (zfix [122] w).1 := by
  intro w
  refine ⟨scattered_wellFormed [122] (by simp [KeyOk, SSDB_KEY_LEN_MAX]), by decide, fun hr => ?_⟩
  obtain ⟨s, -, hs⟩ := (hr.paired [97]).mpr (by decide)
  have h1 := hs 1 (by decide)
  have h2 := hs 2 (by decide)
  exact absurd (h1.trans h2.symm) (by decide)

end ScoredSet
