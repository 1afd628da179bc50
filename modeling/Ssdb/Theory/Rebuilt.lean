import Ssdb.Theory.Shaped
import Ssdb.Theory.Slices

namespace Queues
open Keys SSDBImpl Endian

variable {w : SSDBImpl} {t t' : OrdMap Bytes Bytes} {n : Bytes} {first m : ℕ}

def family (n : Bytes) : Bytes := DataType.QUEUE :: len8 n :: n

theorem qitemKey_family (n : Bytes) (s : UInt64) :
    encodeQitemKey n s = family n ++ memory (bigEndian64 s) := rfl

structure Contiguous (t : OrdMap Bytes Bytes) (n : Bytes) (first m : ℕ) : Prop where
  bounds : m ≠ 0 → 10000 ≤ first ∧ first + m ≤ 9223372036854775808
  items : ∀ s : UInt64, QITEM_MIN_SEQ ≤ s → s ≤ QITEM_MAX_SEQ →
    (t.get (encodeQitemKey n s) ≠ none ↔ first ≤ s.toNat ∧ s.toNat < first + m)

def InScan (n key : Bytes) : Prop :=
  encodeQitemKey n (QITEM_MIN_SEQ - 1) < key ∧ key ≤ encodeQitemKey n QITEM_MAX_SEQ

instance decidableInScan (n key : Bytes) : Decidable (InScan n key) := inferInstanceAs (Decidable (_ ∧ _))

def Numbered (t : OrdMap Bytes Bytes) (n : Bytes) : Prop :=
  ∀ key ∈ t.keys, InScan n key → ∃ s, key = encodeQitemKey n s

structure Clean (t : OrdMap Bytes Bytes) (n : Bytes) (first m : ℕ) : Prop extends
    Contiguous t n first m where
  numbered : Numbered t n

structure Describes (t : OrdMap Bytes Bytes) (n : Bytes) (first m : ℕ) : Prop where
  size : t.get (encodeQsizeKey n) = counter m
  front : t.get (encodeQitemKey n QFRONT_SEQ) =
    if m = 0 then none else some (memory (UInt64.ofNat first))
  back : t.get (encodeQitemKey n QBACK_SEQ) =
    if m = 0 then none else some (memory (UInt64.ofNat (first + m - 1)))

def suffixSeq (e : Bytes × Bytes) : ℕ := (bigEndian64 (ofMemory e.1)).toNat

def ranged (db : LevelDB) (n : Bytes) : List (Bytes × Bytes) :=
  (db.region (family n)).entries.filter fun e =>
    memory (bigEndian64 (QITEM_MIN_SEQ - 1)) < e.1 ∧ e.1 ≤ memory (bigEndian64 QITEM_MAX_SEQ)

theorem suffixSeq_memory (s : UInt64) (v : Bytes) :
    suffixSeq (memory (bigEndian64 s), v) = s.toNat := by
  rw [suffixSeq, ofMemory_memory, bigEndian64_bigEndian64]

theorem memory_le_iff (u v : UInt64) :
    memory (bigEndian64 u) ≤ memory (bigEndian64 v) ↔ u ≤ v := by
  rw [← not_lt, memory_bigEndian64_lt, UInt64.not_lt]

theorem inScan_suffix (n r : Bytes) : InScan n (family n ++ r) ↔
    memory (bigEndian64 (QITEM_MIN_SEQ - 1)) < r ∧ r ≤ memory (bigEndian64 QITEM_MAX_SEQ) := by
  rw [InScan, qitemKey_family, qitemKey_family, Lexicographic.append_lt_append_iff,
    Lexicographic.append_le_append_iff]

theorem inScan_family {key : Bytes} (h : InScan n key) : family n <+: key := by
  obtain ⟨r, hr⟩ := Lexicographic.prefix_of_between (p := family n) h.1.le h.2
  exact ⟨r, hr.symm⟩

theorem ranged_numbered {db : LevelDB} (h : Clean db.table n first m) {e : Bytes × Bytes}
    (he : e ∈ ranged db n) : ∃ s : UInt64, e.1 = memory (bigEndian64 s) ∧
      first ≤ s.toNat ∧ s.toNat < first + m := by
  obtain ⟨hmem, hrange⟩ := List.mem_filter.mp he
  obtain ⟨hlow, hhigh⟩ := of_decide_eq_true hrange
  have hget := LevelDB.mem_region.mp hmem
  have hkey : family n ++ e.1 ∈ db.table.keys := by
    rw [OrdMap.mem_keys_iff, hget]
    simp
  obtain ⟨s, hs⟩ := h.numbered _ hkey ((inScan_suffix n e.1).mpr ⟨hlow, hhigh⟩)
  have hsuffix : e.1 = memory (bigEndian64 s) := by
    rw [qitemKey_family] at hs
    exact List.append_cancel_left hs
  rw [hsuffix, memory_bigEndian64_lt] at hlow
  rw [hsuffix, memory_le_iff] at hhigh
  refine ⟨s, hsuffix, (h.items s ?_ hhigh).mp ?_⟩
  · rw [UInt64.lt_iff_toNat_lt] at hlow
    rw [UInt64.le_iff_toNat_le]
    change 9999 < _ at hlow
    change 10000 ≤ _
    omega
  · rw [hs] at hget
    rw [hget]
    simp

theorem mem_ranged {db : LevelDB} (h : Clean db.table n first m) (x : ℕ) :
    x ∈ (ranged db n).map suffixSeq ↔ first ≤ x ∧ x < first + m := by
  constructor
  · intro hx
    obtain ⟨⟨r, v⟩, he, rfl⟩ := List.mem_map.mp hx
    obtain ⟨s, hs, hin⟩ := ranged_numbered h he
    obtain rfl : r = memory (bigEndian64 s) := hs
    rwa [suffixSeq_memory]
  · intro hx
    have hb := h.bounds (by omega)
    have hseq : (UInt64.ofNat x).toNat = x := ofNat_toNat (by omega)
    have hlow : QITEM_MIN_SEQ ≤ UInt64.ofNat x := by
      rw [UInt64.le_iff_toNat_le, hseq]
      change 10000 ≤ x
      omega
    have hhigh : UInt64.ofNat x ≤ QITEM_MAX_SEQ := by
      rw [UInt64.le_iff_toNat_le, hseq]
      change x ≤ 9223372036854775807
      omega
    have hthere := (h.items (UInt64.ofNat x) hlow hhigh).mpr (by rwa [hseq])
    obtain ⟨v, hv⟩ := Option.ne_none_iff_exists'.mp hthere
    refine List.mem_map.mpr ⟨(memory (bigEndian64 (UInt64.ofNat x)), v), ?_, ?_⟩
    · refine List.mem_filter.mpr ⟨LevelDB.mem_region.mpr hv, decide_eq_true ⟨?_, ?_⟩⟩
      · rw [memory_bigEndian64_lt, UInt64.lt_iff_toNat_lt, hseq]
        change 9999 < x
        omega
      · rwa [memory_le_iff]
    · rw [suffixSeq_memory, hseq]

theorem ranged_seqs {db : LevelDB} (h : Clean db.table n first m) :
    (ranged db n).map suffixSeq = List.range' first m := by
  refine List.Pairwise.eq_of_mem_iff (r := (· < ·)) ?_ List.pairwise_lt_range' fun x => ?_
  · rw [List.pairwise_map]
    refine ((db.region (family n)).sorted.filter _).imp_of_mem fun {e f} he hf hlt => ?_
    obtain ⟨s, hs, -⟩ := ranged_numbered h he
    obtain ⟨u, hu, -⟩ := ranged_numbered h hf
    rw [hs, hu, memory_bigEndian64_lt, UInt64.lt_iff_toNat_lt] at hlt
    rwa [suffixSeq, suffixSeq, hs, hu, ofMemory_memory, ofMemory_memory, bigEndian64_bigEndian64,
      bigEndian64_bigEndian64]
  · rw [mem_ranged h, List.mem_range'_1]

theorem qfixEntries_pending (db : LevelDB) (n : Bytes) (h : (ranged db n).length ≤ QITEM_MAX_SEQ.toNat) :
    qfixEntries db n = (ranged db n).map (OrdMap.extend (family n)) := by
  rw [qfixEntries, rawEntries_pending, qitemKey_family, qitemKey_family,
    LevelDB.forward_pending _ _ _ _ (by simp [family])]
  exact congrArg _ (List.take_of_length_le h)

theorem qfixEntries_keys {db : LevelDB} (h : Clean db.table n first m) :
    (qfixEntries db n).map Prod.fst =
      (List.range' first m).map fun x => encodeQitemKey n (UInt64.ofNat x) := by
  have hlen : (ranged db n).length = m := by
    rw [← List.length_map suffixSeq, ranged_seqs h, List.length_range']
  have hlimit : (ranged db n).length ≤ QITEM_MAX_SEQ.toNat := by
    rw [hlen]
    change m ≤ 9223372036854775807
    rcases eq_or_ne m 0 with rfl | hm
    · exact Nat.zero_le _
    · have hb := h.bounds hm
      omega
  rw [qfixEntries_pending db n hlimit, List.map_map, ← ranged_seqs h, List.map_map]
  refine List.map_congr_left fun e he => ?_
  obtain ⟨s, hs, -⟩ := ranged_numbered h he
  obtain ⟨r, v⟩ := e
  obtain rfl : r = memory (bigEndian64 s) := hs
  change family n ++ memory (bigEndian64 s) = encodeQitemKey n (UInt64.ofNat (suffixSeq _))
  rw [suffixSeq_memory, UInt64.ofNat_toNat, qitemKey_family]

def noted (f : Found) (x : ℕ) : Found :=
  ⟨if f.seqMin = 0 then UInt64.ofNat x else f.seqMin, UInt64.ofNat x, f.count + 1⟩

theorem qfixScan_keys (hn : n.length ≤ SSDB_KEY_LEN_MAX) (es : List (Bytes × Bytes)) {xs : List ℕ}
    (hes : es.map Prod.fst = xs.map fun x => encodeQitemKey n (UInt64.ofNat x)) (f : Found) :
    qfixScan es f = some (xs.foldl noted f) := by
  induction es generalizing xs f with
  | nil =>
    obtain rfl : xs = [] := List.map_eq_nil_iff.mp hes.symm
    rfl
  | cons e es ih =>
    obtain ⟨x, xs, rfl⟩ := List.exists_cons_of_ne_nil (l := xs) fun hnil => by
      rw [hnil] at hes
      exact List.cons_ne_nil _ _ hes
    obtain ⟨hkey, hrest⟩ := List.cons_eq_cons.mp hes
    obtain ⟨ks, v⟩ := e
    obtain rfl : ks = encodeQitemKey n (UInt64.ofNat x) := hkey
    rw [qfixScan, decode_qitem_key _ hn]
    exact ih hrest _

theorem scan_range {f : Found} (hmin : f.seqMin ≠ 0) (a k : ℕ) :
    (List.range' a k).foldl noted f =
      ⟨f.seqMin, if k = 0 then f.seqMax else UInt64.ofNat (a + k - 1), f.count + UInt64.ofNat k⟩ := by
  induction k generalizing a f with
  | zero => simp
  | succ k ih =>
    have hkept : (noted f a).seqMin = f.seqMin := if_neg hmin
    rw [List.range'_succ, List.foldl_cons, ih (hkept ▸ hmin), hkept]
    have hlast : (if k = 0 then UInt64.ofNat a else UInt64.ofNat (a + 1 + k - 1)) =
        UInt64.ofNat (a + (k + 1) - 1) := by
      split_ifs with h0
      · rw [h0]
        rfl
      · congr 1
        omega
    simp only [noted]
    rw [hlast, if_neg (Nat.succ_ne_zero k), UInt64.add_assoc, Nat.add_comm k 1, UInt64.ofNat_add]
    rfl

theorem qfixScan_found {db : LevelDB} (hn : m ≠ 0 → n.length ≤ SSDB_KEY_LEN_MAX)
    (h : Clean db.table n first m) :
    qfixScan (qfixEntries db n) ⟨0, 0, 0⟩ = some (if m = 0 then ⟨0, 0, 0⟩
      else ⟨UInt64.ofNat first, UInt64.ofNat (first + m - 1), UInt64.ofNat m⟩) := by
  split_ifs with hm
  · have hkeys := qfixEntries_keys h
    rw [hm] at hkeys
    rw [List.map_eq_nil_iff.mp hkeys]
    rfl
  · rw [qfixScan_keys (hn hm) _ (qfixEntries_keys h)]
    congr 1
    obtain ⟨k, rfl⟩ := Nat.exists_eq_succ_of_ne_zero hm
    have hb := h.bounds hm
    have hmin : UInt64.ofNat first ≠ 0 := fun h0 => by
      have hfirst := ofNat_toNat (s := first) (by omega)
      rw [h0] at hfirst
      change 0 = first at hfirst
      omega
    rw [List.range'_succ, List.foldl_cons, scan_range (by simpa [noted] using hmin)]
    have hlast : (if k = 0 then UInt64.ofNat first else UInt64.ofNat (first + 1 + k - 1)) =
        UInt64.ofNat (first + (k + 1) - 1) := by
      split_ifs with h0
      · rw [h0]
        rfl
      · congr 1
        omega
    simp only [noted, if_true]
    rw [hlast, UInt64.zero_add, Nat.succ_eq_add_one, Nat.add_comm k 1, UInt64.ofNat_add]
    rfl

def rebuilt (t : OrdMap Bytes Bytes) (n : Bytes) (first m : ℕ) : OrdMap Bytes Bytes :=
  if m = 0 then
    ((t.erase (encodeQsizeKey n)).erase (encodeQitemKey n QFRONT_SEQ)).erase
      (encodeQitemKey n QBACK_SEQ)
  else
    ((t.insert (encodeQsizeKey n) (memory (UInt64.ofNat m))).insert (encodeQitemKey n QFRONT_SEQ)
      (memory (UInt64.ofNat first))).insert (encodeQitemKey n QBACK_SEQ)
        (memory (UInt64.ofNat (first + m - 1)))

theorem qfix_result (hw : w.faults = Faults.none) (hn : m ≠ 0 → n.length ≤ SSDB_KEY_LEN_MAX)
    (h : Clean w.ldb.table n first m) : (qfix n w).1 = 0 ∧
      (qfix n w).2.ldb.table = rebuilt w.ldb.table n first m ∧
      (qfix n w).2.faults = Faults.none := by
  have hok : w.faults.write.head? ≠ some true := by simp [hw, Faults.none]
  have hfaults (recs : List Rec) : (w.committed recs).faults = Faults.none := by
    rw [committed_faults, hw]
    rfl
  rw [qfix_plan, qfixPlan, qfixScan_found hn h]
  simp only [rebuilt]
  split_ifs with hm hcount hcount
  · rw [Plan.run_commit w _ _ _ hok]
    exact ⟨rfl, rfl, hfaults _⟩
  · exact absurd rfl hcount
  · have hb := h.bounds hm
    have hof := ofNat_toNat (s := m) (by omega)
    have hzero : UInt64.ofNat m = 0 := hcount
    rw [hzero] at hof
    exact absurd hof.symm hm
  · simp only [qsetOneDraft_short (hn hm)]
    rw [Plan.run_commit w _ _ _ hok]
    exact ⟨rfl, rfl, hfaults _⟩

theorem front_ne_back (n : Bytes) : encodeQitemKey n QFRONT_SEQ ≠ encodeQitemKey n QBACK_SEQ :=
  fun h => absurd (qitemKey_eq_iff.mp h).2 (by decide)

theorem rebuilt_describes (t : OrdMap Bytes Bytes) (n : Bytes) (first m : ℕ) :
    Describes (rebuilt t n first m) n first m := by
  have hsize := qsizeKey_ne_qitemKey n n
  rw [rebuilt]
  split_ifs with h0
  · refine ⟨?_, ?_, ?_⟩
    · rw [OrdMap.get_erase_ne _ (hsize _), OrdMap.get_erase_ne _ (hsize _), OrdMap.get_erase_self, h0]
      rfl
    · rw [OrdMap.get_erase_ne _ (front_ne_back n), OrdMap.get_erase_self, if_pos h0]
    · rw [OrdMap.get_erase_self, if_pos h0]
  · refine ⟨?_, ?_, ?_⟩
    · rw [OrdMap.get_insert_ne _ _ (hsize _), OrdMap.get_insert_ne _ _ (hsize _),
        OrdMap.get_insert_self, counter, if_neg h0]
      rfl
    · rw [OrdMap.get_insert_ne _ _ (front_ne_back n), OrdMap.get_insert_self, if_neg h0]
    · rw [OrdMap.get_insert_self, if_neg h0]

theorem rebuilt_others {key : Bytes} (hsize : key ≠ encodeQsizeKey n)
    (hfront : key ≠ encodeQitemKey n QFRONT_SEQ) (hback : key ≠ encodeQitemKey n QBACK_SEQ) :
    (rebuilt t n first m).get key = t.get key := by
  rw [rebuilt]
  split_ifs
  · rw [OrdMap.get_erase_ne _ hback, OrdMap.get_erase_ne _ hfront, OrdMap.get_erase_ne _ hsize]
  · rw [OrdMap.get_insert_ne _ _ hback, OrdMap.get_insert_ne _ _ hfront,
      OrdMap.get_insert_ne _ _ hsize]

theorem Describes.unique (h : Describes t n first m) (h' : Describes t' n first m)
    (hothers : ∀ key, key ≠ encodeQsizeKey n → key ≠ encodeQitemKey n QFRONT_SEQ →
      key ≠ encodeQitemKey n QBACK_SEQ → t'.get key = t.get key) : t' = t := by
  refine OrdMap.ext_get fun key => ?_
  rcases eq_or_ne key (encodeQsizeKey n) with rfl | hsize
  · rw [h.size, h'.size]
  · rcases eq_or_ne key (encodeQitemKey n QFRONT_SEQ) with rfl | hfront
    · rw [h.front, h'.front]
    · rcases eq_or_ne key (encodeQitemKey n QBACK_SEQ) with rfl | hback
      · rw [h.back, h'.back]
      · exact hothers key hsize hfront hback

theorem rebuilt_same (h : Describes t n first m) : rebuilt t n first m = t :=
  h.unique (rebuilt_describes _ _ _ _) fun _ h1 h2 h3 => rebuilt_others h1 h2 h3

theorem Clean.of_agree (h : Clean t n first m)
    (hothers : ∀ key, key ≠ encodeQsizeKey n → key ≠ encodeQitemKey n QFRONT_SEQ →
      key ≠ encodeQitemKey n QBACK_SEQ → t'.get key = t.get key) : Clean t' n first m where
  numbered key hkey hscan := by
    rcases eq_or_ne key (encodeQitemKey n QFRONT_SEQ) with rfl | hfront
    · exact ⟨_, rfl⟩
    · rcases eq_or_ne key (encodeQitemKey n QBACK_SEQ) with rfl | hback
      · exact ⟨_, rfl⟩
      · have hsize : key ≠ encodeQsizeKey n := by
          rintro rfl
          obtain ⟨r, hr⟩ := inScan_family hscan
          simp [family, encodeQsizeKey, DataType.QUEUE, DataType.QSIZE, Strings.charByte] at hr
        rw [OrdMap.mem_keys_iff, hothers key hsize hfront hback] at hkey
        exact h.numbered key ((OrdMap.mem_keys_iff _ _).mpr hkey) hscan
  bounds := h.bounds
  items s hlow hhigh := by
    have hne (u : UInt64) (hu : u < QITEM_MIN_SEQ) : encodeQitemKey n s ≠ encodeQitemKey n u :=
      fun heq => absurd (qitemKey_eq_iff.mp heq).2 fun hsu => UInt64.not_lt.mpr hlow (hsu ▸ hu)
    rw [hothers _ (qsizeKey_ne_qitemKey n n s).symm (hne _ (by decide)) (hne _ (by decide))]
    exact h.items s hlow hhigh

theorem rebuilt_clean (h : Clean t n first m) : Clean (rebuilt t n first m) n first m :=
  h.of_agree fun _ hsize hfront hback => rebuilt_others hsize hfront hback

theorem shaped_numbered (ht : Container.Shaped t) (n : Bytes) : Numbered t n := by
  intro key hkey hscan
  obtain ⟨r, rfl⟩ := inScan_family hscan
  obtain ⟨k, s, hk, heq⟩ := Container.shaped_queue ht hkey rfl
  have hlen : len8 n = len8 k := (List.cons_eq_cons.mp (List.cons_eq_cons.mp heq).2).1
  have hrest : n ++ r = k ++ memory (bigEndian64 s) :=
    (List.cons_eq_cons.mp (List.cons_eq_cons.mp heq).2).2
  have hmod : n.length % 256 = k.length % 256 := congrArg Fin.val hlen
  have htotal := congrArg List.length hrest
  rw [List.length_append, List.length_append, memory_length] at htotal
  have hk' : k.length ≤ 255 := hk
  obtain ⟨rfl, rfl⟩ := List.append_inj hrest (by omega)
  exact ⟨s, rfl⟩

theorem reachable_numbered (h : Call.Reachable w) (n : Bytes) : Numbered w.ldb.table n :=
  shaped_numbered (Container.reachable_shaped h) n

theorem qfixScan_refuses {es : List (Bytes × Bytes)} {e : Bytes × Bytes} (he : e ∈ es)
    (hbad : decodeQitemKey e.1 = none) (f : Found) : qfixScan es f = none := by
  induction es generalizing f with
  | nil => exact absurd he List.not_mem_nil
  | cons e' es ih =>
    obtain ⟨ks, v⟩ := e'
    rw [qfixScan]
    rcases List.mem_cons.mp he with rfl | hmem
    · rw [hbad]
    · cases hd : decodeQitemKey ks with
      | none => rfl
      | some p => exact ih hmem _

theorem decode_short_suffix (hn : n.length ≤ SSDB_KEY_LEN_MAX) {r : Bytes} (hr : r.length < 8) :
    decodeQitemKey (family n ++ r) = none := by
  have h64 : Decoder.readUint64 r = none := by
    simp [Decoder.readUint64]
    omega
  simp [decodeQitemKey, family, skip_cons, read8Data_append _ hn, h64]

theorem qfix_refuses (hn : n.length ≤ SSDB_KEY_LEN_MAX) (hsize : w.ldb.table.size ≤ QITEM_MAX_SEQ.toNat)
    {key : Bytes} (hkey : key ∈ w.ldb.table.keys) (hscan : InScan n key)
    (hshort : key.length < (family n).length + 8) :
    (qfix n w).1 = -1 ∧ (qfix n w).2.ldb = w.ldb := by
  obtain ⟨r, rfl⟩ := inScan_family hscan
  obtain ⟨v, hv⟩ := Option.ne_none_iff_exists'.mp ((OrdMap.mem_keys_iff _ _).mp hkey)
  have hfew : (ranged w.ldb n).length ≤ QITEM_MAX_SEQ.toNat :=
    (List.length_filter_le _ _).trans ((OrdMap.size_under _ _).trans hsize)
  have hmem : OrdMap.extend (family n) (r, v) ∈ qfixEntries w.ldb n := by
    rw [qfixEntries_pending _ _ hfew]
    exact List.mem_map_of_mem (List.mem_filter.mpr
      ⟨LevelDB.mem_region.mpr hv, decide_eq_true ((inScan_suffix n r).mp hscan)⟩)
  have hbad : decodeQitemKey (OrdMap.extend (family n) (r, v)).1 = none :=
    decode_short_suffix hn (by simpa using hshort)
  rw [qfix_plan, qfixPlan, qfixScan_refuses hmem hbad]
  exact ⟨rfl, rfl⟩

variable {Q : Queues}

theorem stores_clean (h : Stores w.ldb.data Q) (hnum : Numbered w.ldb.table n) :
    Clean w.ldb.table n (Q n).first (Q n).items.length where
  numbered := hnum
  bounds hm := by
    have hs := (Q n).seated (List.length_pos_iff.mp (Nat.pos_of_ne_zero hm))
    omega
  items s hlow _ := by
    rw [UInt64.le_iff_toNat_le] at hlow
    change 10000 ≤ s.toNat at hlow
    rw [qitem_get h]
    rcases eq_or_ne (Q n).items [] with hnil | hne
    · rw [record_nil hnil, hnil]
      simp
    · rw [record_item hne (by omega) (by omega), Deque.itemAt_isSome_iff]

theorem stores_describes (h : Stores w.ldb.data Q) (n : Bytes) :
    Describes w.ldb.table n (Q n).first (Q n).items.length where
  size := by rw [← LevelDB.data_eq (qsizeKey_data n), h.size]
  front := by
    rw [qitem_get h]
    split_ifs with h0
    · exact record_nil (List.length_eq_zero_iff.mp h0) _
    · exact record_end (mt List.length_eq_zero_iff.mpr h0) .front
  back := by
    rw [qitem_get h]
    split_ifs with h0
    · exact record_nil (List.length_eq_zero_iff.mp h0) _
    · exact record_end (mt List.length_eq_zero_iff.mpr h0) .back

/-- `qfix` puts a queue's size and ends right and touches nothing else; where they are right it
changes nothing, so a second time it changes nothing. It gives up at a record of the scanned range
that is cut short. -/
theorem qfix_rebuilds (hw : w.faults = Faults.none) (name : Bytes)
    (hname : name.length ≤ SSDB_KEY_LEN_MAX) :
    (∀ first m, Contiguous w.ldb.table name first m → Numbered w.ldb.table name →
      (qfix name w).1 = 0 ∧ Describes (qfix name w).2.ldb.table name first m ∧
      (∀ key, key ≠ encodeQsizeKey name → key ≠ encodeQitemKey name QFRONT_SEQ →
        key ≠ encodeQitemKey name QBACK_SEQ → (qfix name w).2.ldb.table.get key =
          w.ldb.table.get key) ∧
      (Describes w.ldb.table name first m → (qfix name w).2.ldb.table = w.ldb.table) ∧
      (qfix name (qfix name w).2).1 = 0 ∧
      (qfix name (qfix name w).2).2.ldb.table = (qfix name w).2.ldb.table) ∧
    ((∃ key ∈ w.ldb.table.keys, InScan name key ∧ key.length < (family name).length + 8) →
      w.ldb.table.size ≤ QITEM_MAX_SEQ.toNat →
      (qfix name w).1 = -1 ∧ (qfix name w).2.ldb = w.ldb) := by
  refine ⟨fun first m hrun hnum => ?_, fun ⟨key, hkey, hscan, hshort⟩ hsize =>
    qfix_refuses hname hsize hkey hscan hshort⟩
  have h : Clean w.ldb.table name first m := ⟨hrun, hnum⟩
  obtain ⟨hret, htable, hfaults⟩ := qfix_result hw (fun _ => hname) h
  have hdescribes : Describes (qfix name w).2.ldb.table name first m :=
    htable ▸ rebuilt_describes _ _ _ _
  obtain ⟨hret', htable', -⟩ := qfix_result hfaults (fun _ => hname) (htable ▸ rebuilt_clean h)
  refine ⟨hret, hdescribes, fun key h1 h2 h3 => ?_, fun hd => ?_, hret', ?_⟩
  · rw [htable, rebuilt_others h1 h2 h3]
  · rw [htable, rebuilt_same hd]
  · rw [htable', rebuilt_same hdescribes]

def withTable (w : SSDBImpl) (t : OrdMap Bytes Bytes) : SSDBImpl :=
  { w with ldb := ⟨t, t.size, le_rfl⟩ }

def damaged (w : SSDBImpl) (n : Bytes) : SSDBImpl :=
  withTable w (((w.ldb.table.insert (encodeQsizeKey n) (memory 9)).erase
    (encodeQitemKey n QFRONT_SEQ)).insert (encodeQitemKey n QBACK_SEQ) [1, 2, 3])

theorem damaged_others (w : SSDBImpl) {key : Bytes} (hsize : key ≠ encodeQsizeKey n)
    (hfront : key ≠ encodeQitemKey n QFRONT_SEQ) (hback : key ≠ encodeQitemKey n QBACK_SEQ) :
    (damaged w n).ldb.table.get key = w.ldb.table.get key :=
  (OrdMap.get_insert_ne _ _ hback).trans ((OrdMap.get_erase_ne _ hfront).trans
    (OrdMap.get_insert_ne _ _ hsize))

theorem qfix_rebuilds_damaged :
    let w := (Call.execAll [(.qpushBack [113] [97] 1, Faults.none),
      (.qpushBack [113] [98] 1, Faults.none), (.qpushFront [113] [99] 1, Faults.none)]
      (fresh true 1000)).2
    ¬Describes (damaged w [113]).ldb.table [113] 4611686018427387902 3 ∧
      (qfix [113] (damaged w [113])).1 = 0 ∧
      Describes (qfix [113] (damaged w [113])).2.ldb.table [113] 4611686018427387902 3 := by
  intro w
  have hplain : ∀ c ∈ [Call.qpushBack [113] [97] 1, .qpushBack [113] [98] 1,
      .qpushFront [113] [99] 1], c.onQueue = true := by decide
  have hempty : Stores (fresh true 1000).ldb.data fun _ => Deque.empty := stores_empty
  obtain ⟨-, hstores⟩ := execAll_result hplain hempty
  have hreach : Call.Reachable w := ⟨true, 1000, _, rfl⟩
  have hclean : Clean (damaged w [113]).ldb.table [113] 4611686018427387902 3 :=
    (stores_clean hstores (reachable_numbered hreach [113])).of_agree fun _ => damaged_others w
  obtain ⟨hret, hdescribes, -⟩ := (qfix_rebuilds (w := damaged w [113]) (by decide) [113]
    (by decide)).1 _ _ hclean.toContiguous hclean.numbered
  refine ⟨fun h => ?_, hret, hdescribes⟩
  have hback : (damaged w [113]).ldb.table.get (encodeQitemKey [113] QBACK_SEQ) = some [1, 2, 3] :=
    OrdMap.get_insert_self _ _ _
  rw [h.back, if_neg (by decide)] at hback
  exact absurd (congrArg List.length (Option.some.inj hback)) (by rw [memory_length]; decide)

theorem lone_contiguous {key : Bytes} (h : key.length ≠ (family n).length + 8) (v : Bytes) :
    Contiguous (OrdMap.empty.insert key v) n 0 0 where
  bounds h0 := absurd rfl h0
  items s _ _ := by
    have hne : encodeQitemKey n s ≠ key := by
      rintro rfl
      rw [qitemKey_family, List.length_append, memory_length] at h
      exact h rfl
    rw [OrdMap.get_insert_ne _ _ hne, OrdMap.get_empty]
    simp

theorem qfix_miscounts :
    let cut := withTable (fresh true 1000)
      (OrdMap.empty.insert (family [113] ++ [1, 0, 0, 0, 0, 0, 0]) [])
    let long := withTable (fresh true 1000)
      (OrdMap.empty.insert (family [113] ++ [1, 0, 0, 0, 0, 0, 0, 0, 0]) [])
    Contiguous cut.ldb.table [113] 0 0 ∧ (qfix [113] cut).1 = -1 ∧
      Contiguous long.ldb.table [113] 0 0 ∧
      ¬Describes (qfix [113] long).2.ldb.table [113] 0 0 := by
  intro cut long
  refine ⟨lone_contiguous (by decide) _, by decide, lone_contiguous (by decide) _, fun h => ?_⟩
  exact absurd h.size (by decide)

end Queues
