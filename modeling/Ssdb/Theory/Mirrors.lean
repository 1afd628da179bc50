import Ssdb.Theory.Isolation
import Ssdb.Theory.Listings

namespace Container

def Named : Container → Prop
  | kv keys => [] ∉ keys
  | queue n => n ≠ []
  | _ => True

theorem Named.apart {C : Container} (h : C.Named) : C.Apart (kv [[]]) ∧ C.Apart (queue []) := by
  cases C with
  | kv keys => exact ⟨List.disjoint_singleton.mpr h, Container.noConfusion⟩
  | hash n => exact ⟨Container.noConfusion, Container.noConfusion⟩
  | zset n => exact ⟨Container.noConfusion, Container.noConfusion⟩
  | queue n => exact ⟨Container.noConfusion, fun he => h (Container.queue.inj he)⟩

end Container

namespace Call
open Keys SSDBImpl

def Single : Call → Prop
  | set k _ _ | setnx k _ _ | del k _ => k ≠ []
  | hset _ _ _ _ | hdel _ _ _ | zset _ _ _ _ | zdel _ _ _ => True
  | qpushFront n _ _ | qpushBack n _ _ | qpopFront n _ | qpopBack n _ => n ≠ []
  | _ => False

instance (c : Call) : Decidable c.Single := by
  apply Call.casesOn (motive := fun c => Decidable c.Single) c <;> intros <;> dsimp only [Single] <;>
    infer_instance

variable {c : Call} {w : SSDBImpl}

theorem Single.container (h : c.Single) : ∃ C, c.container = some C ∧ C.Named := by
  cases c with
  | set k | setnx k | del k => exact ⟨.kv [k], rfl, fun hk => h (List.mem_singleton.mp hk).symm⟩
  | hset n | hdel n => exact ⟨.hash n, rfl, trivial⟩
  | zset n | zdel n => exact ⟨.zset n, rfl, trivial⟩
  | qpushFront n | qpushBack n | qpopFront n | qpopBack n => exact ⟨.queue n, rfl, h⟩
  | _ => exact absurd h not_false

theorem Single.plain (h : c.Single) : c.plain = true := by
  cases c with
  | qsetBySeq | qfix | zfix | flushdb => exact absurd h not_false
  | _ => rfl

structure Proper (w : SSDBImpl) : Prop where
  whole : Whole w
  key : w.ldb.table.get (encodeKvKey []) = none
  queue : w.ldb.table.get (encodeQsizeKey []) = none

theorem proper_fresh (enabled : Bool) (capacity : Int32) : Proper (SSDBImpl.fresh enabled capacity) :=
  ⟨whole_fresh enabled capacity, rfl, rfl⟩

theorem exec_proper (hc : c.Single) {f : Faults} (hf : f.get = []) (h : Proper w) :
    Proper (c.exec f w).2 := by
  obtain ⟨C, hC, hnamed⟩ := hc.container
  obtain ⟨hkv, hqueue⟩ := hnamed.apart
  refine ⟨exec_whole hc.plain hf h.whole, ?_, ?_⟩
  · exact (exec_apart hC hkv f w (by exact ⟨[], by simp, rfl⟩)).trans h.key
  · exact (exec_apart hC hqueue f w (by exact .inl rfl)).trans h.queue

end Call

namespace SSDBImpl
open Keys

structure Mirrored (w : SSDBImpl) : Prop where
  pairs : ∀ limit : UInt64, (w.ldb.region [DataType.KV]).size ≤ limit.toNat →
    (rscan [] [] limit w).1.rest = (scan [] [] limit w).1.rest.reverse
  fields : ∀ name (limit : UInt64), (w.ldb.region (encodeHashKey name [])).size ≤ limit.toNat →
    (hrscan name [] [] limit w).1.rest = (hscan name [] [] limit w).1.rest.reverse
  hashes : ∀ limit : UInt64, (w.ldb.region [DataType.HSIZE]).size ≤ limit.toNat →
    (hrlist [] [] limit w).1 = (hlist [] [] limit w).1.reverse
  zsets : ∀ limit : UInt64, (w.ldb.region [DataType.ZSIZE]).size ≤ limit.toNat →
    (zrlist [] [] limit w).1 = (zlist [] [] limit w).1.reverse
  queues : ∀ limit : UInt64, (w.ldb.region [DataType.QSIZE]).size ≤ limit.toNat →
    (qrlist [] [] limit w).1 = (qlist [] [] limit w).1.reverse
  ends : ∃ k h z q firstKey firstHash firstZset firstQueue,
    (keyRange w).1 = (0, [firstKey, k, firstHash, h, firstZset, z, firstQueue, q]) ∧
      OrdMap.Greatest (fun key => (get key w).1.1 = 1) k ∧
      OrdMap.Greatest (fun name => 0 < (hsize name w).1) h ∧
      OrdMap.Greatest (fun name => 0 < (zsize name w).1) z ∧
      OrdMap.Greatest (fun name => 0 < (qsize name w).1) q

structure BelowLast (w : SSDBImpl) : Prop where
  keys : ∀ key, (get key w).1.1 = 1 → key.head? ≠ some 255
  fields : ∀ name key, (hget name key w).1.1 = 1 → key.head? ≠ some 255
  hashes : ∀ name, 0 < (hsize name w).1 → name.head? ≠ some 255
  zsets : ∀ name, 0 < (zsize name w).1 → name.head? ≠ some 255
  queues : ∀ name, 0 < (qsize name w).1 → name.head? ≠ some 255

variable {w : SSDBImpl}

theorem largest_limit (hseq : w.ldb.sequence ≤ kMaxSequenceNumber) (q : Bytes) :
    (w.ldb.region q).size ≤ (18446744073709551615 : UInt64).toNat := by
  have h1 := OrdMap.size_under q w.ldb.table
  have h2 := w.ldb.size_le
  have hlimit : (18446744073709551615 : UInt64).toNat = 18446744073709551615 := rfl
  rw [kMaxSequenceNumber] at hseq
  rw [hlimit]
  exact (h1.trans h2).trans (hseq.trans (by norm_num))

section names
variable {type : Byte} {decode : Bytes → Option Bytes} (hdecode : ∀ n, decode (type :: n) = some n)
include hdecode

theorem names_mirror_iff (db : LevelDB) (h0 : db.table.get [type] = none) {limit : ℕ}
    (hlimit : (db.region [type]).size ≤ limit) :
    names type decode (db.revIterator [type, 255] [] limit) =
        (names type decode (db.iterator [type] [] limit)).reverse ↔
      ∀ n ∈ (db.region [type]).keys, n.head? ≠ some 255 := by
  have hnil : (db.region [type]).get [] = none := (LevelDB.get_region _ _ _).trans h0
  rw [names_upward hdecode, names_downward hdecode]
  exact OrdMap.mirror_iff (p := id) hnil hlimit fun _ => rfl

theorem rangeEnd_last (db : LevelDB) : rangeEnd type decode (db.revIterator [type, 255] [] 1) =
    (0, (((db.region [type]).downward 1).map Prod.fst).head?.getD []) := by
  rw [rangeEnd_names hdecode, names_downward hdecode]

theorem range_ends (db : LevelDB) : ∃ first,
    rangeEnd type decode (db.iterator [type] [] 1) = (0, first) ∧
      rangeEnd type decode (db.revIterator [type, 255] [] 1) =
        (0, (((db.region [type]).downward 1).map Prod.fst).head?.getD []) :=
  ⟨_, rangeEnd_names hdecode _, rangeEnd_last hdecode db⟩

end names

end SSDBImpl

namespace Call
open Keys SSDBImpl

variable {c : Call} {w : SSDBImpl}

theorem counter_empty {β : Type} {m : OrdMap Bytes β} (h : ∀ k, m.get k = none) :
    counter m.size = none := by
  have hnil : m.entries = [] := List.eq_nil_iff_forall_not_mem.mpr fun e he => by
    have hget := (OrdMap.mem_entries_iff m e.1 e.2).mp he
    rw [h] at hget
    exact absurd hget (by simp)
  rw [OrdMap.size, hnil]
  rfl

theorem Whole.unnamed_hash (h : Whole w) (hseq : w.ldb.sequence ≤ kMaxSequenceNumber) :
    w.ldb.table.get [DataType.HSIZE] = none := by
  obtain ⟨H, hH⟩ := h.hashes
  have hnone (k : Bytes) : (H []).get k = none :=
    hH.fields.get_none fun ha => ha.1 rfl
  exact (HashTable.hsize_get [] w.ldb).trans
    ((hH.sizes trivial hseq []).trans (counter_empty hnone))

theorem Whole.unnamed_zset (h : Whole w) (hseq : w.ldb.sequence ≤ kMaxSequenceNumber) :
    w.ldb.table.get [DataType.ZSIZE] = none := by
  obtain ⟨Z, hZ⟩ := h.zsets
  have hnone (k : Bytes) : (Z []).get k = none := by
    by_contra hk
    exact (hZ.index.admitted [] k hk).1 rfl
  have hdata : w.ldb.data [DataType.ZSIZE] = w.ldb.table.get [DataType.ZSIZE] :=
    LevelDB.data_eq (ScoredSet.zsizeKey_data [])
  exact hdata.symm.trans ((hZ.sizes hseq []).trans (counter_empty hnone))

theorem keys_there (hw : w.faults = Faults.none) : (fun key => (SSDBImpl.get key w).1.1 = 1) =
    (· ∈ (w.ldb.region [DataType.KV]).keys) := funext fun key => propext (get_one_iff hw key)

section mirrored
variable (h : Proper w) (hw : w.faults = Faults.none) (hseq : w.ldb.sequence ≤ kMaxSequenceNumber)
include h hw hseq

theorem hashes_there : (fun name => 0 < (SSDBImpl.hsize name w).1) =
    (· ∈ (w.ldb.region [DataType.HSIZE]).keys) :=
  funext fun _ => propext (h.whole.hsize_iff hw hseq)

theorem zsets_there : (fun name => 0 < (SSDBImpl.zsize name w).1) =
    (· ∈ (w.ldb.region [DataType.ZSIZE]).keys) :=
  funext fun _ => propext (h.whole.zsize_iff hw hseq)

omit hseq in
theorem queues_there : (fun name => 0 < (SSDBImpl.qsize name w).1) =
    (· ∈ (w.ldb.region [DataType.QSIZE]).keys) :=
  funext fun n => propext (qsize_there h.whole.queues hw n)

omit hseq in
theorem pairs_mirror_iff {limit : UInt64}
    (hlimit : (w.ldb.region [DataType.KV]).size ≤ limit.toNat) :
    (SSDBImpl.rscan [] [] limit w).1.rest = (SSDBImpl.scan [] [] limit w).1.rest.reverse ↔
      ∀ key, (SSDBImpl.get key w).1.1 = 1 → key.head? ≠ some 255 := by
  have hnil : (w.ldb.region [DataType.KV]).get [] = none := (LevelDB.get_region _ _ _).trans h.key
  have hmirror := OrdMap.mirror_iff (g := id) (p := Prod.fst) hnil hlimit fun _ => rfl
  rw [List.map_id, List.map_id] at hmirror
  rw [rscan_pairs, scan_pairs, hmirror]
  exact forall_congr' fun key => (imp_congr_left (get_one_iff hw key)).symm

omit hseq in
theorem fields_mirror_iff {name : Bytes} {limit : UInt64}
    (hlimit : (w.ldb.region (encodeHashKey name [])).size ≤ limit.toNat) :
    (SSDBImpl.hrscan name [] [] limit w).1.rest = (SSDBImpl.hscan name [] [] limit w).1.rest.reverse ↔
      ∀ key, (SSDBImpl.hget name key w).1.1 = 1 → key.head? ≠ some 255 := by
  obtain ⟨H, hH⟩ := h.whole.hashes
  have hnil : (H name).get [] = none := hH.fields.get_none fun ha => ha.2.1 rfl
  rw [HashTable.region_fields hH.fields] at hlimit
  have hmirror := OrdMap.mirror_iff (g := id) (p := Prod.fst) hnil hlimit fun _ => rfl
  rw [List.map_id, List.map_id] at hmirror
  rw [HashTable.hrscan_fields hH.fields, HashTable.hscan_fields hH.fields]
  refine hmirror.trans (forall_congr' fun key => ?_)
  rw [HashTable.hget_one_iff hH.fields hw, OrdMap.mem_keys_iff]

theorem mirrored_iff : Mirrored w ↔ BelowLast w := by
  have hkey := keys_there hw
  have hhash := hashes_there h hw hseq
  have hzset := zsets_there h hw hseq
  have hqueue := queues_there h hw
  have hnames {type : Byte} {decode : Bytes → Option Bytes} {there : Bytes → Prop}
      (hdecode : ∀ n, decode (type :: n) = some n) (h0 : w.ldb.table.get [type] = none)
      (hthere : there = (· ∈ (w.ldb.region [type]).keys)) {limit : ℕ}
      (hlimit : (w.ldb.region [type]).size ≤ limit) :
      names type decode (w.ldb.revIterator [type, 255] [] limit) =
          (names type decode (w.ldb.iterator [type] [] limit)).reverse ↔
        ∀ n, there n → n.head? ≠ some 255 := by
    rw [names_mirror_iff hdecode w.ldb h0 hlimit, hthere]
  have hlast {type : Byte} {there : Bytes → Prop}
      (hthere : there = (· ∈ (w.ldb.region [type]).keys))
      (hbelow : ∀ n, there n → n.head? ≠ some 255) : OrdMap.Greatest there
        ((((w.ldb.region [type]).downward 1).map Prod.fst).head?.getD []) := by
    rw [hthere] at hbelow ⊢
    exact OrdMap.greatest_iff.mpr hbelow
  have hashes {limit : ℕ} (hl : (w.ldb.region [DataType.HSIZE]).size ≤ limit) :=
    hnames decode_hsize_key (h.whole.unnamed_hash hseq) hhash hl
  have zsets {limit : ℕ} (hl : (w.ldb.region [DataType.ZSIZE]).size ≤ limit) :=
    hnames decode_zsize_key (h.whole.unnamed_zset hseq) hzset hl
  have queues {limit : ℕ} (hl : (w.ldb.region [DataType.QSIZE]).size ≤ limit) :=
    hnames decode_qsize_key h.queue hqueue hl
  constructor
  · intro hm
    refine ⟨?_, fun name => ?_, ?_, ?_, ?_⟩
    · exact (pairs_mirror_iff h hw (largest_limit hseq _)).mp (hm.pairs _ (largest_limit hseq _))
    · exact (fields_mirror_iff h hw (largest_limit hseq _)).mp
        (hm.fields name _ (largest_limit hseq _))
    · exact (hashes (largest_limit hseq _)).mp (hm.hashes _ (largest_limit hseq _))
    · exact (zsets (largest_limit hseq _)).mp (hm.zsets _ (largest_limit hseq _))
    · exact (queues (largest_limit hseq _)).mp (hm.queues _ (largest_limit hseq _))
  · intro hb
    refine ⟨fun limit hl => (pairs_mirror_iff h hw hl).mpr hb.keys,
      fun name limit hl => (fields_mirror_iff h hw hl).mpr (hb.fields name),
      fun limit hl => (hashes hl).mpr hb.hashes, fun limit hl => (zsets hl).mpr hb.zsets,
      fun limit hl => (queues hl).mpr hb.queues, ?_⟩
    obtain ⟨k, hk, hk'⟩ := range_ends decode_kv_key w.ldb
    obtain ⟨hn, hhn, hhn'⟩ := range_ends decode_hsize_key w.ldb
    obtain ⟨z, hz, hz'⟩ := range_ends decode_zsize_key w.ldb
    obtain ⟨q, hq, hq'⟩ := range_ends decode_qsize_key w.ldb
    refine ⟨_, _, _, _, k, hn, z, q, ?_, hlast hkey hb.keys, hlast hhash hb.hashes,
      hlast hzset hb.zsets, hlast hqueue hb.queues⟩
    simp only [SSDBImpl.keyRange, M.bind_apply, M.get_apply, M.pure_apply, encodeKvKey, encodeHsizeKey,
      encodeZsizeKey, encodeQsizeKey, hk, hk', hhn, hhn', hz, hz', hq, hq']
    rfl

end mirrored

def Below : Call → Prop
  | set k _ _ | setnx k _ _ | del k _ => k.head? ≠ some 255
  | hset n k _ _ | hdel n k _ => n.head? ≠ some 255 ∧ k.head? ≠ some 255
  | zset n _ _ _ | zdel n _ _ => n.head? ≠ some 255
  | qpushFront n _ _ | qpushBack n _ _ | qpopFront n _ | qpopBack n _ => n.head? ≠ some 255
  | _ => True

instance decidableBelow (c : Call) : Decidable c.Below := by
  apply Call.casesOn (motive := fun c => Decidable c.Below) c <;> intros <;> dsimp only [Below] <;>
    infer_instance

def High (key : Bytes) : Prop :=
  (∃ b ∈ [DataType.KV, DataType.HSIZE, DataType.ZSIZE, DataType.QSIZE], ∃ k, key = b :: 255 :: k) ∨
    ∃ n k, key = encodeHashKey n (255 :: k)

theorem high_data {key : Bytes} (h : High key) : key.head? ≠ some DataType.SYNCLOG := by
  rcases h with ⟨b, hb, k, rfl⟩ | ⟨n, k, rfl⟩
  · rintro hlog
    obtain rfl : b = DataType.SYNCLOG := Option.some.inj hlog
    exact absurd hb (by decide)
  · exact (by decide : some DataType.HASH ≠ some DataType.SYNCLOG)

theorem not_high {b : Byte} {n : Bytes} (hn : n.head? ≠ some 255) (hb : b ≠ DataType.HASH) :
    ¬High (b :: n) := by
  rintro (⟨b', -, k, he⟩ | ⟨m, k, he⟩)
  · exact hn (by rw [(List.cons.inj he).2]; rfl)
  · exact hb (List.cons.inj he).1

theorem low_of_head {b : Byte} {key : Bytes} (hkey : key.head? = some b)
    (hb : b ∉ [DataType.KV, DataType.HSIZE, DataType.ZSIZE, DataType.QSIZE, DataType.HASH]) :
    ¬High key := by
  rintro (⟨b', hb', k, rfl⟩ | ⟨m, k, rfl⟩)
  · obtain rfl : b' = b := Option.some.inj hkey
    exact hb (List.mem_append_left [DataType.HASH] hb')
  · obtain rfl : DataType.HASH = b := Option.some.inj hkey
    exact hb (by simp)

theorem field_low {n k : Bytes} (hn : n.length ≤ SSDB_KEY_LEN_MAX) (hk : k.length ≤ SSDB_KEY_LEN_MAX)
    (hlow : k.head? ≠ some 255) : ¬High (encodeHashKey n k) := by
  rintro (⟨b, hb, l, he⟩ | ⟨m, l, he⟩)
  · obtain rfl : DataType.HASH = b := (List.cons.inj he).1
    exact absurd hb (by decide)
  · exact hlow (by rw [(encodeHashKey_injective hn hk he).2]; rfl)

theorem hsetAsk_low {n k : Bytes} (hn : n.head? ≠ some 255) (hk : k.head? ≠ some 255) (v : Bytes)
    (t : Byte) : (hsetAsk n k v t).Every (Plan.Within (Rec.Spares High)) := by
  have hsize : ¬High (encodeHsizeKey n) := not_high hn (by decide)
  refine within_settle _ ?_ hsize fun _ => hsize
  refine Inquiry.every_ite (fun _ _ h => absurd h List.not_mem_nil) fun _ =>
    Inquiry.every_ite (fun _ _ h => absurd h List.not_mem_nil) fun h2 =>
    Inquiry.every_ite (fun _ _ h => absurd h List.not_mem_nil) fun h3 r => ?_
  have hrecs : ∀ r ∈ hsetRecs n k v t, r.Spares High := by
    intro r hr
    rcases List.mem_pair.mp hr with rfl | rfl
    · exact field_low (not_lt.mp h2) (not_lt.mp h3) hk
    · trivial
  exact Inquiry.every_ite (fun _ => hrecs) fun _ =>
    Inquiry.every_ite (fun _ => hrecs) fun _ _ h => absurd h List.not_mem_nil

theorem hdelAsk_low {n k : Bytes} (hn : n.head? ≠ some 255) (hk : k.head? ≠ some 255) (t : Byte) :
    (hdelAsk n k t).Every (Plan.Within (Rec.Spares High)) := by
  have hsize : ¬High (encodeHsizeKey n) := not_high hn (by decide)
  refine within_settle (fun ret => Int64.ofInt (-ret)) ?_ hsize fun _ => hsize
  refine Inquiry.every_ite (fun _ _ h => absurd h List.not_mem_nil) fun h1 =>
    Inquiry.every_ite (fun _ _ h => absurd h List.not_mem_nil) fun h2 r => ?_
  refine Inquiry.every_ite (fun _ _ h => absurd h List.not_mem_nil) fun _ r hr => ?_
  rcases List.mem_pair.mp hr with rfl | rfl
  · exact field_low (not_lt.mp h1) (not_lt.mp h2) hk
  · trivial

theorem inquiry_low (hc : c.Single) (h : c.Below) (db : LevelDB) :
    (c.inquiry db).Every (Plan.Within (Rec.Spares High)) := by
  have howned {C : Container} (hC : c.container = some C) (hlow : ∀ key, C.Owns key → ¬High key) :
      (c.inquiry db).Every (Plan.Within (Rec.Spares High)) := by
    refine (inquiry_within hC db).imp fun p hp r hr => ?_
    have hwrites := hp r hr
    cases r with
    | put key value => exact hlow key hwrites.1
    | delete key => exact hlow key hwrites
    | log type cmd key => trivial
  have hkv {k : Bytes} (hk : k.head? ≠ some 255) (key : Bytes) (ho : (Container.kv [k]).Owns key) :
      ¬High key := by
    obtain ⟨l, hl, rfl⟩ := ho
    obtain rfl := List.mem_singleton.mp hl
    exact not_high hk (by decide)
  have hzset {n : Bytes} (hn : n.head? ≠ some 255) (key : Bytes) (ho : (Container.zset n).Owns key) :
      ¬High key := by
    rcases ho with rfl | ⟨k, -, -, rfl | ⟨s, rfl⟩⟩
    · exact not_high hn (by decide)
    · exact low_of_head (b := DataType.ZSET) rfl (by decide)
    · exact low_of_head (b := DataType.ZSCORE) rfl (by decide)
  have hqueue {n : Bytes} (hn : n.head? ≠ some 255) (key : Bytes) (ho : (Container.queue n).Owns key) :
      ¬High key := by
    rcases ho with rfl | ⟨seq, rfl⟩
    · exact not_high hn (by decide)
    · exact low_of_head (b := DataType.QUEUE) rfl (by decide)
  have hmap {T : Inquiry Bytes Fetched (Plan Int)} (hT : T.Every (Plan.Within (Rec.Spares High))) :
      (T.map (Plan.map Reply.code)).Every (Plan.Within (Rec.Spares High)) :=
    Inquiry.every_map (hT.imp fun _ h => Plan.within_map h)
  cases c with
  | set k | setnx k | del k => exact howned rfl (hkv h)
  | hset n k v t => exact hmap (hsetAsk_low h.1 h.2 v t)
  | hdel n k t => exact hmap (hdelAsk_low h.1 h.2 t)
  | zset n | zdel n => exact howned rfl (hzset h)
  | qpushFront n | qpushBack n | qpopFront n | qpopBack n => exact howned rfl (hqueue h)
  | _ => exact absurd hc not_false

theorem exec_low (hc : c.Single) (h : c.Below) (f : Faults) (w : SSDBImpl) {key : Bytes}
    (hkey : High key) : (c.exec f w).2.ldb.table.get key = w.ldb.table.get key := by
  obtain ⟨C, hC, -⟩ := hc.container
  have ht := (transactional_iff c).mpr ⟨C, hC⟩
  have hstart : Untouched High w.ldb.table ({ w with faults := f } : SSDBImpl).opened :=
    ⟨fun _ _ => rfl, fun _ hop => absurd hop List.not_mem_nil⟩
  have hkept := untouched_kept (S := Rec.Spares High) (t := w.ldb.table) (fun _ => high_data)
    fun _ h => h
  have hplay := Keeps.play hkept (inquiry_low hc h w.ldb) _ hstart
  have hopened : (c.exec f w).2.ldb = _ := run_opened c { w with faults := f }
  rw [hopened, run_play ht]
  exact hplay.table key hkey

def Lower (w : SSDBImpl) : Prop := ∀ key, High key → w.ldb.table.get key = none

theorem exec_lower (hc : c.Single) (h : c.Below) (f : Faults) (hw : Lower w) :
    Lower (c.exec f w).2 := fun key hkey => (exec_low hc h f w hkey).trans (hw key hkey)

theorem Lower.belowLast (h : Lower w) (hp : Proper w) (hw : w.faults = Faults.none)
    (hseq : w.ldb.sequence ≤ kMaxSequenceNumber) : BelowLast w := by
  have hname {b : Byte} (hb : b ∈ [DataType.KV, DataType.HSIZE, DataType.ZSIZE, DataType.QSIZE])
      {n : Bytes} (hn : n ∈ (w.ldb.region [b]).keys) : n.head? ≠ some 255 := by
    intro hhead
    obtain ⟨k, rfl⟩ := List.head?_eq_some_iff.mp hhead
    rw [OrdMap.mem_keys_iff, LevelDB.get_region] at hn
    exact hn (h _ (.inl ⟨b, hb, k, rfl⟩))
  refine ⟨fun key hk => hname (by simp) ((get_one_iff hw key).mp hk), fun name key hk hhead => ?_,
    fun name hn => hname (by simp) ((hp.whole.hsize_iff hw hseq).mp hn),
    fun name hn => hname (by simp) ((hp.whole.zsize_iff hw hseq).mp hn),
    fun name hn => hname (by simp) ((qsize_there hp.whole.queues hw name).mp hn)⟩
  obtain ⟨H, hH⟩ := hp.whole.hashes
  obtain ⟨l, rfl⟩ := List.head?_eq_some_iff.mp hhead
  have hfield := (HashTable.hget_one_iff hH.fields hw name (255 :: l)).mp hk
  rw [← hH.fields.field, ← HashTable.hash_get] at hfield
  exact hfield (h _ (.inr ⟨name, l, rfl⟩))

def Quiet (e : Call × Faults) : Prop := e.1.Single ∧ e.2.get = []

instance (e : Call × Faults) : Decidable (Quiet e) := by
  unfold Quiet
  infer_instance

/-- After any run of single writes the listings mirror each other if and only if no key, field or
name that is there starts with the byte 255, and so after every run whose writes have none. -/
theorem listings_mirror_iff (enabled : Bool) (capacity : Int32) (cs : List (Call × Faults))
    (hcs : ∀ e ∈ cs, Quiet e) :
    let w := (execAll cs (SSDBImpl.fresh enabled capacity)).2
    w.ldb.sequence ≤ kMaxSequenceNumber →
      (Mirrored w ↔ BelowLast w) ∧ ((∀ e ∈ cs, e.1.Below) → Mirrored w) := by
  intro w hseq
  have hproper : Proper w :=
    execAll_invariant (fun _ _ he h => exec_proper he.1 he.2 h) hcs (proper_fresh enabled capacity)
  have hw : w.faults = Faults.none := execAll_faults cs rfl
  have hiff := mirrored_iff hproper hw hseq
  refine ⟨hiff, fun hbelow => hiff.mpr (Lower.belowLast ?_ hproper hw hseq)⟩
  exact execAll_invariant (fun e _ (he : Quiet e ∧ e.1.Below) h => exec_lower he.1.1 he.2 e.2 h)
    (fun e he => ⟨hcs e he, hbelow e he⟩) fun _ _ => rfl

theorem listings_mirror_iff_mixed :
    Mirrored (execAll [(.set [98] [50] 1, .none), (.set [97] [49] 1, .none), (.hset [104] [98] [49] 1, .none),
      (.hset [104] [97] [49] 1, .none), (.zset [122] [97] [51] 1, .none), (.qpushBack [113] [97] 1, .none),
      (.zset [121] [97] [51] 1, .none)] (SSDBImpl.fresh true 1000)).2 :=
  (listings_mirror_iff true 1000 _ (by decide) (by decide)).2 (by decide)

theorem last_key_unmirrored :
    Quiet (.set [255] [49] 1, .none) ∧
      ¬Mirrored (execAll [(.set [255] [49] 1, .none)] (SSDBImpl.fresh true 1000)).2 := by
  refine ⟨by decide, fun h => ?_⟩
  have hscan := h.pairs 2 (by decide)
  exact absurd hscan (by decide)

end Call
