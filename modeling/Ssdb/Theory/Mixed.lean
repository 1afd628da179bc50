import Ssdb.Theory.HashScans
import Ssdb.Theory.QueueRefinement
import Ssdb.Theory.ScoreIndex

namespace ScoredSet
open Keys SSDBImpl

variable {w : SSDBImpl} {Z : ScoredSet} {d d' : Bytes → Option Bytes}

theorem Indexed.congr (hI : Indexed d Z)
    (hset : ∀ key, key.head? = some DataType.ZSET → d' key = d key)
    (hscore : ∀ key, key.head? = some DataType.ZSCORE → d' key = d key) : Indexed d' Z where
  member m k := (hset _ rfl).trans (hI.member m k)
  score m k s := (hscore _ rfl).trans (hI.score m k s)
  admitted := hI.admitted
  typed key hkey hd := hI.typed key hkey (hscore key hkey ▸ hd)

theorem Sizes.congr (hS : Sizes d Z)
    (h : ∀ key, key.head? = some DataType.ZSIZE → d' key = d key) : Sizes d' Z :=
  fun m => (h _ rfl).trans (hS m)

end ScoredSet

namespace Queues
open Keys SSDBImpl

theorem Stores.congr {d d' : Bytes → Option Bytes} {Q : Queues} (hQ : Stores d Q)
    (hsize : ∀ key, key.head? = some DataType.QSIZE → d' key = d key)
    (hitem : ∀ key, key.head? = some DataType.QUEUE → d' key = d key) : Stores d' Q where
  size m := (hsize _ rfl).trans (hQ.size m)
  record m s := (hitem _ rfl).trans (hQ.record m s)
  named := hQ.named

end Queues

namespace Call
open SSDBImpl

def plain : Call → Bool
  | qsetBySeq _ _ _ _ | qfix _ | zfix _ | flushdb => false
  | _ => true

structure Whole (w : SSDBImpl) : Prop where
  hashes : ∃ H, HashTable.Holds True w H
  zsets : ∃ Z, ScoredSet.Holds w Z
  queues : ∃ Q, Queues.Stores w.ldb.data Q

variable {w : SSDBImpl} {c : Call} {f : Faults}

theorem Whole.same {w' : SSDBImpl} (h : Whole w) (hldb : w'.ldb = w.ldb) : Whole w' where
  hashes := h.hashes.imp fun _ h => h.same hldb
  zsets := h.zsets.imp fun _ h => h.same hldb
  queues := by rw [hldb]; exact h.queues

theorem whole_fresh (enabled : Bool) (capacity : Int32) : Whole (SSDBImpl.fresh enabled capacity) where
  hashes := ⟨_, HashTable.fresh_holds enabled capacity⟩
  zsets := ⟨_, ScoredSet.fresh_holds enabled capacity⟩
  queues := ⟨_, Queues.stores_empty⟩

theorem plain_flushdb (hc : c.plain = true) : c ≠ flushdb := by
  rintro rfl
  exact Bool.noConfusion hc

theorem zset_heads (hc : c.plain = true) : c.onZset = true ∧ c.transactional = true ∨
    DataType.ZSET ∉ c.heads ∧ DataType.ZSCORE ∉ c.heads ∧ DataType.ZSIZE ∉ c.heads := by
  have hkv : DataType.ZSET ∉ (Container.kv []).heads ∧ DataType.ZSCORE ∉ (Container.kv []).heads ∧
      DataType.ZSIZE ∉ (Container.kv []).heads := by decide
  have hhash : DataType.ZSET ∉ (Container.hash []).heads ∧
      DataType.ZSCORE ∉ (Container.hash []).heads ∧ DataType.ZSIZE ∉ (Container.hash []).heads := by
    decide
  have hqueue : DataType.ZSET ∉ (Container.queue []).heads ∧
      DataType.ZSCORE ∉ (Container.queue []).heads ∧ DataType.ZSIZE ∉ (Container.queue []).heads := by
    decide
  cases c with
  | zset | zdel | zincr => exact .inl ⟨rfl, rfl⟩
  | set | setnx | getset | del | incr | setbit | multiSet | multiDel => exact .inr hkv
  | hset | hdel | hincr | hclear => exact .inr hhash
  | qpushFront | qpushBack | qpopFront | qpopBack | qset => exact .inr hqueue
  | qsetBySeq | qfix | zfix | flushdb => exact Bool.noConfusion hc
  | _ => exact .inr ⟨List.not_mem_nil, List.not_mem_nil, List.not_mem_nil⟩

theorem queue_heads (hc : c.plain = true) : c.onQueue = true ∧ c.transactional = true ∨
    DataType.QSIZE ∉ c.heads ∧ DataType.QUEUE ∉ c.heads := by
  have hkv : DataType.QSIZE ∉ (Container.kv []).heads ∧ DataType.QUEUE ∉ (Container.kv []).heads := by
    decide
  have hhash : DataType.QSIZE ∉ (Container.hash []).heads ∧
      DataType.QUEUE ∉ (Container.hash []).heads := by decide
  have hzset : DataType.QSIZE ∉ (Container.zset []).heads ∧
      DataType.QUEUE ∉ (Container.zset []).heads := by decide
  cases c with
  | qpushFront | qpushBack | qpopFront | qpopBack | qset => exact .inl ⟨rfl, rfl⟩
  | set | setnx | getset | del | incr | setbit | multiSet | multiDel => exact .inr hkv
  | hset | hdel | hincr | hclear => exact .inr hhash
  | zset | zdel | zincr => exact .inr hzset
  | qsetBySeq | qfix | zfix | flushdb => exact Bool.noConfusion hc
  | _ => exact .inr ⟨List.not_mem_nil, List.not_mem_nil⟩

theorem exec_zsets (hc : c.plain = true) (hf : f.get = []) (h : ∃ Z, ScoredSet.Holds w Z) :
    ∃ Z, ScoredSet.Holds (c.exec f w).2 Z := by
  obtain ⟨Z, hZ⟩ := h
  rcases zset_heads hc with ⟨hon, ht⟩ | ⟨hset, hscore, hsize⟩
  · obtain ⟨Z', hZ'⟩ := ScoredSet.exec_holds hon hZ
    rcases exec_answered ht hf w with hldb | hldb
    · exact ⟨Z, hZ.same hldb⟩
    · exact ⟨Z', hZ'.same hldb⟩
  · have hdata {b : Byte} := exec_data (b := b) (plain_flushdb hc)
    refine ⟨Z, hZ.index.congr (hdata hset (by decide) f w) (hdata hscore (by decide) f w), fun hseq => ?_⟩
    exact (hZ.sizes ((exec_sequence c f w).trans hseq)).congr (hdata hsize (by decide) f w)

theorem exec_queues (hc : c.plain = true) (hf : f.get = [])
    (h : ∃ Q, Queues.Stores w.ldb.data Q) : ∃ Q, Queues.Stores (c.exec f w).2.ldb.data Q := by
  obtain ⟨Q, hQ⟩ := h
  rcases queue_heads hc with ⟨hon, ht⟩ | ⟨hsize, hitem⟩
  · obtain ⟨-, hQ'⟩ := Queues.exec_result hon hQ
    rcases exec_answered ht hf w with hldb | hldb
    · exact ⟨Q, by rw [hldb]; exact hQ⟩
    · exact ⟨_, by rw [hldb]; exact hQ'⟩
  · have hdata {b : Byte} := exec_data (b := b) (plain_flushdb hc)
    exact ⟨Q, hQ.congr (hdata hsize (by decide) f w) (hdata hitem (by decide) f w)⟩

theorem exec_whole (hc : c.plain = true) (hf : f.get = []) (h : Whole w) : Whole (c.exec f w).2 where
  hashes := HashTable.exec_counted (plain_flushdb hc) hf h.hashes
  zsets := exec_zsets hc hf h.zsets
  queues := exec_queues hc hf h.queues

section names
open Keys
variable {n : Bytes}

theorem Whole.hsize_iff (h : Whole w) (hw : w.faults = Faults.none)
    (hseq : w.ldb.sequence ≤ kMaxSequenceNumber) :
    0 < (SSDBImpl.hsize n w).1 ↔ n ∈ (w.ldb.region [DataType.HSIZE]).keys := by
  obtain ⟨H, hH⟩ := h.hashes
  have hb := hH.bound hseq n
  exact (HashTable.hsize_pos_iff (hH.sizes trivial hseq) hw (by omega)).symm

theorem counter_pos {c : ℕ} : counter c ≠ none ↔ 0 < c := by
  rw [counter]
  split_ifs with h0
  · simp [h0]
  · simp [Nat.pos_of_ne_zero h0]

theorem Whole.zsize_iff (h : Whole w) (hw : w.faults = Faults.none)
    (hseq : w.ldb.sequence ≤ kMaxSequenceNumber) :
    0 < (SSDBImpl.zsize n w).1 ↔ n ∈ (w.ldb.region [DataType.ZSIZE]).keys := by
  obtain ⟨Z, hZ⟩ := h.zsets
  have hb := hZ.index.bound hseq n
  have hS := hZ.sizes hseq
  have hget : (w.ldb.region [DataType.ZSIZE]).get n = counter (Z n).size := by
    rw [LevelDB.get_region, ← hS n, LevelDB.data_eq (ScoredSet.zsizeKey_data n)]
    rfl
  rw [OrdMap.mem_keys_iff, hget, counter_pos, Int64.lt_iff_toInt_lt,
    ScoredSet.zsize_reply hS (congrArg Faults.get hw) (by omega), Int64.toInt_zero]
  exact Int.natCast_pos

theorem qsize_there (h : ∃ Q, Queues.Stores w.ldb.data Q) (hw : w.faults = Faults.none) (n : Bytes) :
    0 < (SSDBImpl.qsize n w).1 ↔ n ∈ (w.ldb.region [DataType.QSIZE]).keys := by
  obtain ⟨Q, hQ⟩ := h
  have hget : (w.ldb.region [DataType.QSIZE]).get n = counter (Q n).items.length := by
    rw [LevelDB.get_region, ← hQ.size n, LevelDB.data_eq (Queues.qsizeKey_data n)]
    rfl
  have hreply := (Queues.qsize_result (n := n) hQ hw).reply
  rw [OrdMap.mem_keys_iff, hget, counter_pos, hreply, Int64.lt_iff_toInt_lt,
    Counter.ofNat_toInt (Queues.length_lt (Q n)), Int64.toInt_zero]
  exact Int.natCast_pos

end names

end Call
