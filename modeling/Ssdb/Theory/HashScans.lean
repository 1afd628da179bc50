import Ssdb.Theory.Frames
import Ssdb.Theory.HashRecords
import Ssdb.Theory.HashSize

namespace HashTable
open Keys SSDBImpl

variable {w : SSDBImpl} {H : HashTable} {n : Bytes}

theorem Fields.congr {d d' : Bytes → Option Bytes} (hF : Fields d H)
    (h : ∀ key, key.head? = some DataType.HASH → d' key = d key) : Fields d' H where
  field m k := (h _ rfl).trans (hF.field m k)
  admitted := hF.admitted
  typed key hkey hd := hF.typed key hkey (h key hkey ▸ hd)

theorem Sizes.congr {d d' : Bytes → Option Bytes} (hS : Sizes d H)
    (h : ∀ key, key.head? = some DataType.HSIZE → d' key = d key) : Sizes d' H :=
  fun m => (h _ rfl).trans (hS m)

theorem other_heads {c : Call} (hc : c.onHash = false) :
    DataType.HASH ∉ c.heads ∧ DataType.HSIZE ∉ c.heads := by
  have hkv : DataType.HASH ∉ (Container.kv []).heads ∧ DataType.HSIZE ∉ (Container.kv []).heads := by
    decide
  have hzset : DataType.HASH ∉ (Container.zset []).heads ∧
      DataType.HSIZE ∉ (Container.zset []).heads := by decide
  have hqueue : DataType.HASH ∉ (Container.queue []).heads ∧
      DataType.HSIZE ∉ (Container.queue []).heads := by decide
  cases c with
  | hset | hdel | hincr | hclear => exact Bool.noConfusion hc
  | set | setnx | getset | del | incr | setbit | multiSet | multiDel => exact hkv
  | zset | zdel | zincr | zfix => exact hzset
  | qpushFront | qpushBack | qpopFront | qpopBack | qset | qsetBySeq | qfix => exact hqueue
  | _ => exact ⟨List.not_mem_nil, List.not_mem_nil⟩

theorem exec_counted {c : Call} (hc : c ≠ .flushdb) {f : Faults} (hf : f.get = [])
    (h : ∃ H, Holds True w H) : ∃ H, Holds True (c.exec f w).2 H := by
  obtain ⟨H, h⟩ := h
  cases hon : c.onHash with
  | false =>
    obtain ⟨hhash, hhsize⟩ := other_heads hon
    refine ⟨H, h.fields.congr (Call.exec_data hc hhash (by decide) f w), fun _ hseq => ?_⟩
    exact (h.sizes trivial ((Call.exec_sequence c f w).trans hseq)).congr
      (Call.exec_data hc hhsize (by decide) f w)
  | true =>
    rcases eq_or_ne c.transactional true with ht | ht
    · obtain ⟨H', hH'⟩ := exec_holds hon h
      rcases Call.exec_answered ht hf w with hldb | hldb
      · exact ⟨H, h.same hldb⟩
      · exact ⟨H', hH'.same hldb⟩
    · cases c with
      | hclear m =>
        have h0 : Holds True { w with faults := f } H := h.same rfl
        rcases hclear_cleared (n := m) h0 hf with ⟨-, H', hH', -⟩ | ⟨-, -, -, H', hH', -⟩
        · exact ⟨H', hH'.same rfl⟩
        · exact ⟨H', hH'.same rfl⟩
      | hset | hdel | hincr => exact absurd rfl ht
      | _ => exact Bool.noConfusion hon

def Ordinary (e : Call × Faults) : Prop := e.1 ≠ .flushdb ∧ e.2.get = []

instance (e : Call × Faults) : Decidable (Ordinary e) := by
  unfold Ordinary
  infer_instance

theorem execAll_counted {cs : List (Call × Faults)} (hcs : ∀ e ∈ cs, Ordinary e) (enabled : Bool)
    (capacity : Int32) : ∃ H, Holds True (Call.execAll cs (SSDBImpl.fresh enabled capacity)).2 H :=
  Call.execAll_invariant (P := fun w => ∃ H, Holds True w H)
    (fun _ _ he h => exec_counted he.1 he.2 h) hcs ⟨_, fresh_holds enabled capacity⟩

theorem hlist_names (nameS nameE : Bytes) (limit : UInt64) :
    (hlist nameS nameE limit w).1 =
      (((w.ldb.region [DataType.HSIZE]).entries.filter (LevelDB.between nameS nameE)).take
        limit.toNat).map Prod.fst :=
  (w.ldb.yields_names decode_hsize_key nameE).forward nameS limit.toNat

theorem hsize_pos_iff (hS : Sizes w.ldb.data H) (hw : w.faults = Faults.none)
    (hb : (H n).size < 2 ^ 63) :
    n ∈ (w.ldb.region [DataType.HSIZE]).keys ↔ 0 < (hsize n w).1 := by
  have hget : (w.ldb.region [DataType.HSIZE]).get n = counter (H n).size := by
    rw [LevelDB.get_region, ← hS n, ← hsize_get]
    rfl
  have hpos : 0 < (hsize n w).1 ↔ 0 < (H n).size := by
    rw [Int64.lt_iff_toInt_lt, hsize_reply hS hw hb, Int64.toInt_zero]
    exact Int.natCast_pos
  rw [OrdMap.mem_keys_iff, hget, hpos, counter]
  split_ifs with h0
  · simp [h0]
  · simp [Nat.pos_of_ne_zero h0]

/-- After any run: scans of a hash yield the fields `hget` tells of that are within their ends, in
order, and a listing yields the names that `hsize` tells of. -/
theorem hash_scans_exact (enabled : Bool) (capacity : Int32) (cs : List (Call × Faults)) :
    let w := (Call.execAll cs (SSDBImpl.fresh enabled capacity)).2
    (∀ name, ∃ fields : List (Bytes × Bytes), fields.Pairwise (fun p q => p.1 < q.1) ∧
      (∀ key val, (key, val) ∈ fields ↔ (hget name key w).1 = (1, some val)) ∧
      ∀ start stop limit,
        (hscan name start stop limit w).1.rest =
          (fields.filter (fun e => start < e.1 ∧ (stop = [] ∨ e.1 ≤ stop))).take limit.toNat ∧
        (start ≠ [] → (hrscan name start stop limit w).1.rest =
          (fields.filter (fun e => e.1 < start ∧ (stop = [] ∨ stop ≤ e.1))).reverse.take
            limit.toNat)) ∧
      ((∀ e ∈ cs, Ordinary e) → w.ldb.sequence ≤ kMaxSequenceNumber →
        ∃ names : List Bytes, names.Pairwise (· < ·) ∧
          (∀ name, name ∈ names ↔ 0 < (hsize name w).1) ∧
          ∀ nameS nameE limit, (hlist nameS nameE limit w).1 =
            (names.filter (fun name => nameS < name ∧ (nameE = [] ∨ name ≤ nameE))).take
              limit.toNat) := by
  intro w
  have hreach : Call.Reachable w := ⟨enabled, capacity, cs, rfl⟩
  have hw : w.faults = Faults.none := Call.execAll_faults cs rfl
  refine ⟨fun name => ?_, fun hcs hseq => ?_⟩
  · obtain ⟨H, hF⟩ := Call.reachable_wellFormed hreach
    refine ⟨(H name).entries, (H name).sorted, fun key val => ?_, fun start stop limit => ⟨?_, ?_⟩⟩
    · rw [OrdMap.mem_entries_iff, hget_reply hF hw]
      cases (H name).get key <;> simp
    · exact hscan_fields hF name start stop limit
    · intro hstart
      rw [hrscan_fields hF, if_neg hstart]
      rfl
  · obtain ⟨H, hH⟩ : ∃ H, Holds True w H := execAll_counted hcs enabled capacity
    refine ⟨(w.ldb.region [DataType.HSIZE]).keys, OrdMap.keys_sorted _, fun name => ?_,
      fun nameS nameE limit => ?_⟩
    · have hb := hH.bound hseq name
      exact hsize_pos_iff (hH.sizes trivial hseq) hw (by omega)
    · rw [hlist_names, List.map_take, OrdMap.keys, List.filter_map]
      rfl

theorem hash_scans_exact_three :
    let w := (Call.execAll [(.hset [104] [98] [49] 1, .none), (.hset [104] [97] [50] 1, .none),
      (.hset [105] [97] [51] 1, .none)] (SSDBImpl.fresh true 1000)).2
    ∃ names : List Bytes, names.Pairwise (· < ·) ∧
      (∀ name, name ∈ names ↔ 0 < (hsize name w).1) ∧
      ∀ nameS nameE limit, (hlist nameS nameE limit w).1 =
        (names.filter (fun name => nameS < name ∧ (nameE = [] ∨ name ≤ nameE))).take
          limit.toNat :=
  (hash_scans_exact true 1000 [(.hset [104] [98] [49] 1, .none), (.hset [104] [97] [50] 1, .none),
    (.hset [105] [97] [51] 1, .none)]).2 (by decide) (by decide)

end HashTable
