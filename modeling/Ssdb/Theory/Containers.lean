import Ssdb.Plan.Requests
import Ssdb.Theory.HashTable

inductive Container where
  | kv (keys : List Bytes)
  | hash (name : Bytes)
  | zset (name : Bytes)
  | queue (name : Bytes)
deriving DecidableEq, Repr

namespace Container
open Keys
open HashTable (Admitted)

def Owns : Container → Bytes → Prop
  | kv keys, key => ∃ k ∈ keys, key = encodeKvKey k
  | hash n, key => key = encodeHsizeKey n ∨ ∃ k, n.length ≤ SSDB_KEY_LEN_MAX ∧
      k.length ≤ SSDB_KEY_LEN_MAX ∧ key = encodeHashKey n k
  | zset n, key => key = encodeZsizeKey n ∨ ∃ k, n.length ≤ SSDB_KEY_LEN_MAX ∧
      k.length ≤ SSDB_KEY_LEN_MAX ∧ (key = encodeZsetKey n k ∨ ∃ s, key = zscoreKey n k s)
  | queue n, key => key = encodeQsizeKey n ∨ ∃ seq, key = encodeQitemKey n seq

def heads : Container → List Byte
  | kv _ => [DataType.KV]
  | hash _ => [DataType.HSIZE, DataType.HASH]
  | zset _ => [DataType.ZSIZE, DataType.ZSET, DataType.ZSCORE]
  | queue _ => [DataType.QSIZE, DataType.QUEUE]

structure Fits (key value : Bytes) : Prop where
  hash : key.head? = some DataType.HASH → ∃ n k, Admitted n k ∧ key = encodeHashKey n k
  zset : key.head? = some DataType.ZSET → ∃ n k, Admitted n k ∧ key = encodeZsetKey n k
  zscore : key.head? = some DataType.ZSCORE →
    value = [] ∧ ∃ n k s, Admitted n k ∧ key = zscoreKey n k s
  queue : key.head? = some DataType.QUEUE →
    ∃ n s, n.length ≤ SSDB_KEY_LEN_MAX ∧ key = encodeQitemKey n s

def Writes (c : Container) : Rec → Prop
  | .put key value => c.Owns key ∧ Fits key value
  | .delete key => c.Owns key
  | .log _ _ _ => True

variable {c : Container} {key value : Bytes}

theorem owns_head (h : c.Owns key) : ∃ b ∈ c.heads, key.head? = some b := by
  cases c with
  | kv keys =>
    obtain ⟨k, -, rfl⟩ := h
    exact ⟨DataType.KV, by simp [heads], rfl⟩
  | hash n =>
    rcases h with rfl | ⟨k, -, -, rfl⟩
    · exact ⟨DataType.HSIZE, by simp [heads], rfl⟩
    · exact ⟨DataType.HASH, by simp [heads], rfl⟩
  | zset n =>
    rcases h with rfl | ⟨k, -, -, rfl | ⟨s, rfl⟩⟩
    · exact ⟨DataType.ZSIZE, by simp [heads], rfl⟩
    · exact ⟨DataType.ZSET, by simp [heads], rfl⟩
    · exact ⟨DataType.ZSCORE, by simp [heads], rfl⟩
  | queue n =>
    rcases h with rfl | ⟨seq, rfl⟩
    · exact ⟨DataType.QSIZE, by simp [heads], rfl⟩
    · exact ⟨DataType.QUEUE, by simp [heads], rfl⟩

theorem heads_data (c : Container) : DataType.SYNCLOG ∉ c.heads := by
  cases c with
  | kv keys => exact (by decide : DataType.SYNCLOG ∉ [DataType.KV])
  | hash n => exact (by decide : DataType.SYNCLOG ∉ [DataType.HSIZE, DataType.HASH])
  | zset n =>
    exact (by decide : DataType.SYNCLOG ∉ [DataType.ZSIZE, DataType.ZSET, DataType.ZSCORE])
  | queue n => exact (by decide : DataType.SYNCLOG ∉ [DataType.QSIZE, DataType.QUEUE])

theorem fits_of_head {b : Byte} (h : key.head? = some b)
    (hb : b ∉ [DataType.HASH, DataType.ZSET, DataType.ZSCORE, DataType.QUEUE]) : Fits key value := by
  have hne {b' : Byte} (hb' : b' ∈ [DataType.HASH, DataType.ZSET, DataType.ZSCORE, DataType.QUEUE]) :
      key.head? ≠ some b' := by
    intro h'
    obtain rfl : b = b' := Option.some.inj (h.symm.trans h')
    exact hb hb'
  exact ⟨fun h' => absurd h' (hne (by simp)), fun h' => absurd h' (hne (by simp)),
    fun h' => absurd h' (hne (by simp)), fun h' => absurd h' (hne (by simp))⟩

theorem fits_hash {n k : Bytes} (h : Admitted n k) : Fits (encodeHashKey n k) value where
  hash _ := ⟨n, k, h, rfl⟩
  zset h' := absurd h' (by decide : some DataType.HASH ≠ some DataType.ZSET)
  zscore h' := absurd h' (by decide : some DataType.HASH ≠ some DataType.ZSCORE)
  queue h' := absurd h' (by decide : some DataType.HASH ≠ some DataType.QUEUE)

theorem fits_zset {n k : Bytes} (h : Admitted n k) : Fits (encodeZsetKey n k) value where
  hash h' := absurd h' (by decide : some DataType.ZSET ≠ some DataType.HASH)
  zset _ := ⟨n, k, h, rfl⟩
  zscore h' := absurd h' (by decide : some DataType.ZSET ≠ some DataType.ZSCORE)
  queue h' := absurd h' (by decide : some DataType.ZSET ≠ some DataType.QUEUE)

theorem fits_zscore {n k : Bytes} (h : Admitted n k) (s : Int64) : Fits (zscoreKey n k s) [] where
  hash h' := absurd h' (by decide : some DataType.ZSCORE ≠ some DataType.HASH)
  zset h' := absurd h' (by decide : some DataType.ZSCORE ≠ some DataType.ZSET)
  zscore _ := ⟨rfl, n, k, s, h, rfl⟩
  queue h' := absurd h' (by decide : some DataType.ZSCORE ≠ some DataType.QUEUE)

theorem fits_qitem {n : Bytes} (h : n.length ≤ SSDB_KEY_LEN_MAX) (s : UInt64) :
    Fits (encodeQitemKey n s) value where
  hash h' := absurd h' (by decide : some DataType.QUEUE ≠ some DataType.HASH)
  zset h' := absurd h' (by decide : some DataType.QUEUE ≠ some DataType.ZSET)
  zscore h' := absurd h' (by decide : some DataType.QUEUE ≠ some DataType.ZSCORE)
  queue _ := ⟨n, s, h, rfl⟩

end Container

namespace Plan

variable {α β : Type} {S : Rec → Prop}

def batched : Plan α → List Rec
  | reject _ => []
  | abort recs _ => recs
  | commit recs _ _ => recs

def Within (S : Rec → Prop) (p : Plan α) : Prop := ∀ r ∈ p.batched, S r

theorem within_map {f : α → β} {p : Plan α} (h : p.Within S) : (p.map f).Within S := by
  cases p <;> exact h

theorem within_nil (r : α) : (abort [] r).Within S := fun _ h => absurd h List.not_mem_nil

end Plan

namespace SSDBImpl
open Keys Container
open HashTable (Admitted)

variable {S : Rec → Prop}

theorem within_settled {draft : Int × List Rec} {count : List Rec} (hd : ∀ r ∈ draft.2, S r)
    (hc : ∀ r ∈ count, S r) : (settlePlan draft count).Within S := by
  simp only [settlePlan]
  split_ifs
  · exact hd
  · exact hd
  · intro r hr
    exact (List.mem_append.mp hr).elim (hd r) (hc r)

theorem within_counted {sizeKey : Bytes} (hdel : S (.delete sizeKey))
    (hput : ∀ value, S (.put sizeKey value)) (size incr : Int64) :
    ∀ r ∈ countedRecs size sizeKey incr, S r := by
  intro r hr
  simp only [countedRecs] at hr
  split_ifs at hr
  · exact List.mem_singleton.mp hr ▸ hdel
  · exact List.mem_singleton.mp hr ▸ hput _

theorem within_settle {T : Inquiry Bytes Fetched (Int × List Rec)} {sizeKey : Bytes}
    (incr : Int → Int64) (hT : T.Every fun draft => ∀ r ∈ draft.2, S r) (hdel : S (.delete sizeKey))
    (hput : ∀ value, S (.put sizeKey value)) :
    (T.bind fun draft => settleAsk draft sizeKey (incr draft.1)).Every (Plan.Within S) := by
  refine Inquiry.every_bind hT fun draft hd => ?_
  exact Inquiry.every_ite (fun _ r => within_settled hd (within_counted hdel hput _ _))
    fun _ => within_settled hd fun _ h => absurd h List.not_mem_nil

section kv
variable {keys : List Bytes} {key : Bytes} (t : Byte)

theorem kvRecs_writes (h : key ∈ keys) (val : Bytes) :
    ∀ r ∈ kvRecs key val t, (Container.kv keys).Writes r := by
  intro r hr
  rcases List.mem_pair.mp hr with rfl | rfl
  · exact ⟨⟨key, h, rfl⟩, fits_of_head rfl (by decide)⟩
  · trivial

theorem kvDelRecs_writes (h : key ∈ keys) : ∀ r ∈ kvDelRecs key t, (Container.kv keys).Writes r := by
  intro r hr
  rcases List.mem_pair.mp hr with rfl | rfl
  · exact ⟨key, h, rfl⟩
  · trivial

theorem multiSet_within (count : Int) (kvs : List (Bytes × Bytes)) {recs : List Rec}
    (hkeys : kvs.map Prod.fst ⊆ keys) (hrecs : ∀ r ∈ recs, (Container.kv keys).Writes r) :
    (multiSetPlanFrom count t recs kvs).Within (Container.kv keys).Writes := by
  induction kvs generalizing recs with
  | nil => exact hrecs
  | cons e kvs ih =>
    obtain ⟨key, val⟩ := e
    obtain ⟨hkey, hrest⟩ := List.cons_subset.mp hkeys
    rw [multiSetPlanFrom]
    split_ifs
    · exact hrecs
    · refine ih hrest fun r hr => ?_
      exact (List.mem_append.mp hr).elim (hrecs r) (kvRecs_writes t hkey val r)

theorem multiDel_within (dels : List Bytes) :
    (multiDelPlan dels t).Within (Container.kv dels).Writes := by
  intro r hr
  obtain ⟨key, hkey, hr⟩ := List.mem_flatMap.mp hr
  exact kvDelRecs_writes t hkey r hr

end kv

section collections
variable (n k v : Bytes) (t : Byte)

theorem hsizeKey_writes : (Container.hash n).Writes (.delete (encodeHsizeKey n)) ∧
    ∀ value, (Container.hash n).Writes (.put (encodeHsizeKey n) value) :=
  ⟨.inl rfl, fun _ => ⟨.inl rfl, fits_of_head rfl (by decide)⟩⟩

theorem zsizeKey_writes : (Container.zset n).Writes (.delete (encodeZsizeKey n)) ∧
    ∀ value, (Container.zset n).Writes (.put (encodeZsizeKey n) value) :=
  ⟨.inl rfl, fun _ => ⟨.inl rfl, fits_of_head rfl (by decide)⟩⟩

variable {n k}

theorem hsetRecs_writes (h : Admitted n k) : ∀ r ∈ hsetRecs n k v t, (Container.hash n).Writes r := by
  intro r hr
  rcases List.mem_pair.mp hr with rfl | rfl
  · exact ⟨.inr ⟨k, h.2.2.1, h.2.2.2, rfl⟩, fits_hash h⟩
  · trivial

theorem hdelRecs_writes (hn : n.length ≤ SSDB_KEY_LEN_MAX) (hk : k.length ≤ SSDB_KEY_LEN_MAX) :
    ∀ r ∈ hdelRecs n k t, (Container.hash n).Writes r := by
  intro r hr
  rcases List.mem_pair.mp hr with rfl | rfl
  · exact .inr ⟨k, hn, hk, rfl⟩
  · trivial

theorem zsetRecs_writes (h : Admitted n k) : ∀ r ∈ zsetRecs n k v t, (Container.zset n).Writes r := by
  intro r hr
  rcases List.mem_cons.mp hr with rfl | hr
  · exact ⟨.inr ⟨k, h.2.2.1, h.2.2.2, .inr ⟨_, rfl⟩⟩, fits_zscore h _⟩
  · rcases List.mem_pair.mp hr with rfl | rfl
    · exact ⟨.inr ⟨k, h.2.2.1, h.2.2.2, .inl rfl⟩, fits_zset h⟩
    · trivial

theorem zdelRecs_writes (hn : n.length ≤ SSDB_KEY_LEN_MAX) (hk : k.length ≤ SSDB_KEY_LEN_MAX) :
    ∀ r ∈ zdelRecs n k v t, (Container.zset n).Writes r := by
  intro r hr
  rcases List.mem_cons.mp hr with rfl | hr
  · exact .inr ⟨k, hn, hk, .inr ⟨_, rfl⟩⟩
  · rcases List.mem_pair.mp hr with rfl | rfl
    · exact .inr ⟨k, hn, hk, .inl rfl⟩
    · trivial

variable (n k)

theorem hsetAsk_within : (hsetAsk n k v t).Every (Plan.Within (Container.hash n).Writes) := by
  refine within_settle _ ?_ (hsizeKey_writes n).1 (hsizeKey_writes n).2
  refine Inquiry.every_ite (fun _ _ h => absurd h List.not_mem_nil) fun h1 =>
    Inquiry.every_ite (fun _ _ h => absurd h List.not_mem_nil) fun h2 =>
    Inquiry.every_ite (fun _ _ h => absurd h List.not_mem_nil) fun h3 r => ?_
  have ha : Admitted n k := ⟨(not_or.mp h1).1, (not_or.mp h1).2, not_lt.mp h2, not_lt.mp h3⟩
  exact Inquiry.every_ite (fun _ => hsetRecs_writes v t ha) fun _ =>
    Inquiry.every_ite (fun _ => hsetRecs_writes v t ha) fun _ _ h => absurd h List.not_mem_nil

theorem hdelAsk_within : (hdelAsk n k t).Every (Plan.Within (Container.hash n).Writes) := by
  refine within_settle (fun ret => Int64.ofInt (-ret)) ?_ (hsizeKey_writes n).1 (hsizeKey_writes n).2
  refine Inquiry.every_ite (fun _ _ h => absurd h List.not_mem_nil) fun h1 =>
    Inquiry.every_ite (fun _ _ h => absurd h List.not_mem_nil) fun h2 r => ?_
  exact Inquiry.every_ite (fun _ _ h => absurd h List.not_mem_nil) fun _ =>
    hdelRecs_writes t (not_lt.mp h1) (not_lt.mp h2)

theorem hincrAsk_within (amount : Int64) :
    (hincrAsk n k amount t).Every (Plan.Within (Container.hash n).Writes) := by
  have hset (v : Bytes) (newVal : Int64) :
      ((hsetAsk n k v t).map (Plan.map (incrReply newVal))).Every
        (Plan.Within (Container.hash n).Writes) :=
    Inquiry.every_map ((hsetAsk_within n k v t).imp fun _ h => Plan.within_map h)
  intro r
  cases r with
  | failed => exact Plan.within_nil _
  | notFound => exact hset _ _
  | found old => exact Inquiry.every_ite (fun _ => hset _ _) fun _ => Plan.within_nil _

theorem zsetAsk_within : (zsetAsk n k v t).Every (Plan.Within (Container.zset n).Writes) := by
  refine within_settle _ ?_ (zsizeKey_writes n).1 (zsizeKey_writes n).2
  refine Inquiry.every_ite (fun _ _ h => absurd h List.not_mem_nil) fun h1 =>
    Inquiry.every_ite (fun _ _ h => absurd h List.not_mem_nil) fun h2 =>
    Inquiry.every_ite (fun _ _ h => absurd h List.not_mem_nil) fun h3 r => ?_
  have ha : Admitted n k := ⟨(not_or.mp h1).1, (not_or.mp h1).2, not_lt.mp h2, not_lt.mp h3⟩
  refine Inquiry.every_ite (fun _ => Inquiry.every_ite (fun _ => ?_) fun _ => zsetRecs_writes _ t ha)
    fun _ _ h => absurd h List.not_mem_nil
  intro r' hr
  rcases List.mem_cons.mp hr with rfl | hr
  · exact .inr ⟨k, ha.2.2.1, ha.2.2.2, .inr ⟨_, rfl⟩⟩
  · exact zsetRecs_writes _ t ha r' hr

theorem zdelAsk_within : (zdelAsk n k t).Every (Plan.Within (Container.zset n).Writes) := by
  refine within_settle (fun ret => Int64.ofInt (-ret)) ?_ (zsizeKey_writes n).1 (zsizeKey_writes n).2
  refine Inquiry.every_ite (fun _ _ h => absurd h List.not_mem_nil) fun h1 =>
    Inquiry.every_ite (fun _ _ h => absurd h List.not_mem_nil) fun h2 r => ?_
  exact Inquiry.every_ite (fun _ _ h => absurd h List.not_mem_nil) fun _ =>
    zdelRecs_writes _ t (not_lt.mp h1) (not_lt.mp h2)

theorem zincrAsk_within (amount : Int64) :
    (zincrAsk n k amount t).Every (Plan.Within (Container.zset n).Writes) := by
  have hset (v : Bytes) (newVal : Int64) :
      ((zsetAsk n k v t).map (Plan.map (incrReply newVal))).Every
        (Plan.Within (Container.zset n).Writes) :=
    Inquiry.every_map ((zsetAsk_within n k v t).imp fun _ h => Plan.within_map h)
  intro r
  cases r with
  | failed => exact Plan.within_nil _
  | notFound => exact hset _ _
  | found old => exact hset _ _

end collections

section queues
variable (n item : Bytes) (seq : UInt64) (t : Byte)

theorem qitem_writes (h : n.length ≤ SSDB_KEY_LEN_MAX) (value : Bytes) :
    (Container.queue n).Writes (.put (encodeQitemKey n seq) value) :=
  ⟨.inr ⟨seq, rfl⟩, fits_qitem h seq⟩

theorem qsetOneDraft_writes : ∀ r ∈ (qsetOneDraft n seq item).2, (Container.queue n).Writes r := by
  intro r hr
  simp only [qsetOneDraft] at hr
  split_ifs at hr with hlen
  · exact absurd hr List.not_mem_nil
  · exact List.mem_singleton.mp hr ▸ qitem_writes n seq (not_lt.mp hlen) item

theorem countedItems_writes (size incr : Int64) :
    ∀ r ∈ (countedItems size n incr).2, (Container.queue n).Writes r := by
  intro r hr
  simp only [countedItems] at hr
  split_ifs at hr
  · exact absurd hr List.not_mem_nil
  · rcases List.mem_cons.mp hr with rfl | hr
    · exact .inl rfl
    · rcases List.mem_pair.mp hr with rfl | rfl
      · exact .inr ⟨_, rfl⟩
      · exact .inr ⟨_, rfl⟩
  · exact List.mem_singleton.mp hr ▸ ⟨.inl rfl, fits_of_head rfl (by decide)⟩

theorem pushSeqDraft_writes (endSeq : UInt64) (ret : Int) :
    ∀ r ∈ (pushSeqDraft n endSeq ret seq).2, (Container.queue n).Writes r := by
  simp only [pushSeqDraft]
  split_ifs
  · exact qsetOneDraft_writes n _ _
  · intro r hr
    exact (List.mem_append.mp hr).elim (qsetOneDraft_writes n _ _ r) (qsetOneDraft_writes n _ _ r)
  · exact qsetOneDraft_writes n _ _
  · exact qsetOneDraft_writes n _ _

theorem append_writes {c : Container} {a b : List Rec} (ha : ∀ r ∈ a, c.Writes r)
    (hb : ∀ r ∈ b, c.Writes r) : ∀ r ∈ a ++ b, c.Writes r :=
  fun r hr => (List.mem_append.mp hr).elim (ha r) (hb r)

theorem log_writes (c : Container) (type cmd : Byte) (key : Bytes) :
    ∀ r ∈ [Rec.log type cmd key], c.Writes r := by
  intro r hr
  rw [List.mem_singleton.mp hr]
  trivial

theorem qpushAsk_within (endSeq : UInt64) :
    (qpushAsk n item endSeq t).Every (Plan.Within (Container.queue n).Writes) := by
  intro r
  have hdraft := pushSeqDraft_writes n r.seq.2 endSeq r.seq.1
  have hput := append_writes hdraft
    (qsetOneDraft_writes n item (pushSeqDraft n endSeq r.seq.1 r.seq.2).1.2)
  refine Inquiry.every_ite (fun _ => Plan.within_nil _) fun _ => Inquiry.every_ite (fun _ => hdraft) fun _ =>
    Inquiry.every_ite (fun _ => hdraft) fun _ => Inquiry.every_ite (fun _ => hput) fun _ s => ?_
  have hlog := log_writes (.queue n) t (if endSeq = QFRONT_SEQ then BinlogCommand.QPUSH_FRONT
    else BinlogCommand.QPUSH_BACK) (encodeQitemKey n (pushSeqDraft n endSeq r.seq.1 r.seq.2).1.2)
  have hall := append_writes (append_writes hput hlog) (countedItems_writes n s.qsize 1)
  exact Inquiry.every_ite (fun _ => hall) fun _ => hall

theorem qpopAsk_within (endSeq : UInt64) :
    (qpopAsk n endSeq t).Every (Plan.Within (Container.queue n).Writes) := by
  refine fun r => Inquiry.every_ite (fun _ => Plan.within_nil _) fun _ =>
    Inquiry.every_ite (fun _ => Plan.within_nil _) fun _ i => ?_
  refine Inquiry.every_ite (fun _ => Plan.within_nil _) fun _ =>
    Inquiry.every_ite (fun _ => Plan.within_nil _) fun _ s => ?_
  have hdel : ∀ r' ∈ [Rec.delete (encodeQitemKey n r.seq.2)], (Container.queue n).Writes r' := by
    intro r' hr'
    exact List.mem_singleton.mp hr' ▸ .inr ⟨_, rfl⟩
  have hlog := log_writes (.queue n) t (if endSeq = QFRONT_SEQ then BinlogCommand.QPOP_FRONT
    else BinlogCommand.QPOP_BACK) n
  have hcount := append_writes (append_writes hdel hlog) (countedItems_writes n s.qsize (-1))
  have hmoved := append_writes hcount (qsetOneDraft_writes n
    (Endian.memory (if endSeq = QFRONT_SEQ then r.seq.2 + 1 else r.seq.2 - 1)) endSeq)
  exact Inquiry.every_ite (fun _ => hcount) fun _ => Inquiry.every_ite
    (fun _ => Inquiry.every_ite (fun _ => hmoved) fun _ => hmoved) fun _ => hcount

theorem setItem_within : (setItemPlan n seq item t).Within (Container.queue n).Writes := by
  simp only [setItemPlan]
  split_ifs
  · exact qsetOneDraft_writes n item seq
  · exact append_writes (qsetOneDraft_writes n item seq) (log_writes _ _ _ _)

theorem qsetAsk_within (index : Int64) :
    (qsetAsk n index item t).Every (Plan.Within (Container.queue n).Writes) :=
  fun _ => Inquiry.every_ite (fun _ => Plan.within_nil _) fun _ =>
    Inquiry.every_ite (fun _ => Plan.within_nil _) fun _ _ =>
      Inquiry.every_ite (fun _ => Plan.within_nil _) fun _ =>
        Inquiry.every_ite (fun _ => Plan.within_nil _) fun _ => setItem_within n item _ t

theorem qsetBySeqAsk_within :
    (qsetBySeqAsk n seq item t).Every (Plan.Within (Container.queue n).Writes) :=
  fun _ => Inquiry.every_ite (fun _ => Plan.within_nil _) fun _ _ =>
    Inquiry.every_ite (fun _ => Plan.within_nil _) fun _ =>
      Inquiry.every_ite (fun _ => Plan.within_nil _) fun _ => setItem_within n item seq t

theorem qfix_within (db : LevelDB) : (qfixPlan db n).Within (Container.queue n).Writes := by
  simp only [qfixPlan]
  cases qfixScan (qfixEntries db n) ⟨0, 0, 0⟩ with
  | none => exact Plan.within_nil _
  | some f =>
    dsimp only
    split_ifs
    · intro r hr
      rcases List.mem_cons.mp hr with rfl | hr
      · exact .inl rfl
      · rcases List.mem_pair.mp hr with rfl | rfl
        · exact .inr ⟨_, rfl⟩
        · exact .inr ⟨_, rfl⟩
    · refine append_writes (append_writes ?_ (qsetOneDraft_writes n _ _)) (qsetOneDraft_writes n _ _)
      intro r hr
      exact List.mem_singleton.mp hr ▸ ⟨.inl rfl, fits_of_head rfl (by decide)⟩

end queues

end SSDBImpl

namespace Call
open SSDBImpl

def container : Call → Option Container
  | set key _ _ | setnx key _ _ | getset key _ _ | del key _ => some (.kv [key])
  | incr key _ _ | setbit key _ _ _ => some (.kv [key])
  | multiSet kvs _ => some (.kv (kvs.map Prod.fst))
  | multiDel keys _ => some (.kv keys)
  | hset name _ _ _ | hdel name _ _ | hincr name _ _ _ => some (.hash name)
  | zset name _ _ _ | zdel name _ _ | zincr name _ _ _ => some (.zset name)
  | qpushFront name _ _ | qpushBack name _ _ | qpopFront name _ | qpopBack name _ => some (.queue name)
  | qset name _ _ _ | qsetBySeq name _ _ _ | qfix name => some (.queue name)
  | _ => none

theorem inquiry_within {c : Call} {C : Container} (hC : c.container = some C) (db : LevelDB) :
    (c.inquiry db).Every (Plan.Within C.Writes) := by
  have hmap {α : Type} {T : Inquiry Bytes Fetched (Plan α)} {f : α → Reply}
      (hT : T.Every (Plan.Within C.Writes)) : (T.map (Plan.map f)).Every (Plan.Within C.Writes) :=
    Inquiry.every_map (hT.imp fun _ h => Plan.within_map h)
  have hkv (key : Bytes) (t : Byte) (val : Bytes) :
      ∀ r ∈ kvRecs key val t, (Container.kv [key]).Writes r := kvRecs_writes t (by simp) val
  cases c with
  | set key val t =>
    obtain rfl := Option.some.inj hC
    refine Plan.within_map ?_
    simp only [setPlan]
    split_ifs
    · exact fun _ h => absurd h List.not_mem_nil
    · exact fun _ h => absurd h List.not_mem_nil
    · exact hkv key t val
  | setnx key val t =>
    obtain rfl := Option.some.inj hC
    exact hmap (Inquiry.every_ite (fun _ _ h => absurd h List.not_mem_nil) fun _ =>
      Inquiry.every_ite (fun _ _ h => absurd h List.not_mem_nil) fun _ _ =>
        Inquiry.every_ite (fun _ => Plan.within_nil _) fun _ => hkv key t val)
  | getset key val t =>
    obtain rfl := Option.some.inj hC
    exact hmap (Inquiry.every_ite (fun _ _ h => absurd h List.not_mem_nil) fun _ =>
      Inquiry.every_ite (fun _ _ h => absurd h List.not_mem_nil) fun _ _ => hkv key t val)
  | del key t =>
    obtain rfl := Option.some.inj hC
    refine Plan.within_map ?_
    simp only [delPlan]
    split_ifs
    · exact fun _ h => absurd h List.not_mem_nil
    · exact kvDelRecs_writes t (by simp)
  | incr key amount t =>
    obtain rfl := Option.some.inj hC
    refine hmap (Inquiry.every_ite (fun _ _ h => absurd h List.not_mem_nil) fun _ r => ?_)
    cases r with
    | failed => exact Plan.within_nil _
    | notFound => exact hkv key t _
    | found old =>
      simp only [Inquiry.Every]
      split_ifs
      · exact hkv key t _
      · exact Plan.within_nil _
  | setbit key bitoffset on t =>
    obtain rfl := Option.some.inj hC
    exact hmap (Inquiry.every_ite (fun _ _ h => absurd h List.not_mem_nil) fun _ =>
      Inquiry.every_ite (fun _ _ h => absurd h List.not_mem_nil) fun _ _ =>
        Inquiry.every_ite (fun _ => Plan.within_nil _) fun _ => hkv key t _)
  | multiSet kvs t =>
    obtain rfl := Option.some.inj hC
    exact Plan.within_map (multiSet_within t _ kvs (List.Subset.refl _) fun _ h =>
      absurd h List.not_mem_nil)
  | multiDel keys t =>
    obtain rfl := Option.some.inj hC
    exact Plan.within_map (multiDel_within t keys)
  | hset n k v t =>
    obtain rfl := Option.some.inj hC
    exact hmap (hsetAsk_within n k v t)
  | hdel n k t =>
    obtain rfl := Option.some.inj hC
    exact hmap (hdelAsk_within n k t)
  | hincr n k amount t =>
    obtain rfl := Option.some.inj hC
    exact hmap (hincrAsk_within n k t amount)
  | zset n k v t =>
    obtain rfl := Option.some.inj hC
    exact hmap (zsetAsk_within n k v t)
  | zdel n k t =>
    obtain rfl := Option.some.inj hC
    exact hmap (zdelAsk_within n k t)
  | zincr n k amount t =>
    obtain rfl := Option.some.inj hC
    exact hmap (zincrAsk_within n k t amount)
  | qpushFront n item t | qpushBack n item t =>
    obtain rfl := Option.some.inj hC
    exact hmap (qpushAsk_within n item t _)
  | qpopFront n t | qpopBack n t =>
    obtain rfl := Option.some.inj hC
    exact hmap (qpopAsk_within n t _)
  | qset n index item t =>
    obtain rfl := Option.some.inj hC
    exact hmap (qsetAsk_within n item t index)
  | qsetBySeq n seq item t =>
    obtain rfl := Option.some.inj hC
    exact hmap (qsetBySeqAsk_within n item seq t)
  | qfix n =>
    obtain rfl := Option.some.inj hC
    exact Plan.within_map (qfix_within n db)
  | _ => exact absurd hC (by simp [container])

theorem transactional_iff (c : Call) : c.transactional = true ↔ ∃ C, c.container = some C := by
  cases c <;> simp [transactional, container]

end Call
