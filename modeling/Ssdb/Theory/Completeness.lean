import Ssdb.Store.LogSeqs
import Ssdb.Theory.Answered
import Ssdb.Theory.Mixed

namespace SSDBImpl
open Keys BinlogCommand

inductive Primary : Bytes → Byte → Byte → Prop where
  | kv (key : Bytes) : Primary (encodeKvKey key) KSET KDEL
  | hash (name key : Bytes) : Primary (encodeHashKey name key) HSET HDEL
  | zset (name key : Bytes) : Primary (encodeZsetKey name key) BinlogCommand.ZSET ZDEL

theorem Primary.head {K : Bytes} {put del : Byte} (h : Primary K put del) :
    K.head? = some DataType.KV ∧ put = KSET ∧ del = KDEL ∨
      K.head? = some DataType.HASH ∧ put = HSET ∧ del = HDEL ∨
        K.head? = some DataType.ZSET ∧ put = BinlogCommand.ZSET ∧ del = ZDEL := by
  cases h with
  | kv key => exact .inl ⟨rfl, rfl, rfl⟩
  | hash name key => exact .inr (.inl ⟨rfl, rfl, rfl⟩)
  | zset name key => exact .inr (.inr ⟨rfl, rfl, rfl⟩)

theorem Primary.unique {K : Bytes} {put del put' del' : Byte} (h : Primary K put del)
    (h' : Primary K put' del') : put = put' ∧ del = del' := by
  have hne1 : some DataType.KV ≠ some DataType.HASH := by decide
  have hne2 : some DataType.KV ≠ some DataType.ZSET := by decide
  have hne3 : some DataType.HASH ≠ some DataType.ZSET := by decide
  rcases h.head with ⟨hk, rfl, rfl⟩ | ⟨hk, rfl, rfl⟩ | ⟨hk, rfl, rfl⟩ <;>
    rcases h'.head with ⟨hk', rfl, rfl⟩ | ⟨hk', rfl, rfl⟩ | ⟨hk', rfl, rfl⟩ <;>
    rw [hk] at hk' <;> first
      | exact ⟨rfl, rfl⟩
      | exact absurd hk' hne1
      | exact absurd hk' hne2
      | exact absurd hk' hne3
      | exact absurd hk'.symm hne1
      | exact absurd hk'.symm hne2
      | exact absurd hk'.symm hne3

theorem Primary.put_ne_del {K : Bytes} {put del : Byte} (h : Primary K put del) : put ≠ del := by
  cases h <;> decide

def Aside : Rec → Prop
  | .put key _ | .delete key =>
    ∃ b ∈ [DataType.HSIZE, DataType.ZSIZE, DataType.ZSCORE], key.head? = some b
  | .log _ _ _ => False

inductive Paired : List Rec → Prop where
  | nil : Paired []
  | put {K : Bytes} {put del : Byte} (hK : Primary K put del) (value : Bytes) (t : Byte)
    {recs : List Rec} (hrest : Paired recs) : Paired (.put K value :: .log t put K :: recs)
  | delete {K : Bytes} {put del : Byte} (hK : Primary K put del) (t : Byte) {recs : List Rec}
    (hrest : Paired recs) : Paired (.delete K :: .log t del K :: recs)
  | aside {r : Rec} (hr : Aside r) {recs : List Rec} (hrest : Paired recs) : Paired (r :: recs)

theorem Paired.append {a b : List Rec} (ha : Paired a) (hb : Paired b) : Paired (a ++ b) := by
  induction ha with
  | nil => exact hb
  | put hK value t hrest ih => exact .put hK value t ih
  | delete hK t hrest ih => exact .delete hK t ih
  | aside hr hrest ih => exact .aside hr ih

theorem primary_offLog {K : Bytes} {put del : Byte} (h : Primary K put del) :
    K.head? ≠ some DataType.SYNCLOG := by
  cases h with
  | kv key => exact (by decide : some DataType.KV ≠ some DataType.SYNCLOG)
  | hash name key => exact (by decide : some DataType.HASH ≠ some DataType.SYNCLOG)
  | zset name key => exact (by decide : some DataType.ZSET ≠ some DataType.SYNCLOG)

theorem aside_offLog {r : Rec} (h : Aside r) : r.OffLog := by
  have hlog : DataType.SYNCLOG ∉ [DataType.HSIZE, DataType.ZSIZE, DataType.ZSCORE] := by decide
  cases r with
  | put key value | delete key =>
    obtain ⟨b, hb, hkey⟩ := h
    intro hhead
    obtain rfl : b = DataType.SYNCLOG := Option.some.inj (hkey.symm.trans hhead)
    exact hlog hb
  | log type cmd key => trivial

theorem Primary.ne_aside {key K : Bytes} {put del : Byte} (hK : Primary K put del)
    (h : ∃ b ∈ [DataType.HSIZE, DataType.ZSIZE, DataType.ZSCORE], key.head? = some b) : K ≠ key := by
  rintro rfl
  obtain ⟨b, hb, hkey⟩ := h
  rcases hK.head with ⟨hk, -⟩ | ⟨hk, -⟩ | ⟨hk, -⟩
  · obtain rfl : DataType.KV = b := Option.some.inj (hk.symm.trans hkey)
    exact absurd hb (by decide)
  · obtain rfl : DataType.HASH = b := Option.some.inj (hk.symm.trans hkey)
    exact absurd hb (by decide)
  · obtain rfl : DataType.ZSET = b := Option.some.inj (hk.symm.trans hkey)
    exact absurd hb (by decide)

theorem Paired.offLog {recs : List Rec} (h : Paired recs) : ∀ r ∈ recs, r.OffLog := by
  induction h with
  | nil => exact fun r hr => absurd hr List.not_mem_nil
  | put hK value t hrest ih =>
    intro r hr
    rcases List.mem_cons.mp hr with rfl | hr
    · exact primary_offLog hK
    rcases List.mem_cons.mp hr with rfl | hr
    · trivial
    · exact ih r hr
  | delete hK t hrest ih =>
    intro r hr
    rcases List.mem_cons.mp hr with rfl | hr
    · exact primary_offLog hK
    rcases List.mem_cons.mp hr with rfl | hr
    · trivial
    · exact ih r hr
  | @aside r' hr' recs hrest ih =>
    intro r hr
    rcases List.mem_cons.mp hr with rfl | hr
    · exact aside_offLog hr'
    · exact ih r hr

def Means (put del : Byte) (c : Byte × Byte) (v : Option Bytes) : Prop :=
  c.2 = put ∧ v ≠ none ∨ c.2 = del ∧ v = none

theorem Paired.tells {recs : List Rec} (h : Paired recs) {K : Bytes} {put del : Byte}
    (hK : Primary K put del) (d : Bytes → Option Bytes) :
    Journal.Tells (Means put del) (Rec.entries recs) K (d K) (recs.foldl Rec.effect d K) := by
  induction h generalizing d with
  | nil => exact Journal.tells_nil _
  | @put K' put' del' hK' value t recs hrest ih =>
    have hfirst : Journal.Tells (Means put del) [(K', t, put')] K (d K)
        (Function.update d K' (some value) K) := by
      refine Journal.tells_single ?_ fun hne => Function.update_of_ne (Ne.symm hne) _ _
      rintro rfl
      obtain ⟨rfl, rfl⟩ := hK.unique hK'
      exact .inl ⟨rfl, by simp⟩
    exact Journal.tells_append hfirst (ih _)
  | @delete K' put' del' hK' t recs hrest ih =>
    have hfirst : Journal.Tells (Means put del) [(K', t, del')] K (d K)
        (Function.update d K' none K) := by
      refine Journal.tells_single ?_ fun hne => Function.update_of_ne (Ne.symm hne) _ _
      rintro rfl
      obtain ⟨rfl, rfl⟩ := hK.unique hK'
      exact .inr ⟨rfl, by simp⟩
    exact Journal.tells_append hfirst (ih _)
  | @aside r hr recs hrest ih =>
    cases r with
    | put key value =>
      have hne := hK.ne_aside hr
      have hrest := ih (Function.update d key (some value))
      rw [Function.update_of_ne hne] at hrest
      exact hrest
    | delete key =>
      have hne := hK.ne_aside hr
      have hrest := ih (Function.update d key none)
      rw [Function.update_of_ne hne] at hrest
      exact hrest
    | log type cmd key => exact hr.elim

section calls
variable (n k v : Bytes) (t : Byte)

def Logged {α : Type} (p : Plan α) : Prop := Paired p.recs

variable {α β : Type}

theorem logged_map {f : α → β} {T : Inquiry Bytes Fetched (Plan α)} (h : T.Every Logged) :
    (T.map (Plan.map f)).Every Logged := by
  refine Inquiry.every_map (h.imp fun p hp => ?_)
  cases p <;> exact hp

theorem kvRecs_paired : Paired (kvRecs k v t) := .put (.kv k) v t .nil

theorem kvDelRecs_paired : Paired (kvDelRecs k t) := .delete (.kv k) t .nil

theorem multiSet_paired (count : Int) (kvs : List (Bytes × Bytes)) {recs : List Rec}
    (hrecs : Paired recs) : Logged (multiSetPlanFrom count t recs kvs) := by
  induction kvs generalizing recs with
  | nil => exact hrecs
  | cons e kvs ih =>
    rw [multiSetPlanFrom]
    split_ifs
    · exact .nil
    · exact ih (hrecs.append (kvRecs_paired e.1 e.2 t))

theorem multiDel_paired (keys : List Bytes) : Logged (multiDelPlan keys t) := by
  change Paired (keys.flatMap fun key => kvDelRecs key t)
  induction keys with
  | nil => exact .nil
  | cons key keys ih => exact (kvDelRecs_paired key t).append ih

theorem countedRecs_paired {sizeKey : Bytes} (size incr : Int64)
    (h : ∃ b ∈ [DataType.HSIZE, DataType.ZSIZE, DataType.ZSCORE], sizeKey.head? = some b) :
    Paired (countedRecs size sizeKey incr) := by
  rw [countedRecs]
  split_ifs
  · exact .aside (by exact h) .nil
  · exact .aside (by exact h) .nil

theorem settled_paired {T : Inquiry Bytes Fetched (Int × List Rec)} {sizeKey : Bytes}
    (incr : Int → Int64) (hT : T.Every fun draft => Paired draft.2)
    (h : ∃ b ∈ [DataType.HSIZE, DataType.ZSIZE, DataType.ZSCORE], sizeKey.head? = some b) :
    (T.bind fun draft => settleAsk draft sizeKey (incr draft.1)).Every Logged := by
  have hsettle {draft : Int × List Rec} {count : List Rec} (hd : Paired draft.2) (hc : Paired count) :
      Logged (settlePlan draft count) := by
    rw [Logged, settlePlan]
    split_ifs
    · exact .nil
    · exact hd
    · exact hd.append hc
  refine Inquiry.every_bind hT fun draft hd => ?_
  exact Inquiry.every_ite (fun _ r => hsettle hd (countedRecs_paired _ _ h)) fun _ => hsettle hd .nil

theorem hsize_aside : ∃ b ∈ [DataType.HSIZE, DataType.ZSIZE, DataType.ZSCORE],
    (encodeHsizeKey n).head? = some b := ⟨DataType.HSIZE, by simp, rfl⟩

theorem zsize_aside : ∃ b ∈ [DataType.HSIZE, DataType.ZSIZE, DataType.ZSCORE],
    (encodeZsizeKey n).head? = some b := ⟨DataType.ZSIZE, by simp, rfl⟩

theorem zscore_aside (s : Bytes) : ∃ b ∈ [DataType.HSIZE, DataType.ZSIZE, DataType.ZSCORE],
    (encodeZscoreKey n k s).head? = some b := ⟨DataType.ZSCORE, by simp, rfl⟩

theorem hsetAsk_logged : (hsetAsk n k v t).Every Logged := by
  have hrecs : Paired (hsetRecs n k v t) := .put (.hash n k) v t .nil
  refine settled_paired _ ?_ (hsize_aside n)
  refine Inquiry.every_ite (fun _ => .nil) fun _ => Inquiry.every_ite (fun _ => .nil) fun _ =>
    Inquiry.every_ite (fun _ => .nil) fun _ r => ?_
  exact Inquiry.every_ite (fun _ => hrecs) fun _ => Inquiry.every_ite (fun _ => hrecs) fun _ => .nil

theorem hdelAsk_logged : (hdelAsk n k t).Every Logged := by
  refine settled_paired (fun ret => Int64.ofInt (-ret)) ?_ (hsize_aside n)
  refine Inquiry.every_ite (fun _ => .nil) fun _ => Inquiry.every_ite (fun _ => .nil) fun _ r => ?_
  exact Inquiry.every_ite (fun _ => .nil) fun _ => .delete (.hash n k) t .nil

theorem zsetAsk_logged : (zsetAsk n k v t).Every Logged := by
  have hrecs (s : Bytes) : Paired (zsetRecs n k s t) :=
    .aside (by exact zscore_aside n k s) (.put (.zset n k) s t .nil)
  refine settled_paired _ ?_ (zsize_aside n)
  refine Inquiry.every_ite (fun _ => .nil) fun _ => Inquiry.every_ite (fun _ => .nil) fun _ =>
    Inquiry.every_ite (fun _ => .nil) fun _ r => ?_
  exact Inquiry.every_ite (fun _ => Inquiry.every_ite
    (fun _ => .aside (by exact zscore_aside n k _) (hrecs _)) fun _ => hrecs _) fun _ => .nil

theorem zdelAsk_logged : (zdelAsk n k t).Every Logged := by
  refine settled_paired (fun ret => Int64.ofInt (-ret)) ?_ (zsize_aside n)
  refine Inquiry.every_ite (fun _ => .nil) fun _ => Inquiry.every_ite (fun _ => .nil) fun _ r => ?_
  exact Inquiry.every_ite (fun _ => .nil) fun _ =>
    .aside (by exact zscore_aside n k _) (.delete (.zset n k) t .nil)

end calls

end SSDBImpl

namespace Call
open SSDBImpl

def replicated : Call → Bool
  | set _ _ _ | setnx _ _ _ | getset _ _ _ | del _ _ | incr _ _ _ | setbit _ _ _ _ => true
  | multiSet _ _ | multiDel _ _ => true
  | hset _ _ _ _ | hdel _ _ _ | hincr _ _ _ _ => true
  | zset _ _ _ _ | zdel _ _ _ | zincr _ _ _ _ => true
  | _ => false

theorem replicated_transactional {c : Call} (hc : c.replicated = true) : c.transactional = true := by
  cases c <;> first | rfl | exact Bool.noConfusion hc

theorem inquiry_logged {c : Call} (hc : c.replicated = true) (db : LevelDB) :
    (c.inquiry db).Every Logged := by
  have hdone {α : Type} {f : α → Reply} {p : Plan α} (h : Logged p) : Logged (p.map f) := by
    cases p <;> exact h
  cases c with
  | set k v t =>
    refine hdone ?_
    rw [Logged, setPlan]
    split_ifs
    · exact .nil
    · exact .nil
    · exact kvRecs_paired k v t
  | setnx k v t =>
    exact logged_map (Inquiry.every_ite (fun _ => .nil) fun _ => Inquiry.every_ite (fun _ => .nil)
      fun _ _ => Inquiry.every_ite (fun _ => .nil) fun _ => kvRecs_paired k v t)
  | getset k v t =>
    exact logged_map (Inquiry.every_ite (fun _ => .nil) fun _ => Inquiry.every_ite (fun _ => .nil)
      fun _ _ => kvRecs_paired k v t)
  | del k t =>
    refine hdone ?_
    rw [Logged, delPlan]
    split_ifs
    · exact .nil
    · exact kvDelRecs_paired k t
  | incr k amount t =>
    refine logged_map (Inquiry.every_ite (fun _ => .nil) fun _ r => ?_)
    cases r with
    | failed => exact .nil
    | notFound => exact kvRecs_paired k _ t
    | found old =>
      simp only [Inquiry.Every]
      split_ifs
      · exact kvRecs_paired k _ t
      · exact .nil
  | setbit k bitoffset on t =>
    exact logged_map (Inquiry.every_ite (fun _ => .nil) fun _ => Inquiry.every_ite (fun _ => .nil)
      fun _ _ => Inquiry.every_ite (fun _ => .nil) fun _ => kvRecs_paired k _ t)
  | multiSet kvs t => exact hdone (multiSet_paired t _ kvs .nil)
  | multiDel keys t => exact hdone (multiDel_paired t keys)
  | hset n k v t => exact logged_map (hsetAsk_logged n k v t)
  | hdel n k t => exact logged_map (hdelAsk_logged n k t)
  | hincr n k amount t =>
    refine logged_map fun r => ?_
    cases r with
    | failed => exact .nil
    | notFound => exact logged_map (hsetAsk_logged n k _ t)
    | found old => exact Inquiry.every_ite (fun _ => logged_map (hsetAsk_logged n k _ t)) fun _ => .nil
  | zset n k v t => exact logged_map (zsetAsk_logged n k v t)
  | zdel n k t => exact logged_map (zdelAsk_logged n k t)
  | zincr n k amount t =>
    refine logged_map fun r => ?_
    cases r with
    | failed => exact .nil
    | notFound | found => exact logged_map (zsetAsk_logged n k _ t)
  | _ => exact Bool.noConfusion hc

end Call

namespace SSDBImpl

structure Numbers (w : SSDBImpl) : Prop where
  last : w.binlogs.lastSeq.toNat ≤ w.ldb.sequence
  tran : w.binlogs.tranSeq.toNat ≤ w.ldb.sequence + w.binlogs.batch.length

theorem numbers_kept : Kept (fun _ => True) Numbers where
  faults _ h := ⟨h.last, h.tran⟩
  start h := ⟨h.last, h.last⟩
  draft {w r} _ h := by
    refine ⟨?_, ?_⟩
    · have hsame := (BinlogQueue.recordAll_fixed [r] w.binlogs).2.1
      exact (congrArg UInt64.toNat hsame).le.trans h.last
    · have htran := h.tran
      cases r with
      | put key value =>
        simp only [record, BinlogQueue.recordAll, List.foldl, BinlogQueue.record, BinlogQueue.Put,
          List.length_append, List.length_singleton]
        omega
      | delete key =>
        simp only [record, BinlogQueue.recordAll, List.foldl, BinlogQueue.record, BinlogQueue.Delete,
          List.length_append, List.length_singleton]
        omega
      | log type cmd key =>
        simp only [record, BinlogQueue.recordAll, List.foldl, BinlogQueue.record, BinlogQueue.addLog]
        split_ifs
        · exact htran
        · have hnext : (w.binlogs.tranSeq + 1).toNat ≤ w.binlogs.tranSeq.toNat + 1 := by
            rw [UInt64.toNat_add]
            exact Nat.mod_le _ _
          simp only [List.length_append, List.length_singleton]
          omega
  commit h := ⟨h.tran, Nat.zero_le _⟩
  stop h := ⟨h.last, Nat.zero_le _⟩
  write h' h := ⟨h.last.trans (Nat.le_add_right _ _), by
    have htran := h.tran
    simp only [LevelDB.write]
    omega⟩

theorem enabled_kept (b : Bool) : Kept (fun _ => True) (fun w => w.binlogs.enabled = b) where
  faults _ h := h
  start h := h
  draft {w r} _ h := (BinlogQueue.recordAll_fixed [r] w.binlogs).2.2.2.trans h
  commit h := h
  stop h := h
  write _ h := h

end SSDBImpl

namespace Call
open SSDBImpl

theorem exec_numbers (c : Call) (f : Faults) {w : SSDBImpl} (h : Numbers w) :
    Numbers (c.exec f w).2 := keeps_exec (numbers_kept.mono fun _ _ => trivial) f h

theorem exec_enabled (c : Call) (f : Faults) (w : SSDBImpl) :
    (c.exec f w).2.binlogs.enabled = w.binlogs.enabled :=
  keeps_exec ((enabled_kept w.binlogs.enabled).mono fun _ _ => trivial) f rfl

theorem reachable_numbers {w : SSDBImpl} (h : Reachable w) : Numbers w := by
  obtain ⟨enabled, capacity, cs, rfl⟩ := h
  exact execAll_invariant (fun e _ (_ : True) h => exec_numbers e.1 e.2 h) (fun _ _ => trivial)
    ⟨le_rfl, le_rfl⟩

end Call

namespace SSDBImpl
open Keys

structure History (w : SSDBImpl) (es : List (Bytes × Byte × Byte)) (w' : SSDBImpl) : Prop where
  last : w'.binlogs.lastSeq.toNat = w.binlogs.lastSeq.toNat + es.length
  stored : ∀ (x : UInt64) (i : ℕ) (key : Bytes) (type cmd : Byte),
    x.toNat = w.binlogs.lastSeq.toNat + i + 1 → es[i]? = some (key, type, cmd) →
      w'.ldb.table.get (encodeSeqKey x) = some (Binlog x type cmd key)
  frame : ∀ x, x ≤ w.binlogs.lastSeq →
    w'.ldb.table.get (encodeSeqKey x) = w.ldb.table.get (encodeSeqKey x)
  told : ∀ K put del, Primary K put del →
    Journal.Tells (Means put del) es K (w.ldb.table.get K) (w'.ldb.table.get K)

namespace History
variable {w w' w'' : SSDBImpl} {es fs : List (Bytes × Byte × Byte)}

theorem same (hldb : w'.ldb = w.ldb) (hlast : w'.binlogs.lastSeq = w.binlogs.lastSeq) :
    History w [] w' where
  last := congrArg UInt64.toNat hlast
  stored _ _ _ _ _ _ h := absurd h (by simp)
  frame _ _ := by rw [hldb]
  told _ _ _ _ := by
    rw [hldb]
    exact Journal.tells_nil _

theorem trans (h1 : History w es w') (h2 : History w' fs w'') : History w (es ++ fs) w'' where
  last := by
    rw [h2.last, h1.last, List.length_append]
    omega
  stored x i key type cmd hx hi := by
    rcases lt_or_ge i es.length with hlt | hge
    · rw [List.getElem?_append_left hlt] at hi
      have hle : x ≤ w'.binlogs.lastSeq := by
        rw [UInt64.le_iff_toNat_le, h1.last]
        omega
      rw [h2.frame x hle]
      exact h1.stored x i key type cmd hx hi
    · rw [List.getElem?_append_right hge] at hi
      have hlast := h1.last
      exact h2.stored x (i - es.length) key type cmd (by omega) hi
  frame x hx := by
    have hle : x ≤ w'.binlogs.lastSeq := by
      have hlast := h1.last
      rw [UInt64.le_iff_toNat_le] at hx ⊢
      omega
    rw [h2.frame x hle, h1.frame x hx]
  told K put del hK := Journal.tells_append (h1.told K put del hK) (h2.told K put del hK)

theorem committed {recs : List Rec} (hp : Paired recs) (hn : Numbers w)
    (henabled : w.binlogs.enabled = true)
    (hseq : (w.committed recs).ldb.sequence ≤ kMaxSequenceNumber) :
    History w (Rec.entries recs) (w.committed recs) := by
  obtain ⟨htable, -⟩ := committed_numbered recs henabled
  obtain ⟨hroom, hlast⟩ := committed_room henabled hn.last hseq
  refine ⟨hlast, ?_, ?_, ?_⟩
  · intro x i key type cmd hx hi
    rw [htable]
    exact BinlogQueue.numbered_entry hp.offLog hroom _ hx hi
  · intro x hx
    rw [htable]
    exact BinlogQueue.numbered_frame hp.offLog hroom _ (.inl hx)
  · intro K put del hK
    have hdata (r : Rec) (hr : r ∈ recs) : r.OnData := by
      have hoff := hp.offLog r hr
      cases r with
      | put key value => exact hoff
      | delete key => trivial
      | log type cmd key => trivial
    rw [← LevelDB.data_eq (primary_offLog hK), ← LevelDB.data_eq (primary_offLog hK),
      w.committed_data hdata]
    exact hp.tells hK _

end History

end SSDBImpl

namespace Call
open SSDBImpl Keys

variable {w : SSDBImpl}

theorem exec_history {c : Call} (hc : c.replicated = true) (f : List Bool) (hn : Numbers w)
    (henabled : w.binlogs.enabled = true)
    (hseq : (c.exec ⟨[], f⟩ w).2.ldb.sequence ≤ kMaxSequenceNumber) :
    ∃ es, History w es (c.exec ⟨[], f⟩ w).2 := by
  have hrun : c.run { w with faults := ⟨[], f⟩ } =
      ((c.inquiry w.ldb).answered w.ldb.fetch).run { w with faults := ⟨[], f⟩ } := by
    rw [run_play (replicated_transactional hc), Inquiry.play_answered _ rfl]
  have hlogged : Logged ((c.inquiry w.ldb).answered w.ldb.fetch) := by
    have hevery : Logged (((c.inquiry w.ldb).resolve w.ldb.fetch .failed []).1) :=
      Inquiry.resolve_every (inquiry_logged hc w.ldb) []
    rwa [Inquiry.resolve_nil] at hevery
  have hldb : (c.exec ⟨[], f⟩ w).2.ldb =
      (((c.inquiry w.ldb).answered w.ldb.fetch).run { w with faults := ⟨[], f⟩ }).2.ldb :=
    congrArg (fun r => r.2.ldb) hrun
  have hbinlogs : (c.exec ⟨[], f⟩ w).2.binlogs =
      (((c.inquiry w.ldb).answered w.ldb.fetch).run { w with faults := ⟨[], f⟩ }).2.binlogs :=
    congrArg (fun r => r.2.binlogs) hrun
  have hfixed (recs : List Rec) := (BinlogQueue.recordAll_fixed recs w.binlogs.begin).2.1
  cases hp : (c.inquiry w.ldb).answered w.ldb.fetch with
  | reject r =>
    rw [hp] at hldb hbinlogs
    exact ⟨[], .same hldb (congrArg BinlogQueue.lastSeq hbinlogs)⟩
  | abort recs r =>
    rw [hp] at hldb hbinlogs
    exact ⟨[], .same hldb ((congrArg BinlogQueue.lastSeq hbinlogs).trans (hfixed recs))⟩
  | commit recs ok fail =>
    rw [hp] at hldb hbinlogs hlogged
    rcases eq_or_ne f.head? (some true) with hf | hf
    · rw [Plan.run_commit_failed _ recs ok fail hf] at hldb hbinlogs
      exact ⟨[], .same hldb ((congrArg BinlogQueue.lastSeq hbinlogs).trans (hfixed recs))⟩
    · rw [Plan.run_commit _ recs ok fail hf] at hldb hbinlogs
      have hcommitted := History.committed (w := { w with faults := ⟨[], f⟩ }) hlogged
        ⟨hn.last, hn.tran⟩ henabled (hldb ▸ hseq)
      exact ⟨_, by rw [hbinlogs]; exact hcommitted.last, by rw [hldb]; exact hcommitted.stored,
        by rw [hldb]; exact hcommitted.frame, by rw [hldb]; exact hcommitted.told⟩

def underWrites (cs : List (Call × List Bool)) : List (Call × Faults) :=
  cs.map fun e => (e.1, ⟨[], e.2⟩)

theorem execAll_history {cs : List (Call × List Bool)} (hcs : ∀ e ∈ cs, e.1.replicated = true)
    (hn : Numbers w) (henabled : w.binlogs.enabled = true)
    (hseq : (execAll (underWrites cs) w).2.ldb.sequence ≤ kMaxSequenceNumber) :
    ∃ es, History w es (execAll (underWrites cs) w).2 := by
  induction cs generalizing w with
  | nil => exact ⟨[], .same rfl rfl⟩
  | cons e cs ih =>
    have hgrows : (e.1.exec ⟨[], e.2⟩ w).2.ldb.sequence ≤
        (execAll (underWrites cs) (e.1.exec ⟨[], e.2⟩ w).2).2.ldb.sequence := execAll_sequence _ _
    obtain ⟨es, hfirst⟩ := exec_history (hcs e (by simp)) e.2 hn henabled (hgrows.trans hseq)
    obtain ⟨fs, hrest⟩ := ih (fun e' h' => hcs e' (by simp [h'])) (exec_numbers e.1 ⟨[], e.2⟩ hn)
      ((exec_enabled e.1 ⟨[], e.2⟩ w).trans henabled) hseq
    exact ⟨es ++ fs, hfirst.trans hrest⟩

def Appended (w w' : SSDBImpl) (seq : UInt64) (type cmd : Byte) (key : Bytes) : Prop :=
  w.binlogs.lastSeq < seq ∧ seq ≤ w'.binlogs.lastSeq ∧
    w'.ldb.table.get (encodeSeqKey seq) = some (Binlog seq type cmd key)

theorem appended_iff {w' : SSDBImpl} {es : List (Bytes × Byte × Byte)} (h : History w es w')
    {seq : UInt64} {type cmd : Byte} {key : Bytes} : Appended w w' seq type cmd key ↔
      ∃ i, seq.toNat = w.binlogs.lastSeq.toNat + i + 1 ∧ es[i]? = some (key, type, cmd) := by
  have hlast := h.last
  constructor
  · rintro ⟨hlow, hhigh, hget⟩
    rw [UInt64.lt_iff_toNat_lt] at hlow
    rw [UInt64.le_iff_toNat_le] at hhigh
    obtain ⟨i, hi⟩ : ∃ i, seq.toNat = w.binlogs.lastSeq.toNat + i + 1 :=
      ⟨seq.toNat - w.binlogs.lastSeq.toNat - 1, by omega⟩
    have hlt : i < es.length := by omega
    have hentry : es[i]? = some es[i] := List.getElem?_eq_getElem hlt
    rcases hes : es[i] with ⟨key', type', cmd'⟩
    rw [hes] at hentry
    rw [h.stored seq i key' type' cmd' hi hentry] at hget
    obtain ⟨-, rfl, rfl, rfl⟩ := Binlog_inj.mp (Option.some.inj hget)
    exact ⟨i, hi, hentry⟩
  · rintro ⟨i, hi, hentry⟩
    have hlt : i < es.length := (List.getElem?_eq_some_iff.mp hentry).1
    refine ⟨?_, ?_, h.stored seq i key type cmd hi hentry⟩
    · rw [UInt64.lt_iff_toNat_lt]
      omega
    · rw [UInt64.le_iff_toNat_le]
      omega

/-- After any run of writes, from any reachable store with its log on: a primary record without an
appended log record is unchanged, and the last one appended for it tells whether it is there. -/
theorem binlog_tells {w : SSDBImpl} (hw : Reachable w) (henabled : w.binlogs.enabled = true)
    (cs : List (Call × List Bool)) (hcs : ∀ e ∈ cs, e.1.replicated = true) :
    let w' := (execAll (underWrites cs) w).2
    w'.ldb.sequence ≤ kMaxSequenceNumber → ∀ K put del, Primary K put del →
      ((∀ seq type cmd, ¬Appended w w' seq type cmd K) →
        w'.ldb.table.get K = w.ldb.table.get K) ∧
        ∀ seq type cmd, Appended w w' seq type cmd K →
          (∀ seq' type' cmd', Appended w w' seq' type' cmd' K → seq' ≤ seq) →
            (cmd = put ↔ w'.ldb.table.get K ≠ none) ∧ (cmd = del ↔ w'.ldb.table.get K = none) := by
  intro w' hseq K put del hK
  obtain ⟨es, h⟩ : ∃ es, History w es w' := execAll_history hcs (reachable_numbers hw) henabled hseq
  have htold := h.told K put del hK
  have hlast := h.last
  have hnumber (j : ℕ) (hj : j < es.length) :
      (UInt64.ofNat (w.binlogs.lastSeq.toNat + j + 1)).toNat = w.binlogs.lastSeq.toNat + j + 1 := by
    have hlt := w'.binlogs.lastSeq.toNat_lt
    exact UInt64.toNat_ofNat_of_lt' (by change _ < 2 ^ 64; omega)
  constructor
  · intro hnone
    refine htold.unchanged fun e he hkey => ?_
    obtain ⟨i, hi⟩ := List.mem_iff_getElem?.mp he
    have hlt : i < es.length := (List.getElem?_eq_some_iff.mp hi).1
    obtain ⟨key, type, cmd⟩ := e
    obtain rfl : key = K := hkey
    exact hnone _ type cmd ((appended_iff h).mpr ⟨i, hnumber i hlt, hi⟩)
  · intro seq type cmd happended hmax
    obtain ⟨i, hi, hentry⟩ := (appended_iff h).mp happended
    have hmeans : Means put del (type, cmd) (w'.ldb.table.get K) := by
      refine htold.decided hentry fun j c' hij hj => ?_
      have hlt : j < es.length := (List.getElem?_eq_some_iff.mp hj).1
      have hle := hmax _ c'.1 c'.2 ((appended_iff h).mpr ⟨j, hnumber j hlt, hj⟩)
      rw [UInt64.le_iff_toNat_le, hnumber j hlt] at hle
      omega
    have hne := hK.put_ne_del
    rcases hmeans with ⟨hcmd, hthere⟩ | ⟨hcmd, hgone⟩
    · obtain rfl : cmd = put := hcmd
      exact ⟨iff_of_true rfl hthere, iff_of_false hne hthere⟩
    · obtain rfl : cmd = del := hcmd
      exact ⟨iff_of_false hne.symm (not_not.mpr hgone), iff_of_true rfl hgone⟩

theorem binlog_tells_set :
    let w := SSDBImpl.fresh true 1000
    let w' := (execAll (underWrites [(.set [107] [49] 1, [])]) w).2
    ∀ K put del, Primary K put del →
      ((∀ seq type cmd, ¬Appended w w' seq type cmd K) →
        w'.ldb.table.get K = w.ldb.table.get K) ∧
        ∀ seq type cmd, Appended w w' seq type cmd K →
          (∀ seq' type' cmd', Appended w w' seq' type' cmd' K → seq' ≤ seq) →
            (cmd = put ↔ w'.ldb.table.get K ≠ none) ∧ (cmd = del ↔ w'.ldb.table.get K = none) :=
  binlog_tells ⟨true, 1000, [], rfl⟩ rfl [(.set [107] [49] 1, [])] (by decide) (by decide)

end Call
