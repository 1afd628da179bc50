import Ssdb.Theory.Listings

namespace SSDBImpl
open Keys

def Stored (r : Rec) : Prop := ∀ value, r ≠ .put (encodeKvKey []) value

theorem kvRecs_stored {key : Bytes} (h : key ≠ []) (val : Bytes) (t : Byte) :
    ∀ r ∈ kvRecs key val t, Stored r := by
  intro r hr value he
  rcases List.mem_pair.mp hr with rfl | rfl
  · exact h (List.cons.inj (Rec.put.inj he).1).2
  · exact Rec.noConfusion he

theorem kvDelRecs_stored (key : Bytes) (t : Byte) : ∀ r ∈ kvDelRecs key t, Stored r := by
  intro r hr value he
  rcases List.mem_pair.mp hr with rfl | rfl
  · exact Rec.noConfusion he
  · exact Rec.noConfusion he

theorem multiSet_stored (count : Int) (t : Byte) (kvs : List (Bytes × Bytes)) {recs : List Rec}
    (hrecs : ∀ r ∈ recs, Stored r) : (multiSetPlanFrom count t recs kvs).Within Stored := by
  induction kvs generalizing recs with
  | nil => exact hrecs
  | cons e kvs ih =>
    obtain ⟨key, val⟩ := e
    rw [multiSetPlanFrom]
    split_ifs with hkey
    · exact hrecs
    · refine ih fun r hr => ?_
      exact (List.mem_append.mp hr).elim (hrecs r) (kvRecs_stored (not_or.mp hkey).1 val t r)

structure Keyed (w : SSDBImpl) : Prop where
  table : w.ldb.table.get (encodeKvKey []) = none
  batch : ∀ op ∈ w.binlogs.batch, Stored op.toRec

theorem keyed_apply {t : OrdMap Bytes Bytes} {op : BatchOp} (ht : t.get (encodeKvKey []) = none)
    (hop : Stored op.toRec) : (op.apply t).get (encodeKvKey []) = none := by
  cases op with
  | put key value =>
    have hne : encodeKvKey [] ≠ key := fun h => hop value (by rw [h]; rfl)
    exact (OrdMap.get_insert_ne t value hne).trans ht
  | delete key =>
    rw [BatchOp.apply, OrdMap.get_erase]
    split_ifs
    · rfl
    · exact ht

theorem keyed_batch {batch : List BatchOp} {t : OrdMap Bytes Bytes}
    (ht : t.get (encodeKvKey []) = none) (hb : ∀ op ∈ batch, Stored op.toRec) :
    (batch.foldl BatchOp.apply t).get (encodeKvKey []) = none := by
  induction batch generalizing t with
  | nil => exact ht
  | cons op batch ih =>
    exact ih (keyed_apply ht (hb op (by simp))) fun op' h' => hb op' (by simp [h'])

theorem keyed_kept : Kept Stored Keyed where
  faults _ h := ⟨h.table, h.batch⟩
  start h := ⟨h.table, fun _ hop => absurd hop List.not_mem_nil⟩
  draft {w r} hr h := by
    refine ⟨h.table, fun op hop => ?_⟩
    have hadded {new : BatchOp} (hop : op ∈ w.binlogs.batch ++ [new]) (hnew : Stored new.toRec) :
        Stored op.toRec :=
      (List.mem_append.mp hop).elim (h.batch op) fun h' => List.mem_singleton.mp h' ▸ hnew
    cases r with
    | put key value => exact hadded hop hr
    | delete key => exact hadded hop hr
    | log type cmd key =>
      simp only [SSDBImpl.record, BinlogQueue.recordAll, List.foldl, BinlogQueue.record,
        BinlogQueue.addLog] at hop
      split_ifs at hop
      · exact h.batch op hop
      · refine hadded hop fun value he => ?_
        exact absurd (congrArg List.head? (Rec.put.inj he).1)
          (by decide : some DataType.SYNCLOG ≠ some DataType.KV)
  commit h := ⟨keyed_batch h.table h.batch, h.batch⟩
  stop h := ⟨h.table, h.batch⟩
  write hb h := ⟨keyed_batch h.table hb, h.batch⟩

end SSDBImpl

namespace Queues

theorem answer_unnamed {Q : Queues} {c : Call} (h : (Q []).items = [])
    (hfront : ∀ item t, c ≠ .qpushFront [] item t) (hback : ∀ item t, c ≠ .qpushBack [] item t) :
    ((Q.answer c).2 []).items = [] := by
  have hpush {n item : Bytes} {e : End} (hn : n ≠ []) : (Q.afterPush n e item []).items = [] := by
    rw [afterPush]
    cases Q.push n e item with
    | none => exact h
    | some q => exact (congrArg Deque.items (Function.update_of_ne hn.symm q Q)).trans h
  have hpop (n : Bytes) (e : End) : (Q.afterPop n e []).items = [] := by
    rw [afterPop]
    rcases eq_or_ne n [] with rfl | hn
    · rw [if_pos h, h]
    · split_ifs
      · exact h
      · exact (congrArg Deque.items (Function.update_of_ne hn.symm _ Q)).trans h
  cases c with
  | qpushFront n item t =>
    rcases eq_or_ne n [] with rfl | hn
    · exact absurd rfl (hfront item t)
    · exact hpush hn
  | qpushBack n item t =>
    rcases eq_or_ne n [] with rfl | hn
    · exact absurd rfl (hback item t)
    · exact hpush hn
  | qpopFront n | qpopBack n => exact hpop n _
  | qset n index item t =>
    change (Q.afterSet n index item []).items = []
    rw [afterSet]
    rcases eq_or_ne n [] with rfl | hn
    · cases hp : (Q []).place index.toInt with
      | none => exact h
      | some i =>
        have hlt := place_lt hp
        simp [h] at hlt
    · cases (Q n).place index.toInt with
      | none => exact h
      | some i => exact (congrArg Deque.items (Function.update_of_ne hn.symm _ Q)).trans h
  | _ => exact h

end Queues

namespace Call
open Keys SSDBImpl

def files : Call → Bool
  | set _ _ _ | setnx _ _ _ | getset _ _ _ | del _ _ | incr _ _ _ | setbit _ _ _ _ => true
  | multiSet _ _ | multiDel _ _ => true
  | qpushFront _ _ _ | qpushBack _ _ _ | qpopFront _ _ | qpopBack _ _ => true
  | _ => false

def OnEmpty : Call → Prop
  | incr k _ _ => k = []
  | qpushFront n _ _ | qpushBack n _ _ => n = []
  | _ => False

instance (c : Call) : Decidable c.OnEmpty := by
  apply Call.casesOn (motive := fun c => Decidable c.OnEmpty) c <;> intros <;> dsimp only [OnEmpty] <;>
    infer_instance

variable {c : Call} {f : Faults} {w : SSDBImpl}

theorem files_plain (hc : c.files = true) : c.plain = true ∧ c.transactional = true := by
  cases c <;> first | exact ⟨rfl, rfl⟩ | exact Bool.noConfusion hc

theorem queue_stored {n : Bytes} {r : Rec} (h : (Container.queue n).Writes r) : Stored r := by
  rintro value rfl
  obtain ⟨b, hb, hkey⟩ := Container.owns_head h.1
  have hkv : DataType.KV ∉ (Container.queue n).heads := by
    exact (by decide : DataType.KV ∉ [DataType.QSIZE, DataType.QUEUE])
  exact hkv (Option.some.inj hkey ▸ hb)

theorem inquiry_stored (hc : c.files = true) (h : ¬c.OnEmpty) (db : LevelDB) :
    (c.inquiry db).Every (Plan.Within Stored) := by
  have hmap {α : Type} {T : Inquiry Bytes Fetched (Plan α)} {f : α → Reply}
      (hT : T.Every (Plan.Within Stored)) : (T.map (Plan.map f)).Every (Plan.Within Stored) :=
    Inquiry.every_map (hT.imp fun _ h => Plan.within_map h)
  have hqueue {n : Bytes} (hC : c.container = some (.queue n)) :
      (c.inquiry db).Every (Plan.Within Stored) :=
    (inquiry_within hC db).imp fun p hp r hr => queue_stored (hp r hr)
  cases c with
  | set key val t =>
    refine Plan.within_map ?_
    simp only [setPlan]
    split_ifs with hkey
    · exact fun _ h => absurd h List.not_mem_nil
    · exact fun _ h => absurd h List.not_mem_nil
    · exact kvRecs_stored hkey val t
  | setnx key val t =>
    exact hmap (Inquiry.every_ite (fun _ _ h => absurd h List.not_mem_nil) fun hkey =>
      Inquiry.every_ite (fun _ _ h => absurd h List.not_mem_nil) fun _ _ =>
        Inquiry.every_ite (fun _ => Plan.within_nil _) fun _ => kvRecs_stored hkey val t)
  | getset key val t =>
    exact hmap (Inquiry.every_ite (fun _ _ h => absurd h List.not_mem_nil) fun hkey =>
      Inquiry.every_ite (fun _ _ h => absurd h List.not_mem_nil) fun _ _ => kvRecs_stored hkey val t)
  | del key t =>
    refine Plan.within_map ?_
    simp only [delPlan]
    split_ifs
    · exact fun _ h => absurd h List.not_mem_nil
    · exact kvDelRecs_stored key t
  | incr key amount t =>
    refine hmap (Inquiry.every_ite (fun _ _ h => absurd h List.not_mem_nil) fun _ r => ?_)
    cases r with
    | failed => exact Plan.within_nil _
    | notFound => exact kvRecs_stored h _ t
    | found old =>
      simp only [Inquiry.Every]
      split_ifs
      · exact kvRecs_stored h _ t
      · exact Plan.within_nil _
  | setbit key bitoffset on t =>
    exact hmap (Inquiry.every_ite (fun _ _ h => absurd h List.not_mem_nil) fun hkey =>
      Inquiry.every_ite (fun _ _ h => absurd h List.not_mem_nil) fun _ _ =>
        Inquiry.every_ite (fun _ => Plan.within_nil _) fun _ => kvRecs_stored hkey _ t)
  | multiSet kvs t =>
    exact Plan.within_map (multiSet_stored _ t kvs fun _ h => absurd h List.not_mem_nil)
  | multiDel keys t =>
    refine Plan.within_map fun r hr => ?_
    obtain ⟨key, -, hr⟩ := List.mem_flatMap.mp hr
    exact kvDelRecs_stored key t r hr
  | qpushFront | qpushBack | qpopFront | qpopBack => exact hqueue rfl
  | _ => exact Bool.noConfusion hc

theorem exec_keyed (hc : c.files = true) (h : ¬c.OnEmpty) (f : Faults) (hw : Keyed w) :
    Keyed (c.exec f w).2 := by
  have hstart : Keyed { w with faults := f } := ⟨hw.table, hw.batch⟩
  have hrun : (c.run { w with faults := f }) = (c.inquiry w.ldb).play { w with faults := f } :=
    run_play (files_plain hc).2 _
  have hplay := Keeps.play keyed_kept (inquiry_stored hc h w.ldb) _ hstart
  rw [← hrun] at hplay
  exact ⟨hplay.table, hplay.batch⟩

def Queued (w : SSDBImpl) : Prop := ∃ Q, Queues.Stores w.ldb.data Q ∧ (Q []).items = []

theorem exec_queued (hc : c.files = true) (h : ¬c.OnEmpty) (hf : f.get = []) (hw : Queued w) :
    Queued (c.exec f w).2 := by
  obtain ⟨Q, hQ, hnil⟩ := hw
  obtain ⟨hplain, ht⟩ := files_plain hc
  rcases queue_heads hplain with ⟨hon, -⟩ | ⟨hsize, hitem⟩
  · obtain ⟨-, hQ'⟩ := Queues.exec_result hon hQ
    rcases exec_answered ht hf w with hldb | hldb
    · exact ⟨Q, by rw [hldb]; exact hQ, hnil⟩
    · refine ⟨_, by rw [hldb]; exact hQ', Queues.answer_unnamed hnil ?_ ?_⟩
      · rintro item t rfl
        exact h rfl
      · rintro item t rfl
        exact h rfl
  · have hdata {b : Byte} := exec_data (b := b) (plain_flushdb hplain)
    exact ⟨Q, hQ.congr (hdata hsize (by decide) f w) (hdata hitem (by decide) f w), hnil⟩

structure Enumerates (limit : UInt64) (w : SSDBImpl) : Prop where
  keys : ∀ key, (SSDBImpl.get key w).1.1 = 1 →
    ((SSDBImpl.scan [] [] limit w).1.rest.map Prod.fst).count key = 1
  queues : ∀ name, 0 < (SSDBImpl.qsize name w).1 → (SSDBImpl.qlist [] [] limit w).1.count name = 1

theorem enumerates_iff (hw : w.faults = Faults.none) (hq : ∃ Q, Queues.Stores w.ldb.data Q)
    {limit : UInt64} (hlimit : w.ldb.table.size ≤ limit.toNat) :
    Enumerates limit w ↔ (SSDBImpl.get [] w).1.1 ≠ 1 ∧ ¬0 < (SSDBImpl.qsize [] w).1 := by
  have hkv := (OrdMap.size_under [DataType.KV] w.ldb.table).trans hlimit
  have hqsize := (OrdMap.size_under [DataType.QSIZE] w.ldb.table).trans hlimit
  have hscan := scan_pairs w limit
  have hqlist : (SSDBImpl.qlist [] [] limit w).1 =
      ((w.ldb.region [DataType.QSIZE]).upward limit.toNat).map Prod.fst :=
    names_upward decode_qsize_key w.ldb limit.toNat
  have hkey {key : Bytes} (hget : (SSDBImpl.get key w).1.1 = 1) :
      ((SSDBImpl.scan [] [] limit w).1.rest.map Prod.fst).count key = 1 ↔ key ≠ [] := by
    rw [hscan]
    exact OrdMap.count_upward hkv ((get_one_iff hw key).mp hget)
  have hname {name : Bytes} (hsize : 0 < (SSDBImpl.qsize name w).1) :
      (SSDBImpl.qlist [] [] limit w).1.count name = 1 ↔ name ≠ [] := by
    rw [hqlist]
    exact OrdMap.count_upward hqsize ((qsize_there hq hw name).mp hsize)
  constructor
  · intro h
    exact ⟨fun hget => (hkey hget).mp (h.keys [] hget) rfl,
      fun hsize => (hname hsize).mp (h.queues [] hsize) rfl⟩
  · rintro ⟨hget, hsize⟩
    refine ⟨fun key hk => (hkey hk).mpr ?_, fun name hn => (hname hn).mpr ?_⟩
    · rintro rfl
      exact hget hk
    · rintro rfl
      exact hsize hn

def Filing (e : Call × Faults) : Prop := e.1.files = true ∧ e.2.get = []

instance (e : Call × Faults) : Decidable (Filing e) := by
  unfold Filing
  infer_instance

/-- After any run of such writes the listings are complete if and only if neither the empty key nor
an item in the queue with the empty name is there, and so after every run without an `incr` of that
key and a push to that queue. -/
theorem writes_enumerated_iff (enabled : Bool) (capacity : Int32) (cs : List (Call × Faults))
    (hcs : ∀ e ∈ cs, Filing e) (limit : UInt64) :
    let w := (execAll cs (SSDBImpl.fresh enabled capacity)).2
    w.ldb.table.size ≤ limit.toNat →
      (Enumerates limit w ↔ (SSDBImpl.get [] w).1.1 ≠ 1 ∧ ¬0 < (SSDBImpl.qsize [] w).1) ∧
        ((∀ e ∈ cs, ¬e.1.OnEmpty) → Enumerates limit w) := by
  intro w hlimit
  have hw : w.faults = Faults.none := execAll_faults cs rfl
  have hqueues : ∃ Q, Queues.Stores w.ldb.data Q :=
    execAll_invariant (P := fun w => ∃ Q, Queues.Stores w.ldb.data Q)
      (fun _ _ he h => exec_queues (files_plain he.1).1 he.2 h) hcs ⟨_, Queues.stores_empty⟩
  have hiff := enumerates_iff hw hqueues hlimit
  refine ⟨hiff, fun hempty => hiff.mpr ⟨fun hget => ?_, fun hsize => ?_⟩⟩
  · have hkeyed : Keyed w := by
      refine execAll_invariant (fun e _ (he : Filing e ∧ ¬e.1.OnEmpty) h => exec_keyed he.1.1 he.2 e.2 h)
        (fun e he => ⟨hcs e he, hempty e he⟩) ?_
      exact ⟨rfl, fun _ hop => absurd hop List.not_mem_nil⟩
    have hthere := (get_one_iff hw []).mp hget
    rw [OrdMap.mem_keys_iff, LevelDB.get_region] at hthere
    exact hthere hkeyed.table
  · obtain ⟨Q, hQ, hnil⟩ : Queued w := by
      refine execAll_invariant
        (fun e _ (he : Filing e ∧ ¬e.1.OnEmpty) h => exec_queued he.1.1 he.2 he.1.2 h)
        (fun e he => ⟨hcs e he, hempty e he⟩) ?_
      exact ⟨_, Queues.stores_empty, rfl⟩
    rw [(Queues.qsize_result hQ hw).reply, hnil] at hsize
    exact absurd hsize (by decide)

theorem writes_enumerated_iff_mixed :
    Enumerates 1000 (execAll [(.set [97] [49] 1, .none), (.incr [98] 2 1, .none), (.qpushBack [113] [97] 1, .none),
      (.qpushFront [113] [98] 1, .none), (.multiSet [([99], [49]), ([100], [50])] 1, .none), (.del [97] 1, .none),
      (.qpushBack [114] [97] 1, .none)] (SSDBImpl.fresh true 1000)).2 :=
  (writes_enumerated_iff true 1000 _ (by decide) 1000 (by decide +kernel)).2 (by decide)

theorem empty_key_unlisted :
    Filing (.incr [] 1 1, .none) ∧
      ¬Enumerates 1000 (execAll [(.incr [] 1 1, .none)] (SSDBImpl.fresh true 1000)).2 := by
  refine ⟨by decide, fun h => ?_⟩
  exact absurd (h.keys [] (by decide)) (by decide)

end Call
