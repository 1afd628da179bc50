import Ssdb.Store.Scan
import Ssdb.Theory.Containers

def BatchOp.toRec : BatchOp → Rec
  | .put key value => .put key value
  | .delete key => .delete key

structure Kept (S : Rec → Prop) (P : SSDBImpl → Prop) : Prop where
  faults : ∀ {w : SSDBImpl} (f : Faults), P w → P { w with faults := f }
  start : ∀ {w : SSDBImpl}, P w → P { w with binlogs := w.binlogs.begin }
  draft : ∀ {w : SSDBImpl} {r : Rec}, S r → P w → P (w.record [r])
  commit : ∀ {w : SSDBImpl}, P w → P { w with
    ldb := w.ldb.write w.binlogs.batch
    binlogs := { w.binlogs with lastSeq := w.binlogs.tranSeq, tranSeq := 0 } }
  stop : ∀ {w : SSDBImpl}, P w → P { w with binlogs := w.binlogs.rollback }
  write : ∀ {w : SSDBImpl} {batch : List BatchOp}, (∀ op ∈ batch, S op.toRec) → P w →
    P { w with ldb := w.ldb.write batch }

def Keeps {α : Type} (P : SSDBImpl → Prop) (x : M α) : Prop := ∀ w, P w → P (x w).2

namespace Keeps

variable {α β : Type} {S : Rec → Prop} {P : SSDBImpl → Prop}

theorem pure (a : α) : Keeps P (pure a : M α) := fun _ h => h

theorem bind {x : M α} {f : α → M β} (hx : Keeps P x) (hf : ∀ a, Keeps P (f a)) :
    Keeps P (x >>= f) := fun w h => hf _ _ (hx w h)

theorem map {f : α → β} {x : M α} (hx : Keeps P x) : Keeps P (f <$> x) := fun w h => hx w h

theorem ite {c : Prop} [Decidable c] {x y : M α} (hx : c → Keeps P x) (hy : ¬c → Keeps P y) :
    Keeps P (if c then x else y) := by
  split_ifs with h
  · exact hx h
  · exact hy h

theorem state {g : SSDBImpl → M α} (hg : ∀ w, P w → P (g w w).2) :
    Keeps P (MonadState.get >>= g) := fun w h => hg w h

theorem get (hP : Kept S P) (key : Bytes) : Keeps P (LevelDB.Get key) :=
  fun _ h => hP.faults _ h

theorem write (hP : Kept S P) {batch : List BatchOp} (hb : ∀ op ∈ batch, S op.toRec) :
    Keeps P (LevelDB.Write batch) := by
  intro w h
  rw [LevelDB.Write]
  split_ifs
  · exact hP.faults _ h
  · exact hP.faults _ (hP.write hb h)

theorem transaction (hP : Kept S P) {body : M α} (h : Keeps P body) :
    Keeps P (Binlogs.transaction body) := fun _ hw => hP.stop (h _ (hP.start hw))

theorem record (hP : Kept S P) {recs : List Rec} (hr : ∀ r ∈ recs, S r) {w : SSDBImpl}
    (h : P w) : P (w.record recs) := by
  induction recs generalizing w with
  | nil => exact h
  | cons r recs ih =>
    have hcons : w.record (r :: recs) = (w.record [r]).record recs := by
      rw [SSDBImpl.record_record]
      rfl
    rw [hcons]
    exact ih (fun r' h' => hr r' (by simp [h'])) (hP.draft (hr r (by simp)) h)

theorem plan (hP : Kept S P) {p : Plan α} (hp : p.Within S) : Keeps P p.run := by
  intro w h
  have hdraft : P (SSDBImpl.record { w with binlogs := w.binlogs.begin } p.batched) :=
    record hP hp (hP.start h)
  cases p with
  | reject r => exact h
  | abort recs r => exact hP.stop hdraft
  | commit recs ok fail =>
    rcases eq_or_ne (w.faults.write.head?) (some true) with hw | hw
    · rw [Plan.run_commit_failed w recs ok fail hw]
      exact hP.stop (hP.faults ⟨w.faults.get, w.faults.write.tail⟩ hdraft)
    · rw [Plan.run_commit w recs ok fail hw]
      exact hP.faults ⟨w.faults.get, w.faults.write.tail⟩ (hP.commit hdraft)

theorem play (hP : Kept S P) {T : Inquiry Bytes Fetched (Plan α)} (hT : T.Every (Plan.Within S)) :
    Keeps P T.play := by
  intro w h
  rw [Inquiry.play_apply]
  exact plan hP (Inquiry.resolve_every hT _) _ (hP.faults _ h)

end Keeps

namespace SSDBImpl
open Keys Binlogs

variable {S : Rec → Prop} {P : SSDBImpl → Prop} (hP : Kept S P)
include hP

theorem keeps_getRecord (dbkey : Bytes) : Keeps P (getRecord dbkey) := by
  refine .bind (.get hP dbkey) fun r => ?_
  cases r <;> exact .pure _

theorem keeps_getCount (sizeKey : Bytes) : Keeps P (getCount sizeKey) := by
  refine .bind (.get hP sizeKey) fun r => ?_
  cases r with
  | found val => exact .ite (fun _ => .pure _) fun _ => .pure _
  | notFound => exact .pure _
  | failed => exact .pure _

theorem keeps_qgetUint64 (n : Bytes) (seq : UInt64) : Keeps P (qgetUint64 n seq) :=
  .bind (keeps_getRecord hP _) fun _ => .ite (fun _ => .ite (fun _ => .pure _) fun _ => .pure _)
    fun _ => .pure _

theorem keeps_qsize (n : Bytes) : Keeps P (qsize n) := by
  refine .bind (.get hP _) fun r => ?_
  cases r with
  | found val => exact .ite (fun _ => .pure _) fun _ => .pure _
  | notFound => exact .pure _
  | failed => exact .pure _

theorem keeps_qpeek (endSeq : UInt64) (n : Bytes) : Keeps P (qpeek endSeq n) :=
  .bind (keeps_qgetUint64 hP _ _) fun _ => .ite (fun _ => .pure _) fun _ => .ite (fun _ => .pure _)
    fun _ => keeps_getRecord hP _

theorem keeps_startScore (n k s : Bytes) : Keeps P (startScore n k s) :=
  .ite (fun _ => .bind (keeps_getRecord hP _) fun _ => .pure _) fun _ => .pure _

theorem keeps_seqOf (n : Bytes) (index : Int64) : Keeps P (seqOf n index) :=
  .ite (fun _ => .bind (keeps_qgetUint64 hP _ _) fun _ => .pure _)
    fun _ => .bind (keeps_qgetUint64 hP _ _) fun _ => .pure _

theorem keeps_qsliceBounds (n : Bytes) (first last : Int64) : Keeps P (qsliceBounds n first last) :=
  .ite (fun _ => .bind (keeps_qgetUint64 hP _ _) fun _ => .pure _) fun _ =>
    .ite (fun _ => .bind (keeps_qgetUint64 hP _ _) fun _ => .pure _) fun _ =>
      .bind (keeps_qgetUint64 hP _ _) fun _ => .ite (fun _ => .pure _) fun _ =>
        .bind (keeps_qgetUint64 hP _ _) fun _ => .pure _

theorem keeps_qsliceFrom (n : Bytes) (seqEnd : UInt64) (fuel : ℕ) (seq : UInt64)
    (list : List Bytes) : Keeps P (qsliceFrom n seqEnd fuel seq list) := by
  induction fuel generalizing seq list with
  | zero => exact .pure _
  | succ fuel ih =>
    exact .ite (fun _ => .bind (keeps_getRecord hP _) fun _ => .ite (fun _ => .pure _) fun _ =>
      .ite (fun _ => .pure _) fun _ => ih _ _) fun _ => .pure _

end SSDBImpl

namespace SSDBImpl
open Keys Binlogs

variable {S : Rec → Prop} {P : SSDBImpl → Prop} {n : Bytes}

theorem keeps_hclearRound (hP : Kept (Container.hash n).Writes P) (t : Byte)
    (es : List (Bytes × Bytes)) (num : ℕ) : Keeps P (hclearRound n t es num) := by
  induction es generalizing num with
  | nil => exact .pure _
  | cons e es ih =>
    refine .bind ?_ fun _ => .ite (fun _ => .pure _) fun _ => ih _
    rw [hdel_play]
    exact .play hP (hdelAsk_within n e.1 t)

theorem keeps_hclearFrom (hP : Kept (Container.hash n).Writes P) (fuel count : ℕ) :
    Keeps P (hclearFrom n fuel count) := by
  induction fuel generalizing count with
  | zero => exact .pure _
  | succ fuel ih =>
    refine .bind (.state fun _ h => h) fun _ => .bind (keeps_hclearRound hP _ _ _) fun r => ?_
    match r with
    | none => exact .pure _
    | some 0 => exact .pure _
    | some (num + 1) => exact ih _

def Fixes (n : Bytes) (ok : Bytes → Prop) : Rec → Prop
  | .put key value => key = encodeZsizeKey n ∨ ∃ k, ok k ∧
      (key = encodeZsetKey n k ∨ (∃ s, key = zscoreKey n k s) ∧ value = [])
  | .delete key => key = encodeZsizeKey n
  | .log _ _ _ => False

def Meets (n : Bytes) (ok : Bytes → Prop) (e : Bytes × Bytes) : Prop :=
  (e.1.head? = some DataType.ZSCORE → ∀ k s, decodeZscoreKey e.1 = some (n, k, s) → ok k) ∧
    (e.1.head? = some DataType.ZSET → ∀ k, decodeZsetKey e.1 = some (n, k) → ok k)

theorem rawEntries_pending (it : Iterator) : rawEntries it = it.pending := by
  have hmap := Iterator.collect_map (f := Verdict.item) (g := id) (h := id) (l := it.pending)
    fun _ _ => rfl
  rw [List.map_id] at hmap
  exact (Iterator.items_collect _ _).trans hmap

theorem rawEntries_subset (db : LevelDB) (start stop : Bytes) (limit : ℕ) :
    rawEntries (db.iterator start stop limit) ⊆ db.table.entries := by
  rw [rawEntries_pending, LevelDB.iterator_pending]
  exact fun e he => (List.mem_filter.mp (List.mem_of_mem_take he)).1

section zfix
variable {ok : Bytes → Prop} (hP : Kept (Fixes n ok) P)
include hP

theorem keeps_zfixScores (es : List (Bytes × Bytes)) (hes : ∀ e ∈ es, Meets n ok e) (size : Int64) :
    Keeps P (zfixScores n es size) := by
  induction es generalizing size with
  | nil => exact .pure _
  | cons e es ih =>
    obtain ⟨ks, v⟩ := e
    have hrest := ih fun e' h' => hes e' (by simp [h'])
    rw [zfixScores]
    refine .ite (fun _ => .pure _) fun hhead => ?_
    cases hd : decodeZscoreKey ks with
    | none => exact .pure _
    | some r =>
      obtain ⟨name2, k, s⟩ := r
      refine .ite (fun _ => .pure _) fun hname => .bind (.get hP _) fun _ =>
        .ite (fun _ => .pure _) fun _ => .ite (fun _ => .bind (.write hP fun op hop => ?_) fun _ =>
          .ite (fun _ => hrest _) fun _ => .pure _) fun _ => hrest _
      rw [List.mem_singleton.mp hop]
      rw [← not_not.mp hname] at hd
      exact .inr ⟨k, (hes (ks, v) (by simp)).1 (not_not.mp hhead) k s hd, .inl rfl⟩

theorem keeps_zfixKeys (es : List (Bytes × Bytes)) (hes : ∀ e ∈ es, Meets n ok e) (size : Int64) :
    Keeps P (zfixKeys n es size) := by
  induction es generalizing size with
  | nil => exact .pure _
  | cons e es ih =>
    obtain ⟨ks, v⟩ := e
    have hrest := ih fun e' h' => hes e' (by simp [h'])
    rw [zfixKeys]
    refine .ite (fun _ => .pure _) fun hhead => ?_
    cases hd : decodeZsetKey ks with
    | none => exact .pure _
    | some r =>
      obtain ⟨name2, k⟩ := r
      refine .ite (fun _ => .pure _) fun hname => .bind (.get hP _) fun _ =>
        .ite (fun _ => .pure _) fun _ => .ite (fun _ => .bind (.write hP fun op hop => ?_) fun _ =>
          .ite (fun _ => hrest _) fun _ => .pure _) fun _ => hrest _
      rw [List.mem_singleton.mp hop]
      rw [← not_not.mp hname] at hd
      exact .inr ⟨k, (hes (ks, v) (by simp)).2 (not_not.mp hhead) k hd, .inr ⟨⟨_, rfl⟩, rfl⟩⟩

theorem keeps_zfixSize (size : Int64) : Keeps P (zfixSize n size) := by
  refine .ite (fun _ => .pure _) fun _ => .bind (keeps_getCount hP _) fun _ => .ite (fun _ => .pure _)
    fun _ => .ite (fun _ => .bind (.write hP fun op hop => ?_) fun _ => .pure _) fun _ => .pure _
  rw [List.mem_singleton.mp hop]
  split_ifs
  · exact rfl
  · exact .inl rfl

theorem keeps_zfix (hok : ∀ w, P w → ∀ e ∈ w.ldb.table.entries, Meets n ok e) :
    Keeps P (zfix n) := by
  have hraw (w : SSDBImpl) (h : P w) (start stop : Bytes) (limit : ℕ) :
      ∀ e ∈ rawEntries (w.ldb.iterator start stop limit), Meets n ok e :=
    fun e he => hok w h e (rawEntries_subset _ _ _ _ he)
  rw [zfix]
  refine .transaction hP ?_
  refine .state fun w h => ?_
  refine Keeps.bind ?_ ?_ w h
  · exact keeps_zfixScores hP _ (hraw w h _ _ _) 0
  intro size
  refine .bind (keeps_zfixSize hP size) fun size' => .ite (fun _ => .pure _) fun _ => ?_
  refine .state fun w' h' => ?_
  refine Keeps.bind ?_ ?_ w' h'
  · exact keeps_zfixKeys hP _ (hraw w' h' _ _ _) 0
  · exact fun size => keeps_zfixSize hP size

end zfix

def Deletes (r : Rec) : Prop := ∃ key, r = .delete key

theorem delBatch_deletes (last : UInt64) (count : ℕ) (start : UInt64) :
    ∀ op ∈ (delBatch last count start).1, Deletes op.toRec := by
  induction count generalizing start with
  | zero => simp [delBatch]
  | succ count ih =>
    rw [delBatch]
    split_ifs
    · intro op hop
      rcases List.mem_cons.mp hop with rfl | hop
      · exact ⟨_, rfl⟩
      · exact ih _ op hop
    · simp

section flushdb
variable (hP : Kept Deletes P)
include hP

theorem keeps_flushRound (es : List (Bytes × Bytes)) : Keeps P (flushRound es) := by
  induction es with
  | nil => exact .pure _
  | cons e es ih =>
    refine .bind (.write hP fun op hop => ?_) fun _ => .ite (fun _ => ih) fun _ => .pure _
    rw [List.mem_singleton.mp hop]
    exact ⟨_, rfl⟩

theorem keeps_flushdbFrom (fuel : ℕ) : Keeps P (flushdbFrom fuel) := by
  induction fuel with
  | zero => exact .pure _
  | succ fuel ih =>
    refine .state fun w h => ?_
    have hround : Keeps P (do
        if ← flushRound (w.ldb.table.entries.take 10000) then
          if w.ldb.table.entries.length < 10000 then return 0 else flushdbFrom fuel
        else return -1 : M Int) :=
      .bind (keeps_flushRound hP _) fun _ =>
        .ite (fun _ => .ite (fun _ => .pure _) fun _ => ih) fun _ => .pure _
    exact hround w h

theorem keeps_delRangeFrom (last : UInt64) (fuel : ℕ) (start : UInt64) :
    Keeps P (delRangeFrom last fuel start) := by
  induction fuel generalizing start with
  | zero => exact .pure _
  | succ fuel ih =>
    exact .ite (fun _ => .bind (.write hP (delBatch_deletes last 1000 start)) fun _ =>
      .ite (fun _ => ih _) fun _ => .pure _) fun _ => .pure _

theorem keeps_flushdb : Keeps P flushdb :=
  .bind (.transaction hP (.state fun _ h => keeps_flushdbFrom hP _ _ h)) fun _ =>
    .bind (.state fun _ h => keeps_delRangeFrom hP _ _ _ _ h) fun _ => .pure _

end flushdb

end SSDBImpl

namespace Call
open SSDBImpl

def Writes : Call → Rec → Prop
  | hclear n => (Container.hash n).Writes
  | zfix n => Fixes n fun _ => True
  | flushdb => Deletes
  | c => fun r => ∃ C, c.container = some C ∧ C.Writes r

theorem keeps_run {c : Call} {P : SSDBImpl → Prop} (hP : Kept c.Writes P) : Keeps P c.run := by
  rcases Bool.eq_false_or_eq_true c.transactional with hc | hc
  · obtain ⟨C, hC⟩ := (transactional_iff c).mp hc
    intro w h
    rw [run_play hc w]
    refine Keeps.play hP ((inquiry_within hC w.ldb).imp fun p hp r hr => ?_) w h
    cases c <;> first | exact ⟨C, hC, hp r hr⟩ | exact absurd hC (by simp [container])
  · cases c with
    | hclear n => exact .map (.state fun w h => keeps_hclearFrom hP _ _ w h)
    | zfix n => exact .map (keeps_zfix hP fun _ _ _ _ => ⟨fun _ _ _ _ => trivial, fun _ _ _ => trivial⟩)
    | flushdb => exact .map (keeps_flushdb hP)
    | get | hget | zget => exact .map (keeps_getRecord hP _)
    | getbit =>
      exact .map (.bind (keeps_getRecord hP _) fun _ => .ite (fun _ => .pure _) fun _ =>
        .ite (fun _ => .pure _) fun _ => .pure _)
    | scan | rscan | hscan | hrscan => exact .map (.state fun _ h => h)
    | hlist | hrlist | zlist | zrlist | qlist | qrlist => exact .map (.state fun _ h => h)
    | hsize | zsize => exact .map (keeps_getCount hP _)
    | zrank | zrrank | zrange | zrrange => exact .map (.state fun _ h => h)
    | zscan | zrscan => exact .map (.bind (keeps_startScore hP _ _ _) fun _ => .state fun _ h => h)
    | qsize => exact .map (keeps_qsize hP _)
    | qfront | qback => exact .map (keeps_qpeek hP _ _)
    | qget =>
      exact .map (.bind (keeps_seqOf hP _ _) fun _ => .ite (fun _ => .pure _) fun _ =>
        .ite (fun _ => .pure _) fun _ => keeps_getRecord hP _)
    | qslice =>
      exact .map (.bind (keeps_qsliceBounds hP _ _ _) fun _ => .ite (fun _ => .pure _) fun _ =>
        .state fun w h => keeps_qsliceFrom hP _ _ _ _ _ w h)
    | keyRange => exact .map (.state fun _ h => h)
    | _ => exact Bool.noConfusion hc

theorem keeps_exec {c : Call} {P : SSDBImpl → Prop} (hP : Kept c.Writes P) (f : Faults)
    {w : SSDBImpl} (h : P w) : P (c.exec f w).2 :=
  hP.faults Faults.none (keeps_run hP _ (hP.faults f h))

theorem keeps_execAll {P : SSDBImpl → Prop} (hP : ∀ c : Call, Kept c.Writes P)
    (cs : List (Call × Faults)) {w : SSDBImpl} (h : P w) : P (execAll cs w).2 := by
  induction cs generalizing w with
  | nil => exact h
  | cons e cs ih => exact ih (keeps_exec (hP e.1) e.2 h)

end Call
