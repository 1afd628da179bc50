import Ssdb.Plan.Requests

def Respects {α : Type} (x : M α) : Prop :=
  ∀ w w' : SSDBImpl, w.opened = w'.opened →
    (x w).1 = (x w').1 ∧ (x w).2.opened = (x w').2.opened

namespace Respects
variable {α β : Type} {w w' : SSDBImpl}

theorem parts (h : w.opened = w'.opened) :
    w.ldb = w'.ldb ∧ w.binlogs.begin = w'.binlogs.begin ∧ w.faults = w'.faults := by
  simpa only [SSDBImpl.opened, SSDBImpl.mk.injEq] using h

theorem seqs (h : w.binlogs.begin = w'.binlogs.begin) :
    w.binlogs.minSeq = w'.binlogs.minSeq ∧ w.binlogs.lastSeq = w'.binlogs.lastSeq := by
  simp only [BinlogQueue.begin, BinlogQueue.mk.injEq] at h
  exact ⟨h.1, h.2.1⟩

theorem pure (a : α) : Respects (pure a : M α) := fun _ _ h => ⟨rfl, h⟩

theorem bind {x : M α} {f : α → M β} (hx : Respects x) (hf : ∀ a, Respects (f a)) :
    Respects (x >>= f) := by
  intro w w' h
  obtain ⟨h1, h2⟩ := hx w w' h
  simp only [M.bind_apply, h1]
  exact hf _ _ _ h2

theorem map {f : α → β} {x : M α} (hx : Respects x) : Respects (f <$> x) := by
  intro w w' h
  obtain ⟨h1, h2⟩ := hx w w' h
  exact ⟨congrArg f h1, h2⟩

theorem ite {c : Prop} [Decidable c] {x y : M α} (hx : Respects x) (hy : Respects y) :
    Respects (if c then x else y) := by
  split_ifs
  · exact hx
  · exact hy

theorem state {g : SSDBImpl → M α} (hg : ∀ w, Respects (g w))
    (heq : ∀ w w' : SSDBImpl, w.opened = w'.opened → g w = g w') :
    Respects (MonadState.get >>= g) := by
  intro w w' h
  simp only [M.bind_apply, M.get_apply, heq w w' h]
  exact hg w' w w' h

theorem reads {f : SSDBImpl → α} (hf : ∀ w w' : SSDBImpl, w.ldb = w'.ldb → f w = f w') :
    Respects (MonadState.get >>= fun w => Pure.pure (f w)) :=
  state (fun _ => pure _) fun w w' h => by rw [hf w w' (parts h).1]

theorem get (key : Bytes) : Respects (LevelDB.Get key) := by
  intro w w' h
  obtain ⟨h1, h2, h3⟩ := parts h
  simp only [LevelDB.Get, SSDBImpl.opened, h1, h2, h3, and_self]

theorem write (batch : List BatchOp) : Respects (LevelDB.Write batch) := by
  intro w w' h
  obtain ⟨h1, h2, h3⟩ := parts h
  simp only [LevelDB.Write, h3]
  split_ifs <;> simp only [SSDBImpl.opened, h1, h2, and_self]

theorem transaction (body : M α) : Respects (Binlogs.transaction body) := by
  intro w w' h
  simp only [SSDBImpl.opened] at h
  simp only [Binlogs.transaction, h, and_self]

end Respects

namespace SSDBImpl

theorem respects_getRecord (dbkey : Bytes) : Respects (getRecord dbkey) := by
  refine .bind (.get dbkey) fun r => ?_
  cases r <;> exact .pure _

theorem respects_getCount (sizeKey : Bytes) : Respects (getCount sizeKey) := by
  refine .bind (.get sizeKey) fun r => ?_
  cases r with
  | found val => exact .ite (.pure _) (.pure _)
  | notFound => exact .pure _
  | failed => exact .pure _

theorem respects_hscan (name start stop : Bytes) (limit : UInt64) :
    Respects (hscan name start stop limit) := .reads fun w w' h => by rw [h]

theorem respects_hclearRound (name : Bytes) (t : Byte) (es : List (Bytes × Bytes)) (num : ℕ) :
    Respects (hclearRound name t es num) := by
  induction es generalizing num with
  | nil => exact .pure _
  | cons e es ih => exact .bind (.transaction _) fun r => .ite (.pure _) (ih _)

theorem respects_hclearFrom (name : Bytes) (fuel count : ℕ) :
    Respects (hclearFrom name fuel count) := by
  induction fuel generalizing count with
  | zero => exact .pure _
  | succ fuel ih =>
    refine .bind (respects_hscan _ _ _ _) fun it => .bind (respects_hclearRound _ _ _ _) fun r => ?_
    match r with
    | none => exact .pure _
    | some 0 => exact .pure _
    | some (n + 1) => exact ih _

theorem respects_delRangeFrom (last : UInt64) (fuel : ℕ) (start : UInt64) :
    Respects (Binlogs.delRangeFrom last fuel start) := by
  induction fuel generalizing start with
  | zero => exact .pure _
  | succ fuel ih => exact .ite (.bind (.write _) fun ok => .ite (ih _) (.pure _)) (.pure _)

theorem respects_flush : Respects Binlogs.flush :=
  .state (fun w => respects_delRangeFrom _ _ _) fun w w' h => by
    obtain ⟨h1, h2⟩ := Respects.seqs (Respects.parts h).2.1
    simp only [h1, h2]

theorem respects_flushdb : Respects flushdb :=
  .bind (.transaction _) fun _ => .bind respects_flush fun _ => .pure _

theorem respects_startScore (name key scoreStart : Bytes) :
    Respects (startScore name key scoreStart) :=
  .ite (.bind (respects_getRecord _) fun _ => .pure _) (.pure _)

theorem respects_qgetUint64 (name : Bytes) (seq : UInt64) : Respects (qgetUint64 name seq) :=
  .bind (respects_getRecord _) fun _ => .ite (.ite (.pure _) (.pure _)) (.pure _)

theorem respects_qsize (name : Bytes) : Respects (qsize name) := by
  refine .bind (.get _) fun r => ?_
  cases r with
  | found val => exact .ite (.pure _) (.pure _)
  | notFound => exact .pure _
  | failed => exact .pure _

theorem respects_qpeek (endSeq : UInt64) (name : Bytes) : Respects (qpeek endSeq name) :=
  .bind (respects_qgetUint64 _ _) fun _ =>
    .ite (.pure _) (.ite (.pure _) (respects_getRecord _))

theorem respects_seqOf (name : Bytes) (index : Int64) : Respects (seqOf name index) :=
  .ite (.bind (respects_qgetUint64 _ _) fun _ => .pure _)
    (.bind (respects_qgetUint64 _ _) fun _ => .pure _)

theorem respects_qget (name : Bytes) (index : Int64) : Respects (qget name index) :=
  .bind (respects_seqOf _ _) fun _ => .ite (.pure _) (.ite (.pure _) (respects_getRecord _))

theorem respects_qsliceBounds (name : Bytes) (first last : Int64) :
    Respects (qsliceBounds name first last) :=
  .ite (.bind (respects_qgetUint64 _ _) fun _ => .pure _)
    (.ite (.bind (respects_qgetUint64 _ _) fun _ => .pure _)
      (.bind (respects_qgetUint64 _ _) fun _ =>
        .ite (.pure _) (.bind (respects_qgetUint64 _ _) fun _ => .pure _)))

theorem respects_qsliceFrom (name : Bytes) (seqEnd : UInt64) (fuel : ℕ) (seq : UInt64)
    (list : List Bytes) : Respects (qsliceFrom name seqEnd fuel seq list) := by
  induction fuel generalizing seq list with
  | zero => exact .pure _
  | succ fuel ih =>
    exact .ite (.bind (respects_getRecord _) fun _ => .ite (.pure _) (.ite (.pure _) (ih _ _)))
      (.pure _)

theorem respects_qslice (name : Bytes) (first last : Int64) :
    Respects (qslice name first last) := by
  refine .bind (respects_qsliceBounds _ _ _) fun _ => .ite (.pure _) ?_
  refine .state (fun w => respects_qsliceFrom _ _ _ _ _) fun w w' h => ?_
  rw [(Respects.parts h).1]

end SSDBImpl

namespace Call
open SSDBImpl

theorem respects_run (c : Call) : Respects c.run := by
  have hguard {α : Type} {p q : Prop} [Decidable p] [Decidable q] {a b : α} {x : M α} :
      Respects (if p then pure a else if q then pure b else Binlogs.transaction x) :=
    .ite (.pure _) (.ite (.pure _) (.transaction _))
  cases c with
  | set | setnx | getset | setbit => exact .map hguard
  | del | incr => exact .map (.ite (.pure _) (.transaction _))
  | multiSet | multiDel | hset | hdel | hincr | zset | zdel | zincr => exact .map (.transaction _)
  | qpushFront | qpushBack | qpopFront | qpopBack | qset | qsetBySeq => exact .map (.transaction _)
  | qfix | zfix => exact .map (.transaction _)
  | hclear name =>
    refine .map (.state (fun w => respects_hclearFrom _ _ _) fun w w' h => ?_)
    rw [(Respects.parts h).1]
  | flushdb => exact .map respects_flushdb
  | get | hget | zget => exact .map (respects_getRecord _)
  | getbit => exact .map (.bind (respects_getRecord _) fun _ => .ite (.pure _) (.ite (.pure _) (.pure _)))
  | scan | rscan | hscan | hrscan => exact .map (.reads fun w w' h => by rw [h])
  | hlist | hrlist | zlist | zrlist | qlist | qrlist => exact .map (.reads fun w w' h => by rw [h])
  | hsize | zsize => exact .map (respects_getCount _)
  | zrank | zrrank | zrange | zrrange => exact .map (.reads fun w w' h => by rw [h])
  | zscan | zrscan =>
    exact .map (.bind (respects_startScore _ _ _) fun _ => .reads fun w w' h => by rw [h])
  | qsize => exact .map (respects_qsize _)
  | qfront | qback => exact .map (respects_qpeek _ _)
  | qget => exact .map (respects_qget _ _)
  | qslice => exact .map (respects_qslice _ _ _)
  | keyRange => exact .map (.reads fun w w' h => by rw [h])

def uncommitted (c : Call) (w : SSDBImpl) : Prop :=
  (c.run { w with faults := ⟨[], [false]⟩ }).2.faults.write = [false]

end Call

namespace Plan
variable {α β : Type}

def Reports (good : α → Prop) : Plan α → Prop
  | commit _ ok _ => good ok
  | _ => True

theorem reports_map {good : β → Prop} {f : α → β} {p : Plan α}
    (h : p.Reports (fun a => good (f a))) : (p.map f).Reports good := by
  cases p <;> exact h

theorem reports_settle {draft : Int × List Rec} {count : List Rec} :
    (SSDBImpl.settlePlan draft count).Reports (· ≠ -1) := by
  rcases lt_or_ge draft.1 0 with h | h
  · rw [SSDBImpl.settlePlan, if_pos h]
    trivial
  · rw [SSDBImpl.settlePlan, if_neg (not_lt.mpr h)]
    intro h'
    omega

end Plan

namespace SSDBImpl

theorem readRecord_ret (db : LevelDB) (key : Bytes) : (db.readRecord key).1 ≠ -1 := by
  rw [LevelDB.readRecord]
  cases db.table.get key <;> simp

theorem reports_incrReply {p : Plan Int} (newVal : Int64) :
    (p.map (incrReply newVal)).Reports (·.1 ≠ -1) ↔ p.Reports (· ≠ -1) := by
  cases p with
  | reject r => rfl
  | abort recs r => rfl
  | commit recs ok fail =>
    simp only [Plan.map, Plan.Reports, incrReply]
    split_ifs with h <;> simp [h]

theorem reports_multiSet (kvs : List (Bytes × Bytes)) (t : Byte) :
    (multiSetPlan kvs t).Reports (· ≠ -1) := by
  have key (count : ℕ) (recs : List Rec) :
      (multiSetPlanFrom count t recs kvs).Reports (· ≠ -1) := by
    induction kvs generalizing recs with
    | nil =>
      intro h
      omega
    | cons e kvs ih =>
      rw [multiSetPlanFrom]
      split_ifs
      · trivial
      · exact ih _
  exact key _ _

theorem reports_qpush (db : LevelDB) (name item : Bytes) (endSeq : UInt64) (t : Byte) :
    (qpushPlan db name item endSeq t).Reports (·.toInt ≠ -1) := by
  simp only [qpushPlan]
  split_ifs with h1 h2 h3 h4 h5
  · trivial
  · trivial
  · trivial
  · trivial
  · trivial
  · intro h
    exact h5 (Int64.toInt_inj.mp h)

theorem reports_qpop (db : LevelDB) (name : Bytes) (endSeq : UInt64) (t : Byte) :
    (qpopPlan db name endSeq t).Reports (·.1 ≠ -1) := by
  have hone : (1 : Int) ≠ -1 := by decide
  unfold qpopPlan
  extract_lets found item count recs seq moved
  split_ifs
  · trivial
  · trivial
  · trivial
  · trivial
  · trivial
  · trivial
  · exact hone
  · exact hone

theorem reports_setItem (name : Bytes) (seq : UInt64) (item : Bytes) (t : Byte) :
    (setItemPlan name seq item t).Reports (· ≠ -1) := by
  simp only [setItemPlan]
  split_ifs <;> simp [Plan.Reports]

end SSDBImpl

namespace Call
open SSDBImpl

variable {w : SSDBImpl}

theorem exists_plan {c : Call} (hc : c.transactional = true) (db : LevelDB) :
    ∃ p : Plan Reply, p.Reports (·.ret ≠ -1) ∧
      ∀ w : SSDBImpl, w.ldb = db → w.faults.get = [] → c.run w = p.run w := by
  have key {α : Type} {f : α → Reply} {x : M α} (p : LevelDB → Plan α)
      (hx : ∀ w : SSDBImpl, w.faults.get = [] → x w = (p w.ldb).run w)
      (hr : (p db).Reports (fun a => (f a).ret ≠ -1)) :
      ∃ p : Plan Reply, p.Reports (·.ret ≠ -1) ∧
        ∀ w : SSDBImpl, w.ldb = db → w.faults.get = [] → (f <$> x) w = p.run w := by
    refine ⟨(p db).map f, Plan.reports_map hr, ?_⟩
    rintro w rfl h
    rw [M.map_apply, hx w h, Plan.run_map]
  cases c with
  | set k v t =>
    refine key (fun _ => setPlan k v t) (fun w _ => set_plan k v t) ?_
    simp only [setPlan]
    split_ifs <;> simp [Plan.Reports, Reply.code]
  | setnx k v t =>
    refine key (setnxPlan · k v t) (fun w => setnx_plan k v t) ?_
    simp only [setnxPlan]
    split_ifs <;> simp [Plan.Reports, Reply.code]
  | getset k v t =>
    refine key (getsetPlan · k v t) (fun w => getset_plan k v t) ?_
    simp only [getsetPlan]
    split_ifs
    · trivial
    · trivial
    · exact readRecord_ret _ _
  | del k t =>
    refine key (fun _ => delPlan k t) (fun w _ => del_plan k t) ?_
    simp only [delPlan]
    split_ifs <;> simp [Plan.Reports, Reply.code]
  | incr k amount t =>
    refine key (incrPlan · k amount t) (fun w => incr_plan k amount t) ?_
    simp only [incrPlan, storePlan]
    split_ifs
    · trivial
    · cases db.table.get (Keys.encodeKvKey k) with
      | none => simp [Plan.Reports, Reply.ofNewVal]
      | some old =>
        dsimp only
        split_ifs <;> simp [Plan.Reports, Reply.ofNewVal]
  | setbit k bitoffset on t =>
    refine key (setbitPlan · k bitoffset on t) (fun w => setbit_plan k bitoffset on t) ?_
    simp only [setbitPlan]
    split_ifs
    · trivial
    · trivial
    · simp only [Plan.Reports, Reply.code]
      omega
  | multiSet kvs t =>
    exact key (fun _ => multiSetPlan kvs t) (fun w _ => multiSet_plan kvs t) (reports_multiSet kvs t)
  | multiDel keys t =>
    refine key (fun _ => multiDelPlan keys t) (fun w _ => multiDel_plan keys t) ?_
    simp only [multiDelPlan, Plan.Reports, Reply.code]
    omega
  | hset n k v t => exact key (hsetPlan · n k v t) (fun w => hset_plan n k v t) Plan.reports_settle
  | hdel n k t => exact key (hdelPlan · n k t) (fun w => hdel_plan n k t) Plan.reports_settle
  | hincr n k amount t =>
    refine key (hincrPlan · n k amount t) (fun w => hincr_plan n k amount t) ?_
    simp only [hincrPlan]
    cases db.table.get (Keys.encodeHashKey n k) with
    | none => exact (reports_incrReply amount).mpr Plan.reports_settle
    | some old =>
      dsimp only
      split_ifs
      · exact (reports_incrReply _).mpr Plan.reports_settle
      · trivial
  | zset n k v t => exact key (zsetPlan · n k v t) (fun w => zset_plan n k v t) Plan.reports_settle
  | zdel n k t => exact key (zdelPlan · n k t) (fun w => zdel_plan n k t) Plan.reports_settle
  | zincr n k amount t =>
    exact key (zincrPlan · n k amount t) (fun w => zincr_plan n k amount t)
      ((reports_incrReply _).mpr Plan.reports_settle)
  | qpushFront n item t =>
    exact key (qpushPlan · n item _ t) (fun w => qpush_plan n item _ t) (reports_qpush _ _ _ _ _)
  | qpushBack n item t =>
    exact key (qpushPlan · n item _ t) (fun w => qpush_plan n item _ t) (reports_qpush _ _ _ _ _)
  | qpopFront n t =>
    exact key (qpopPlan · n _ t) (fun w => qpop_plan n _ t) (reports_qpop _ _ _ _)
  | qpopBack n t =>
    exact key (qpopPlan · n _ t) (fun w => qpop_plan n _ t) (reports_qpop _ _ _ _)
  | qset n index item t =>
    refine key (qsetPlan · n index item t) (fun w => qset_plan n index item t) ?_
    simp only [qsetPlan]
    split_ifs <;> first | trivial | exact reports_setItem _ _ _ _
  | qsetBySeq n seq item t =>
    refine key (qsetBySeqPlan · n seq item t) (fun w => qsetBySeq_plan n seq item t) ?_
    simp only [qsetBySeqPlan]
    split_ifs <;> first | trivial | exact reports_setItem _ _ _ _
  | qfix n =>
    refine key (qfixPlan · n) (fun w _ => qfix_plan n) ?_
    simp only [qfixPlan]
    cases qfixScan (qfixEntries db n) ⟨0, 0, 0⟩ with
    | none => trivial
    | some f =>
      dsimp only
      split_ifs <;> simp [Plan.Reports, Reply.code]
  | _ => exact absurd hc (by simp [transactional])

def Alike (w w' : SSDBImpl) : Prop :=
  w.ldb = w'.ldb ∧ w.binlogs.begin = w'.binlogs.begin

theorem execAll_alike (cs : List (Call × Faults)) {w w' : SSDBImpl} (h : Alike w w') :
    (execAll cs w).1 = (execAll cs w').1 ∧ Alike (execAll cs w).2 (execAll cs w').2 := by
  induction cs generalizing w w' with
  | nil => exact ⟨rfl, h⟩
  | cons e cs ih =>
    obtain ⟨c, f⟩ := e
    have hopened : SSDBImpl.opened { w with faults := f } = SSDBImpl.opened { w' with faults := f } := by
      simp only [SSDBImpl.opened, h.1, h.2]
    obtain ⟨hr, hw⟩ := c.respects_run _ _ hopened
    obtain ⟨h1, h2, -⟩ := Respects.parts hw
    have hstep : Alike (c.exec f w).2 (c.exec f w').2 := ⟨h1, h2⟩
    obtain ⟨hrs, hend⟩ := ih hstep
    simp only [execAll]
    exact ⟨by rw [hrs]; exact congrArg (· :: _) hr, hend⟩

def LeavesNoTrace (c : Call) (f : Faults) (w : SSDBImpl) : Prop :=
  (c.exec f w).2.ldb = w.ldb ∧ (c.exec f w).2.binlogs.lastSeq = w.binlogs.lastSeq ∧
    ∀ cs, (execAll cs (c.exec f w).2).1 = (execAll cs w).1 ∧
      (execAll cs (c.exec f w).2).2.ldb = (execAll cs w).2.ldb ∧
      (execAll cs (c.exec f w).2).2.binlogs.lastSeq = (execAll cs w).2.binlogs.lastSeq

theorem leavesNoTrace_of_alike {c : Call} {f : Faults} (h : Alike (c.exec f w).2 w) :
    c.LeavesNoTrace f w := by
  refine ⟨h.1, (Respects.seqs h.2).2, fun cs => ?_⟩
  obtain ⟨hr, hend⟩ := execAll_alike cs h
  exact ⟨hr, hend.1, (Respects.seqs hend.2).2⟩

theorem alike_of_opened {w w' : SSDBImpl} (h : w.opened = w'.opened) : Alike w w' :=
  ⟨(Respects.parts h).1, (Respects.parts h).2.1⟩

theorem abandoned_alike (w : SSDBImpl) (recs : List Rec) : Alike (w.abandoned recs) w :=
  alike_of_opened (w.abandoned_opened recs)

theorem plan_alike {α : Type} {p : Plan α} {good : α → Prop} (hp : p.Reports good)
    (h : ¬good (p.run w).1 ∨ ∀ recs ok fail, p ≠ .commit recs ok fail) :
    Alike (p.run w).2 w := by
  cases p with
  | reject r => exact ⟨rfl, rfl⟩
  | abort recs r => exact abandoned_alike w recs
  | commit recs ok fail =>
    rcases h with h | h
    · by_cases hw : w.faults.write.head? = some true
      · rw [Plan.run_commit_failed w recs ok fail hw]
        exact abandoned_alike w recs
      · rw [Plan.run_commit w recs ok fail hw] at h
        exact absurd hp h
    · exact absurd rfl (h recs ok fail)

theorem commit_consumes {α : Type} (recs : List Rec) (ok fail : α)
    (hw : w.faults.write = [false]) :
    ((Plan.commit recs ok fail).run w).2.faults.write = [] := by
  rw [Plan.run_commit w recs ok fail (by simp [hw])]
  simp [SSDBImpl.committed, hw]

theorem call_leaves_no_trace {c : Call} (hc : c.transactional = true) (outcomes : List Bool)
    (h : (c.exec ⟨[], outcomes⟩ w).1.ret = -1 ∨ c.uncommitted w) :
    c.LeavesNoTrace ⟨[], outcomes⟩ w := by
  obtain ⟨p, hr, hp⟩ := exists_plan hc w.ldb
  apply leavesNoTrace_of_alike
  have hrun := hp { w with faults := ⟨[], outcomes⟩ } rfl rfl
  have hback : Alike (p.run { w with faults := ⟨[], outcomes⟩ }).2 { w with faults := ⟨[], outcomes⟩ } := by
    refine plan_alike hr ?_
    rcases h with h | h
    · refine .inl (not_not.mpr ?_)
      rw [← hrun]
      exact h
    · refine .inr fun recs ok fail hcommit => ?_
      have hleft : (p.run { w with faults := ⟨[], [false]⟩ }).2.faults.write = [false] := by
        rw [← hp { w with faults := ⟨[], [false]⟩ } rfl rfl]
        exact h
      rw [hcommit, commit_consumes recs ok fail rfl] at hleft
      exact List.cons_ne_nil _ _ hleft.symm
  rw [← hrun] at hback
  exact hback

theorem multiSetPlanFrom_invalid (count : Int) (t : Byte) (kvs : List (Bytes × Bytes))
    (h : ∃ e ∈ kvs, e.1 = [] ∨ e.1.length > Keys.SSDB_KEY_LEN_MAX) (recs : List Rec) :
    ∃ recs', multiSetPlanFrom count t recs kvs = .abort recs' 0 := by
  induction kvs generalizing recs with
  | nil => simp at h
  | cons e kvs ih =>
    obtain ⟨key, val⟩ := e
    rw [multiSetPlanFrom]
    split_ifs with hkey
    · exact ⟨recs, rfl⟩
    · obtain ⟨e, he, hbad⟩ := h
      rcases List.mem_cons.mp he with rfl | he
      · exact absurd hbad hkey
      · exact ih ⟨e, he, hbad⟩ _

theorem multiSet_uncommitted (t : Byte) {kvs : List (Bytes × Bytes)}
    (h : ∃ e ∈ kvs, e.1 = [] ∨ e.1.length > Keys.SSDB_KEY_LEN_MAX) :
    (multiSet kvs t).uncommitted w := by
  obtain ⟨recs, hrecs⟩ := multiSetPlanFrom_invalid kvs.length t kvs h []
  have hplan : multiSetPlan kvs t = .abort recs 0 := hrecs
  simp only [uncommitted, run, M.map_apply, multiSet_plan, hplan, Plan.run_abort]
  rfl

/-- A single-transaction write that returns `-1`, or returns before its commit, leaves no trace,
whatever the outcomes of the leveldb writes; a `multiSet` with a key it refuses is one. -/
theorem failed_calls_leave_no_trace (w : SSDBImpl) (outcomes : List Bool) :
    (∀ c : Call, c.transactional = true →
      (c.exec ⟨[], outcomes⟩ w).1.ret = -1 ∨ c.uncommitted w → c.LeavesNoTrace ⟨[], outcomes⟩ w) ∧
    ∀ (kvs : List (Bytes × Bytes)) (t : Byte),
      (∃ e ∈ kvs, e.1 = [] ∨ e.1.length > Keys.SSDB_KEY_LEN_MAX) →
        (multiSet kvs t).LeavesNoTrace ⟨[], outcomes⟩ w :=
  ⟨fun _ hc h => call_leaves_no_trace hc outcomes h,
    fun _ t h => call_leaves_no_trace rfl outcomes (.inr (multiSet_uncommitted t h))⟩

theorem failed_set_leaves_no_trace :
    (set [107] [118] 1).LeavesNoTrace ⟨[], [true]⟩ (SSDBImpl.fresh true 1000) :=
  (failed_calls_leave_no_trace (SSDBImpl.fresh true 1000) [true]).1 (set [107] [118] 1) rfl
    (.inl (by decide))

end Call
