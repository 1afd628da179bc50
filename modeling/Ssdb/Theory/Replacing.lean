import Ssdb.Library.Trace
import Ssdb.Theory.Rebuilt

namespace Call
open SSDBImpl

def numbered : Call → Bool
  | qsetBySeq _ _ _ _ | qfix _ => true
  | c => c.plain

theorem numbered_cases {c : Call} (h : c.numbered = true) :
    (∃ n seq item t, c = qsetBySeq n seq item t) ∨ (∃ n, c = qfix n) ∨ c.plain = true := by
  rw [numbered.eq_def] at h
  split at h
  · exact .inl ⟨_, _, _, _, rfl⟩
  · exact .inr (.inl ⟨_, rfl⟩)
  · exact .inr (.inr h)

def next (e : Call × Faults) (w : SSDBImpl) : SSDBImpl := (e.1.exec e.2 w).2

variable {w : SSDBImpl} {c : Call}

theorem run_next (cs : List (Call × Faults)) (w : SSDBImpl) :
    Trace.run next cs w = (execAll cs w).2 := by
  induction cs generalizing w with
  | nil => rfl
  | cons e cs ih =>
    rw [Trace.run_cons, ih]
    rfl

theorem qsetBySeq_guarded (w : SSDBImpl) (n : Bytes) (seq : UInt64) (item : Bytes) (t : Byte) :
    ((qsetBySeqAsk n seq item t).map (Plan.map Reply.code)).Guarded .failed (Refused w) := by
  refine Inquiry.guarded_map ⟨refused_abort w [] rfl, fun s => ?_⟩
  refine Inquiry.guarded_ite trivial ⟨refused_abort w [] rfl, fun r => ?_⟩
  exact Inquiry.guarded_ite trivial (Inquiry.guarded_ite trivial trivial)

theorem exec_setBySeq (n : Bytes) (seq : UInt64) (item : Bytes) (t : Byte) (f : Faults)
    (w : SSDBImpl) :
    let c := qsetBySeq n seq item t
    (c.exec f w).1.ret = -1 ∧ (c.exec f w).2.ldb = w.ldb ∨
      (c.exec f w).1 = (c.exec .none w).1 ∧ (c.exec f w).2.ldb = (c.exec .none w).2.ldb := by
  intro c
  have hc : c.transactional = true := rfl
  have hplay := run_play hc { w with faults := f }
  have hplay0 := run_play hc { w with faults := .none }
  rw [Inquiry.play_apply] at hplay
  rw [Inquiry.play_answered _ rfl] at hplay0
  have hreply : (c.exec f w).1 = _ := congrArg (fun r => r.1) hplay
  have hldb : (c.exec f w).2.ldb = _ := congrArg (fun r => r.2.ldb) hplay
  have hreply0 : (c.exec .none w).1 = _ := congrArg (fun r => r.1) hplay0
  have hldb0 : (c.exec .none w).2.ldb = _ := congrArg (fun r => r.2.ldb) hplay0
  rw [hreply, hldb, hreply0, hldb0]
  rcases em ((c.inquiry w.ldb).Fails w.ldb.fetch .failed f.get) with hfails | hfails
  · exact .inl (Inquiry.guarded_fails (qsetBySeq_guarded _ n seq item t) hfails)
  · have hplan : (SSDBImpl.outcome { w with faults := f } (c.inquiry w.ldb)).1 =
        (c.inquiry w.ldb).answered w.ldb.fetch := Inquiry.resolve_answered hfails
    have hinquiry : (c.inquiry w.ldb).answered w.ldb.fetch =
        (qsetBySeqPlan w.ldb n seq item t).map Reply.code := by
      change ((qsetBySeqAsk n seq item t).map (Plan.map Reply.code)).answered w.ldb.fetch = _
      rw [Inquiry.answered_map]
      congr 1
      simp only [qsetBySeqAsk, qsetBySeqPlan, Inquiry.answered, Inquiry.answered_ite, fetch_qsize,
        fetch_seq]
    rw [hplan]
    dsimp only
    rw [hinquiry]
    simp only [qsetBySeqPlan, setItemPlan]
    split_ifs
    · exact .inr ⟨rfl, rfl⟩
    · exact .inr ⟨rfl, rfl⟩
    · exact .inr ⟨rfl, rfl⟩
    · exact .inr ⟨rfl, rfl⟩
    · rcases eq_or_ne f.write.head? (some true) with hw | hw
      · refine .inl ?_
        rw [Plan.map, Plan.run_commit_failed _ _ _ _ hw]
        exact ⟨rfl, rfl⟩
      · refine .inr ?_
        rw [Plan.map, Plan.run_commit _ _ _ _ hw, Plan.run_commit _ _ _ _ (by simp [Faults.none])]
        exact ⟨rfl, rfl⟩

end Call

namespace Queues
open Keys SSDBImpl Endian
open Call (execAll next)

variable {w : SSDBImpl} {Q : Queues} {n item : Bytes} {seq : UInt64} {t : Byte}

structure Replaces (r : Reply × SSDBImpl) (w : SSDBImpl) (n : Bytes) (seq : UInt64)
    (item : Bytes) : Prop where
  replaced : r.1.ret = 1 → ∃ front back : UInt64,
    w.ldb.table.get (encodeQitemKey n QFRONT_SEQ) = some (memory front) ∧
      w.ldb.table.get (encodeQitemKey n QBACK_SEQ) = some (memory back) ∧
      front ≤ seq ∧ seq ≤ back ∧
      r.2.ldb.data = Function.update w.ldb.data (encodeQitemKey n seq) (some item)
  untouched : r.1.ret ≠ 1 → (r.1.ret = 0 ∨ r.1.ret = -1) ∧ r.2.ldb = w.ldb

def Inside (w : SSDBImpl) (n : Bytes) (seq : UInt64) : Prop :=
  n.length ≤ SSDB_KEY_LEN_MAX →
    seq ≠ (readSeq w.ldb n QFRONT_SEQ).2 + (readQsize w.ldb n).toUInt64

def frontSeq (q : NumberedQueue) : ℕ := if q.items = [] then 0 else q.first

theorem frontSeq_bound (q : NumberedQueue) :
    frontSeq q + q.items.length ≤ 9223372036854775807 := by
  rw [frontSeq]
  split_ifs with hnil
  · simp [hnil]
  · exact (q.seated hnil).2

theorem readSeq_front (h : Stores w.ldb.data Q) (n : Bytes) :
    (readSeq w.ldb n QFRONT_SEQ).1 ≠ -1 ∧
      (readSeq w.ldb n QFRONT_SEQ).2 = UInt64.ofNat (frontSeq (Q n)) := by
  rw [frontSeq]
  split_ifs with hnil
  · have hread : readSeq w.ldb n QFRONT_SEQ = _ := readSeq_nil h .front hnil
    rw [hread]
    exact ⟨by decide, rfl⟩
  · have hread : readSeq w.ldb n QFRONT_SEQ = _ := readSeq_number h .front hnil
    rw [hread]
    exact ⟨(by decide : (1 : Int) ≠ -1), rfl⟩

theorem past_seq (h : Stores w.ldb.data Q) (n : Bytes) :
    (readSeq w.ldb n QFRONT_SEQ).2 + (readQsize w.ldb n).toUInt64 =
      UInt64.ofNat (frontSeq (Q n) + (Q n).items.length) := by
  have hsize : (Int64.ofNat (Q n).items.length).toUInt64 = UInt64.ofNat (Q n).items.length := rfl
  rw [(readSeq_front h n).2, readQsize_length h, hsize, UInt64.ofNat_add]

theorem inside_iff (h : Stores w.ldb.data Q) : Inside w n seq ↔
    (n.length ≤ SSDB_KEY_LEN_MAX → seq.toNat ≠ frontSeq (Q n) + (Q n).items.length) := by
  have hb := frontSeq_bound (Q n)
  rw [Inside, past_seq h, ne_eq, eq_ofNat_iff (by omega)]

theorem qsetBySeqPlan_eq (h : Stores w.ldb.data Q) (n : Bytes) (seq : UInt64) (item : Bytes) :
    qsetBySeqPlan w.ldb n seq item t =
      if frontSeq (Q n) ≤ seq.toNat ∧ seq.toNat ≤ frontSeq (Q n) + (Q n).items.length then
        setItemPlan n seq item t
      else .abort [] 0 := by
  have hb := frontSeq_bound (Q n)
  obtain ⟨hret, hfront⟩ := readSeq_front h n
  have hsize : readQsize w.ldb n ≠ -1 := by
    rw [readQsize_length h]
    exact ofNat_ne_neg_one (length_lt (Q n))
  have hout : (seq < (readSeq w.ldb n QFRONT_SEQ).2 ∨
      seq > (readSeq w.ldb n QFRONT_SEQ).2 + (readQsize w.ldb n).toUInt64) ↔
      ¬(frontSeq (Q n) ≤ seq.toNat ∧ seq.toNat ≤ frontSeq (Q n) + (Q n).items.length) := by
    rw [past_seq h, hfront, gt_iff_lt, UInt64.lt_iff_toNat_lt, UInt64.lt_iff_toNat_lt,
      ofNat_toNat (by omega), ofNat_toNat (by omega)]
    omega
  simp only [qsetBySeqPlan, if_neg hsize, if_neg hret, hout]
  split_ifs <;> rfl

theorem setItemPlan_long (hn : ¬n.length ≤ SSDB_KEY_LEN_MAX) :
    setItemPlan n seq item t = .abort [] (-1) := by
  simp only [setItemPlan, qsetOneDraft, if_pos (not_le.mp hn), if_true]

theorem exec_none (n : Bytes) (seq : UInt64) (item : Bytes) (t : Byte) (w : SSDBImpl) :
    let r := (qsetBySeqPlan w.ldb n seq item t).run { w with faults := Faults.none }
    ((Call.qsetBySeq n seq item t).exec .none w).1 = Reply.code r.1 ∧
      ((Call.qsetBySeq n seq item t).exec .none w).2.ldb = r.2.ldb := by
  have hplan := qsetBySeq_plan (w := { w with faults := Faults.none }) n seq item t rfl
  refine ⟨?_, ?_⟩
  · exact congrArg (fun r => Reply.code r.1) hplan
  · exact congrArg (fun r => r.2.ldb) hplan

theorem replaces_iff (h : Stores w.ldb.data Q) :
    Replaces ((Call.qsetBySeq n seq item t).exec .none w) w n seq item ↔ Inside w n seq := by
  obtain ⟨hreply, hldb⟩ := exec_none n seq item t w
  rw [qsetBySeqPlan_eq h] at hreply hldb
  rw [inside_iff h]
  split_ifs at hreply hldb with hin
  · by_cases hn : n.length ≤ SSDB_KEY_LEN_MAX
    · rw [setItemPlan_short hn, Plan.run_commit _ _ _ _ (by simp [Faults.none])] at hreply hldb
      have hone : ((Call.qsetBySeq n seq item t).exec .none w).1.ret = 1 := congrArg Reply.ret hreply
      have hdata : ((Call.qsetBySeq n seq item t).exec .none w).2.ldb.data =
          Function.update w.ldb.data (encodeQitemKey n seq) (some item) := by
        rw [hldb, SSDBImpl.committed_data _ fun r hr => (setRecs_on n seq item t r hr).onData]
        rfl
      simp only [hn, true_imp_iff]
      constructor
      · intro hr
        obtain ⟨front, back, hf, hb, hlow, hhigh, -⟩ := hr.replaced hone
        rw [qitem_get h] at hf hb
        rcases eq_or_ne (Q n).items [] with hnil | hne
        · rw [record_nil hnil] at hf
          exact absurd hf (by simp)
        · have hend : record (Q n) QBACK_SEQ.toNat = _ := record_end hne .back
          have hback := memory_injective (Option.some.inj (hend.symm.trans hb))
          have hbound := number_bounds hne .back
          have hs := (Q n).seated hne
          have hpos := List.length_pos_iff.mpr hne
          rw [UInt64.le_iff_toNat_le, ← hback, ofNat_toNat (by omega)] at hhigh
          simp only [Deque.number, Deque.last] at hhigh
          rw [frontSeq, if_neg hne]
          omega
      · intro hout
        refine ⟨fun _ => ?_, fun hnot => absurd hone hnot⟩
        have hne : (Q n).items ≠ [] := fun hnil => by
          rw [frontSeq, if_pos hnil, hnil, List.length_nil] at hin hout
          omega
        have hs := (Q n).seated hne
        rw [frontSeq, if_neg hne] at hin hout
        refine ⟨_, _, (qitem_get h n QFRONT_SEQ).trans (record_end hne .front),
          (qitem_get h n QBACK_SEQ).trans (record_end hne .back), ?_, ?_, hdata⟩
        · rw [UInt64.le_iff_toNat_le, ofNat_toNat (by simp only [Deque.number]; omega)]
          exact hin.1
        · rw [UInt64.le_iff_toNat_le, ofNat_toNat (by simp only [Deque.number, Deque.last]; omega)]
          simp only [Deque.number, Deque.last]
          omega
    · rw [setItemPlan_long hn] at hreply hldb
      refine iff_of_true ⟨fun h1 => ?_, fun _ => ⟨.inr ?_, hldb⟩⟩ fun h' => absurd h' hn
      · rw [hreply] at h1
        exact absurd h1 (by decide : ¬(-1 : Int) = 1)
      · rw [hreply]
        rfl
  · refine iff_of_true ⟨fun h1 => ?_, fun _ => ⟨.inl ?_, hldb⟩⟩ fun _ heq => hin (by omega)
    · rw [hreply] at h1
      exact absurd h1 (by decide : ¬(0 : Int) = 1)
    · rw [hreply]
      rfl

def ReplacesOnly (e : Call × Faults) (w : SSDBImpl) : Prop :=
  ∀ n seq item t, e.1 = .qsetBySeq n seq item t → Replaces (e.1.exec e.2 w) w n seq item

def StaysInside (e : Call × Faults) (w : SSDBImpl) : Prop :=
  ∀ n seq item t, e.1 = .qsetBySeq n seq item t → Inside w n seq

structure Orderly (w : SSDBImpl) : Prop where
  stores : ∃ Q, Stores w.ldb.data Q
  formed : Container.Formed w

theorem replacesOnly_step {e : Call × Faults} (h : Stores w.ldb.data Q) (he : StaysInside e w) :
    ReplacesOnly e w := by
  intro n seq item t hc
  have hnone : Replaces ((Call.qsetBySeq n seq item t).exec .none w) w n seq item :=
    (replaces_iff h).mpr (he n seq item t hc)
  rcases Call.exec_setBySeq n seq item t e.2 w with ⟨hret, hldb⟩ | ⟨hreply, hldb⟩
  · rw [hc]
    refine ⟨fun h1 => ?_, fun _ => ⟨.inr hret, hldb⟩⟩
    rw [hret] at h1
    exact absurd h1 (by decide)
  · rw [hc]
    constructor
    · rw [hreply, hldb]
      exact hnone.replaced
    · rw [hreply, hldb]
      exact hnone.untouched

theorem stores_replaced (h : Stores w.ldb.data Q) {r : Reply × SSDBImpl}
    (hr : Replaces r w n seq item) : ∃ Q', Stores r.2.ldb.data Q' := by
  rcases eq_or_ne r.1.ret 1 with h1 | h1
  · obtain ⟨front, back, hf, hb, hlow, hhigh, hdata⟩ := hr.replaced h1
    rw [qitem_get h] at hf hb
    rcases eq_or_ne (Q n).items [] with hnil | hne
    · rw [record_nil hnil] at hf
      exact absurd hf (by simp)
    · have hstart : record (Q n) QFRONT_SEQ.toNat = _ := record_end hne .front
      have hend : record (Q n) QBACK_SEQ.toNat = _ := record_end hne .back
      have hfront := memory_injective (Option.some.inj (hstart.symm.trans hf))
      have hback := memory_injective (Option.some.inj (hend.symm.trans hb))
      have hs := (Q n).seated hne
      have hpos := List.length_pos_iff.mpr hne
      rw [UInt64.le_iff_toNat_le, ← hfront, ofNat_toNat (by simp only [Deque.number]; omega)] at hlow
      rw [UInt64.le_iff_toNat_le, ← hback,
        ofNat_toNat (by simp only [Deque.number, Deque.last]; omega)] at hhigh
      simp only [Deque.number, Deque.last] at hlow hhigh
      have hseq : seq = UInt64.ofNat ((Q n).first + (seq.toNat - (Q n).first)) := by
        rw [eq_ofNat_iff (by omega)]
        omega
      have hset := stores_set (t := BinlogType.SYNC) h hne (i := seq.toNat - (Q n).first) (by omega) item
      rw [← hseq, setRecs_effect] at hset
      exact ⟨_, hdata ▸ hset⟩
  · exact ⟨Q, by rw [(hr.untouched h1).2]; exact h⟩

theorem stores_qfix (h : Orderly w) (n : Bytes) (f : Faults) :
    ∃ Q, Stores ((Call.qfix n).exec f w).2.ldb.data Q := by
  obtain ⟨Q, hQ⟩ := h.stores
  refine ⟨Q, ?_⟩
  rcases Call.exec_guarded (c := .qfix n) (w := w) rfl (fun _ => trivial) f with hldb | hldb
  · rw [hldb]
    exact hQ
  · have hcont := stores_clean hQ (shaped_numbered h.formed.table n)
    have hnamed : (Q n).items.length ≠ 0 → n.length ≤ SSDB_KEY_LEN_MAX :=
      fun h0 => hQ.named n (mt List.length_eq_zero_iff.mpr h0)
    obtain ⟨-, htable, -⟩ :=
      qfix_result (w := { w with faults := Faults.none }) rfl hnamed hcont
    have hsame : ((Call.qfix n).exec .none w).2.ldb.table = w.ldb.table :=
      htable.trans (rebuilt_same (stores_describes hQ n))
    have hdata : ((Call.qfix n).exec .none w).2.ldb.data = w.ldb.data :=
      congrArg dataOf hsame
    rw [hldb, hdata]
    exact hQ

theorem orderly_step {e : Call × Faults} (hc : e.1.numbered = true) (h : Orderly w)
    (he : StaysInside e w) : Orderly (next e w) := by
  refine ⟨?_, Container.formed_exec e.1 e.2 h.formed⟩
  obtain ⟨c, f⟩ := e
  obtain ⟨Q, hQ⟩ := h.stores
  rcases Call.numbered_cases hc with ⟨n, seq, item, t, rfl⟩ | ⟨n, rfl⟩ | hp
  · exact stores_replaced hQ (replacesOnly_step hQ he n seq item t rfl)
  · exact stores_qfix h n f
  · rcases exec_follows hp f hQ with hsame | hstep
    · exact ⟨_, hsame⟩
    · exact ⟨_, hstep⟩

/-- In a run whose writes by sequence number stay inside their queues, each of them only replaces,
and the records of every queue are consistent at its end; there the next one, with leveldb
answering, only replaces exactly when it stays inside too. -/
theorem qset_by_seq_replaces (enabled : Bool) (capacity : Int32) (cs : List (Call × Faults))
    (hcs : ∀ e ∈ cs, e.1.numbered = true) :
    let w := (execAll cs (fresh enabled capacity)).2
    Trace.Along next StaysInside cs (fresh enabled capacity) →
      Trace.Along next ReplacesOnly cs (fresh enabled capacity) ∧
        (∀ name, Consistent w.ldb.table name) ∧
        ∀ name seq item t, Replaces ((Call.qsetBySeq name seq item t).exec .none w) w name seq item ↔
          Inside w name seq := by
  intro w hinside
  have hfresh : Orderly (fresh enabled capacity) :=
    ⟨⟨_, stores_empty⟩, Container.formed_fresh enabled capacity⟩
  have halong := Trace.Along.and (Trace.along_of_forall hcs) hinside
  have hall : Trace.Along next ReplacesOnly cs (fresh enabled capacity) :=
    halong.under hfresh fun e w he h => by
      obtain ⟨Q, hQ⟩ := h.stores
      exact ⟨replacesOnly_step hQ he.2, orderly_step he.1 h he.2⟩
  have hend := halong.invariant (fun e w he h => orderly_step he.1 h he.2) hfresh
  rw [Call.run_next] at hend
  obtain ⟨Q, hQ⟩ := hend.stores
  exact ⟨hall, fun name => consistent hQ name, fun name seq item t => replaces_iff hQ⟩

theorem qset_by_seq_replaces_pushed :
    let cs := [(Call.qpushBack [113] [97] 1, Faults.none), (.qsetBySeq [113] QITEM_SEQ_INIT [98] 1, .none)]
    Consistent (execAll cs (fresh true 1000)).2.ldb.table [113] := by
  intro cs
  have hinside : Trace.Along next StaysInside cs (fresh true 1000) := by
    refine ⟨fun _ _ _ _ h => Call.noConfusion h, ?_, trivial⟩
    intro n seq item t h
    obtain ⟨rfl, rfl, -, -⟩ := Call.qsetBySeq.inj h
    exact fun _ => by decide +kernel
  exact (qset_by_seq_replaces true 1000 cs (by decide) hinside).2.1 [113]

theorem empty_queue_written :
    let r := (Call.qsetBySeq [113] 0 [97] 1).exec .none (fresh true 1000)
    r.1.ret = 1 ∧ ¬Consistent r.2.ldb.table [113] := by
  intro r
  refine ⟨by decide +kernel, ?_⟩
  rintro (⟨-, hnone⟩ | ⟨size, front, back, -, -, hsize, -⟩)
  · have hthere : r.2.ldb.table.get (encodeQitemKey [113] 0) = some [97] := by decide +kernel
    rw [hnone 0] at hthere
    exact absurd hthere (by simp)
  · have hnone : r.2.ldb.table.get (encodeQsizeKey [113]) = none := by decide +kernel
    rw [hsize] at hnone
    exact absurd hnone (by simp)

end Queues
