import Ssdb.Theory.QueueRuns

namespace Call

def onQueue : Call → Bool
  | qpushFront _ _ _ | qpushBack _ _ _ | qpopFront _ _ | qpopBack _ _ | qset _ _ _ _ => true
  | qfront _ | qback _ | qsize _ => true
  | _ => false

end Call

namespace Queues
open Keys SSDBImpl Endian

def answer (Q : Queues) : Call → Reply × Queues
  | .qpushFront n item _ => (.code (Q.pushReply n .front item).toInt, Q.afterPush n .front item)
  | .qpushBack n item _ => (.code (Q.pushReply n .back item).toInt, Q.afterPush n .back item)
  | .qpopFront n _ => (.ofOut (Q.popReply n .front), Q.afterPop n .front)
  | .qpopBack n _ => (.ofOut (Q.popReply n .back), Q.afterPop n .back)
  | .qset n index item _ => (.code (Q.setReply n index), Q.afterSet n index item)
  | .qfront n => (.ofOut (Q.peekReply n .front), Q)
  | .qback n => (.ofOut (Q.peekReply n .back), Q)
  | .qsize n => (.code (Int64.ofNat (Q n).items.length).toInt, Q)
  | _ => (.code 0, Q)

def answerAll : List Call → Queues → List Reply × Queues
  | [], Q => ([], Q)
  | c :: cs, Q =>
    let (r, Q) := Q.answer c
    let (rs, Q) := answerAll cs Q
    (r :: rs, Q)

variable {w : SSDBImpl} {Q : Queues}

theorem exec_result {c : Call} (hc : c.onQueue = true) (h : Stores w.ldb.data Q) :
    (c.exec .none w).1 = (Q.answer c).1 ∧ Stores (c.exec .none w).2.ldb.data (Q.answer c).2 := by
  have h0 : Stores ({ w with faults := Faults.none } : SSDBImpl).ldb.data Q := h
  cases c with
  | qpushFront n item t =>
    obtain ⟨hr, hs⟩ := qpush_result (t := t) item .front h0 rfl
    exact ⟨congrArg (fun r : Int64 => Reply.code r.toInt) hr, hs⟩
  | qpushBack n item t =>
    obtain ⟨hr, hs⟩ := qpush_result (t := t) item .back h0 rfl
    exact ⟨congrArg (fun r : Int64 => Reply.code r.toInt) hr, hs⟩
  | qpopFront n t =>
    obtain ⟨hr, hs⟩ := qpop_result (t := t) .front h0 rfl
    exact ⟨congrArg Reply.ofOut hr, hs⟩
  | qpopBack n t =>
    obtain ⟨hr, hs⟩ := qpop_result (t := t) .back h0 rfl
    exact ⟨congrArg Reply.ofOut hr, hs⟩
  | qset n index item t =>
    obtain ⟨hr, hs⟩ := qset_result (t := t) index item h0 rfl
    exact ⟨congrArg Reply.code hr, hs⟩
  | qfront n =>
    obtain ⟨hr, hs⟩ := qpeek_result (n := n) .front h0 rfl
    exact ⟨congrArg Reply.ofOut hr, hs⟩
  | qback n =>
    obtain ⟨hr, hs⟩ := qpeek_result (n := n) .back h0 rfl
    exact ⟨congrArg Reply.ofOut hr, hs⟩
  | qsize n =>
    obtain ⟨hr, hs⟩ := qsize_result (n := n) h0 rfl
    exact ⟨congrArg (fun r : Int64 => Reply.code r.toInt) hr, hs⟩
  | _ => exact absurd hc (by simp [Call.onQueue])

theorem execAll_result {cs : List Call} (hcs : ∀ c ∈ cs, c.onQueue = true)
    (h : Stores w.ldb.data Q) :
    (Call.execAll (cs.map (fun c => (c, Faults.none))) w).1 = (answerAll cs Q).1 ∧
      Stores (Call.execAll (cs.map (fun c => (c, Faults.none))) w).2.ldb.data
        (answerAll cs Q).2 := by
  induction cs generalizing w Q with
  | nil => exact ⟨rfl, h⟩
  | cons c cs ih =>
    obtain ⟨hr, hs⟩ := exec_result (hcs c (by simp)) h
    obtain ⟨hrs, hss⟩ := ih (fun c' h' => hcs c' (by simp [h'])) hs
    exact ⟨List.cons_eq_cons.mpr ⟨hr, hrs⟩, hss⟩

def Consistent (t : OrdMap Bytes Bytes) (n : Bytes) : Prop :=
  t.get (encodeQsizeKey n) = none ∧ (∀ seq, t.get (encodeQitemKey n seq) = none) ∨
    ∃ (size : ℕ) (front back : UInt64), 1 ≤ size ∧ back.toNat = front.toNat + size - 1 ∧
      t.get (encodeQsizeKey n) = some (memory (Int64.ofNat size).toUInt64) ∧
      t.get (encodeQitemKey n QFRONT_SEQ) = some (memory front) ∧
      t.get (encodeQitemKey n QBACK_SEQ) = some (memory back) ∧
      ∀ seq, seq ≠ QFRONT_SEQ → seq ≠ QBACK_SEQ →
        (t.get (encodeQitemKey n seq) ≠ none ↔ front ≤ seq ∧ seq ≤ back)

theorem consistent (h : Stores w.ldb.data Q) (n : Bytes) : Consistent w.ldb.table n := by
  have hsize : w.ldb.table.get (encodeQsizeKey n) = counter (Q n).items.length := by
    rw [← LevelDB.data_eq (qsizeKey_data n), h.size]
  rcases eq_or_ne (Q n).items [] with hnil | hne
  · refine .inl ⟨?_, fun seq => ?_⟩
    · rw [hsize, hnil]
      rfl
    · rw [qitem_get h, record_nil hnil]
  · have hpos := List.length_pos_iff.mpr hne
    have hs := (Q n).seated hne
    have hfirst := ofNat_toNat (s := (Q n).first) (by omega)
    have hlast := ofNat_toNat (s := (Q n).last) (by simp only [Deque.last]; omega)
    refine .inr ⟨(Q n).items.length, UInt64.ofNat (Q n).first, UInt64.ofNat (Q n).last, hpos, ?_,
      ?_, ?_, ?_, fun seq h2 h3 => ?_⟩
    · rw [hfirst, hlast, Deque.last]
    · rw [hsize, counter, if_neg hpos.ne']
    · rw [qitem_get h]
      exact record_end hne .front
    · rw [qitem_get h]
      exact record_end hne .back
    · have h2' : seq.toNat ≠ 2 := fun he => h2 (UInt64.toNat_inj.mp he)
      have h3' : seq.toNat ≠ 3 := fun he => h3 (UInt64.toNat_inj.mp he)
      rw [qitem_get h, record_item hne h2' h3', Deque.itemAt_isSome_iff, UInt64.le_iff_toNat_le,
        UInt64.le_iff_toNat_le, hfirst, hlast, Deque.last]
      omega

/-- Any run of queue calls answers as double-ended lists do, and leaves the records of every queue
consistent. -/
theorem queues_are_deques (enabled : Bool) (capacity : Int32) (cs : List Call)
    (hcs : ∀ c ∈ cs, c.onQueue = true) :
    let run := Call.execAll (cs.map (fun c => (c, Faults.none)))
      (SSDBImpl.fresh enabled capacity)
    run.1 = (answerAll cs (fun _ => .empty)).1 ∧ ∀ name, Consistent run.2.ldb.table name := by
  intro run
  obtain ⟨hreplies, hstores⟩ :=
    execAll_result (w := SSDBImpl.fresh enabled capacity) hcs stores_empty
  exact ⟨hreplies, consistent hstores⟩

theorem queues_are_deques_pushed :
    let cs := [Call.qpushBack [113] [97] 1, .qpushFront [113] [98] 1, .qpopBack [113] 1]
    (Call.execAll (cs.map (fun c => (c, Faults.none))) (SSDBImpl.fresh true 1000)).1 =
      [.code 1, .code 2, .ofOut (1, some [97])] :=
  (queues_are_deques true 1000 [.qpushBack [113] [97] 1, .qpushFront [113] [98] 1, .qpopBack [113] 1]
    (by decide)).1

end Queues
