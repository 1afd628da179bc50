import Ssdb.Theory.ReadFaults

namespace Call
open SSDBImpl

variable {w : SSDBImpl} {c : Call}

theorem exec_guarded (hc : c.transactional = true)
    (hg : ∀ w', (c.inquiry w.ldb).Guarded .failed (Refused w')) (f : Faults) :
    (c.exec f w).2.ldb = w.ldb ∨ (c.exec f w).2.ldb = (c.exec .none w).2.ldb := by
  have hplay := run_play hc { w with faults := f }
  rw [Inquiry.play_apply] at hplay
  have hrun : (c.exec f w).2.ldb = _ := congrArg (fun r => r.2.ldb) hplay
  rw [hrun, exec_plan hc (f := .none) rfl]
  rcases em ((c.inquiry w.ldb).Fails w.ldb.fetch .failed f.get) with hfails | hfails
  · exact .inl (Inquiry.guarded_fails (hg _) hfails).2
  · have hplan : (SSDBImpl.outcome { w with faults := f } (c.inquiry w.ldb)).1 =
        (c.inquiry w.ldb).answered w.ldb.fetch := Inquiry.resolve_answered hfails
    rw [hplan]
    exact plan_ldb _ w _

def gives (n : Bytes) : Call → List Bytes
  | qpushFront m item _ | qpushBack m item _ | qset m _ item _ => if m = n then [item] else []
  | _ => []

end Call

namespace Queues
open Keys SSDBImpl Endian
open Call (gives exec_guarded execAll exec_data plain_flushdb queue_heads qpush_guarded qpop_guarded
  qset_guarded)

variable {w : SSDBImpl} {Q : Queues} {c : Call} {n : Bytes}

theorem exec_follows (hc : c.plain = true) (f : Faults) (h : Stores w.ldb.data Q) :
    Stores (c.exec f w).2.ldb.data Q ∨ Stores (c.exec f w).2.ldb.data (Q.answer c).2 := by
  have hqueue (hon : c.onQueue = true) (ht : c.transactional = true)
      (hg : ∀ w', (c.inquiry w.ldb).Guarded .failed (Refused w')) :
      Stores (c.exec f w).2.ldb.data Q ∨ Stores (c.exec f w).2.ldb.data (Q.answer c).2 := by
    rcases exec_guarded ht hg f with hldb | hldb
    · exact .inl (by rw [hldb]; exact h)
    · exact .inr (by rw [hldb]; exact (exec_result hon h).2)
  have hother (hheads : DataType.QSIZE ∉ c.heads ∧ DataType.QUEUE ∉ c.heads) :
      Stores (c.exec f w).2.ldb.data Q := by
    have hdata {b : Byte} := exec_data (b := b) (plain_flushdb hc)
    exact h.congr (hdata hheads.1 (by decide) f w) (hdata hheads.2 (by decide) f w)
  rcases queue_heads hc with ⟨hon, ht⟩ | hheads
  · cases c with
    | qpushFront m item t => exact hqueue hon ht fun w' => qpush_guarded w' m t item _
    | qpushBack m item t => exact hqueue hon ht fun w' => qpush_guarded w' m t item _
    | qpopFront m t => exact hqueue hon ht fun w' => qpop_guarded w' m t _
    | qpopBack m t => exact hqueue hon ht fun w' => qpop_guarded w' m t _
    | qset m index item t => exact hqueue hon ht fun w' => qset_guarded w' m t index item
    | _ => exact absurd (And.intro hon ht) (by simp [Call.onQueue, Call.transactional])
  · exact .inl (hother hheads)

theorem execAll_follows {cs : List (Call × Faults)} (hcs : ∀ e ∈ cs, e.1.plain = true)
    (h : Stores w.ldb.data Q) :
    ∃ ds, ds.Sublist (cs.map Prod.fst) ∧ Stores (execAll cs w).2.ldb.data (answerAll ds Q).2 := by
  induction cs generalizing w Q with
  | nil => exact ⟨[], List.Sublist.slnil, h⟩
  | cons e cs ih =>
    obtain ⟨c, f⟩ := e
    have hrest := fun e' h' => hcs e' (List.mem_cons_of_mem _ h')
    rcases exec_follows (hcs (c, f) List.mem_cons_self) f h with hsame | hstep
    · obtain ⟨ds, hds, hstores⟩ := ih hrest hsame
      exact ⟨ds, hds.cons c, hstores⟩
    · obtain ⟨ds, hds, hstores⟩ := ih hrest hstep
      exact ⟨c :: ds, hds.cons_cons c, hstores⟩

theorem update_items {q : NumberedQueue} {m a : Bytes} {xs : List Bytes}
    (h : a ∈ (Function.update Q m q n).items) (hq : m = n → a ∈ q.items → a ∈ (Q m).items ∨ a ∈ xs) :
    a ∈ (Q n).items ∨ a ∈ (if m = n then xs else []) := by
  rcases eq_or_ne m n with rfl | hne
  · rw [Function.update_self] at h
    rw [if_pos rfl]
    exact hq rfl h
  · rw [Function.update_of_ne hne.symm] at h
    exact .inl h

theorem push_items {m item a : Bytes} (e : End) (h : a ∈ (Q.afterPush m e item n).items) :
    a ∈ (Q n).items ∨ a ∈ (if m = n then [item] else []) := by
  rw [afterPush, push] at h
  split_ifs at h with hlen
  · cases hq : (Q m).push e item with
    | none =>
      rw [hq] at h
      exact .inl h
    | some q =>
      rw [hq] at h
      refine update_items h fun _ hmem => ?_
      rw [(push_some hq).2.2.1] at hmem
      cases e with
      | front => exact (List.mem_cons.mp hmem).symm.imp_right List.mem_singleton.mpr
      | back => exact List.mem_append.mp hmem
  · exact .inl h

theorem pop_items {m a : Bytes} (e : End) (h : a ∈ (Q.afterPop m e n).items) : a ∈ (Q n).items := by
  rw [afterPop] at h
  split_ifs at h
  · exact h
  · have hrest : a ∈ ((Q m).pop e).items → a ∈ (Q m).items := by
      cases e with
      | front => exact List.mem_of_mem_tail
      | back => exact List.mem_of_mem_dropLast
    have hitems : a ∈ (Q n).items ∨ a ∈ (if m = n then [] else []) :=
      update_items h fun _ hmem => .inl (hrest hmem)
    simpa using hitems

theorem set_items {m item a : Bytes} {index : Int64} (h : a ∈ (Q.afterSet m index item n).items) :
    a ∈ (Q n).items ∨ a ∈ (if m = n then [item] else []) := by
  rw [afterSet] at h
  cases hplace : (Q m).place index.toInt with
  | none =>
    rw [hplace] at h
    exact .inl h
  | some i =>
    rw [hplace] at h
    refine update_items h fun _ hmem => ?_
    exact (List.mem_or_eq_of_mem_set hmem).imp_right List.mem_singleton.mpr

theorem answer_items {a : Bytes} (h : a ∈ ((Q.answer c).2 n).items) :
    a ∈ (Q n).items ∨ a ∈ c.gives n := by
  cases c with
  | qpushFront => exact push_items .front h
  | qpushBack => exact push_items .back h
  | qpopFront => exact .inl (pop_items .front h)
  | qpopBack => exact .inl (pop_items .back h)
  | qset => exact set_items h
  | _ => exact .inl h

theorem answerAll_items {a : Bytes} (ds : List Call) (h : a ∈ ((answerAll ds Q).2 n).items) :
    a ∈ (Q n).items ∨ a ∈ ds.flatMap (gives n) := by
  induction ds generalizing Q with
  | nil => exact .inl h
  | cons d ds ih =>
    rw [List.flatMap_cons, List.mem_append]
    rcases ih h with hmem | hmem
    · exact (answer_items hmem).imp_right .inl
    · exact .inr (.inr hmem)

theorem add_toUInt64 (x : UInt64) (i : Int64) :
    ((x + i.toUInt64).toNat : Int) = (x.toNat + i.toInt) % 18446744073709551616 := by
  have hword := Endian.toInt_toUInt64 i
  rw [UInt64.toNat_add]
  omega

variable {q : NumberedQueue}

theorem position_bounds (q : NumberedQueue) (i : Int64) :
    -9223372036854775808 ≤ q.position i.toInt ∧ q.position i.toInt < 9223372036854775808 := by
  have hlo := i.le_toInt
  have hhi := i.toInt_lt
  have hlen := length_lt q
  rw [Deque.position]
  split_ifs <;> omega

theorem front_seq (hne : q.items ≠ []) {i : Int64} (hi : 0 ≤ i.toInt) :
    ((UInt64.ofNat (q.number .front) + i.toUInt64).toNat : Int) =
      (q.first + q.position i.toInt) % 18446744073709551616 := by
  have hfirst := (number_bounds hne .front).2
  rw [add_toUInt64, ofNat_toNat (by omega), Deque.position, if_pos hi]
  rfl

theorem back_seq (hne : q.items ≠ []) {i : Int64} (hi : i.toInt < 0) :
    ((UInt64.ofNat (q.number .back) + (i + 1).toUInt64).toNat : Int) =
      (q.first + q.position i.toInt) % 18446744073709551616 := by
  have hlast := (number_bounds hne .back).2
  have hpos := List.length_pos_iff.mpr hne
  have hsum : (q.number .back : Int) + (i.toInt + 1) = q.first + (q.items.length + i.toInt) := by
    simp only [Deque.number, Deque.last]
    omega
  rw [add_toUInt64, ofNat_toNat (by omega), succ_toInt (by omega), Deque.position, if_neg (not_le.mpr hi),
    hsum]

theorem nonneg_iff (i : Int64) : i ≥ 0 ↔ 0 ≤ i.toInt := by
  rw [ge_iff_le, Int64.le_iff_toInt_le, Int64.toInt_zero]

theorem readSeqOf_position (h : Stores w.ldb.data Q) (hne : (Q n).items ≠ []) (index : Int64) :
    (readSeqOf w.ldb n index).1 = 1 ∧ ((readSeqOf w.ldb n index).2.toNat : Int) =
      ((Q n).first + (Q n).position index.toInt) % 18446744073709551616 := by
  have hfront : readSeq w.ldb n QFRONT_SEQ = _ := readSeq_number h .front hne
  have hback : readSeq w.ldb n QBACK_SEQ = _ := readSeq_number h .back hne
  rw [readSeqOf, hfront, hback]
  split_ifs with h0
  · exact ⟨rfl, front_seq hne ((nonneg_iff index).mp h0)⟩
  · exact ⟨rfl, back_seq hne (not_le.mp ((nonneg_iff index).not.mp h0))⟩

theorem record_position (hne : q.items ≠ []) {x : ℕ} {i : Int}
    (hi : -9223372036854775808 ≤ i ∧ i < 9223372036854775808)
    (hx : (x : Int) = (q.first + i) % 18446744073709551616) :
    record q x = if q.first + i = 2 then some (memory (UInt64.ofNat q.first))
      else if q.first + i = 3 then some (memory (UInt64.ofNat q.last))
      else if 0 ≤ i then q.items[i.toNat]? else none := by
  have hs := q.seated hne
  have hpos := List.length_pos_iff.mpr hne
  have htwo : x = 2 ↔ (q.first : Int) + i = 2 := by omega
  have hthree : x = 3 ↔ (q.first : Int) + i = 3 := by omega
  rw [record, if_neg hne]
  simp only [htwo, hthree]
  split_ifs with h2 h3 h0
  · rfl
  · rfl
  · have hsum : x = q.first + i.toNat := by omega
    rw [hsum, q.itemAt_add]
  · refine q.itemAt_none ?_
    omega

def getReply (Q : Queues) (n : Bytes) (index : Int64) : Int × Option Bytes :=
  match (Q n).place index.toInt with
  | none => (0, none)
  | some i => (1, (Q n).items[i]?)

theorem qget_apply (hw : w.faults.get = []) (index : Int64) :
    qget n index w = (if (readSeqOf w.ldb n index).1 = -1 then (-1, none)
      else if (readSeqOf w.ldb n index).1 = 0 then (0, none)
      else w.ldb.readRecord (encodeQitemKey n (readSeqOf w.ldb n index).2), w) := by
  rw [qget, seqOf_bind, M.bind_apply, qgetUint64_apply _ _ hw, readSeqOf_eq]
  simp only [M.ite_apply]
  split_ifs
  · rfl
  · rfl
  · exact getRecord_apply _ hw

def Astray (q : NumberedQueue) (index : Int) : Prop :=
  q.items ≠ [] ∧ (q.last + index + 1 = 2 ∨ q.last + index + 1 = 3)

structure Bounded (w : SSDBImpl) (Q : Queues) (ds : List Call) (n : Bytes) (index : Int64) :
    Prop where
  reply : (qget n index w).1 = Q.getReply n index
  agrees : ∀ item t, (qset n index item t w).1 = (qget n index w).1.1
  given : ∀ a, (qget n index w).1.2 = some a → a ∈ ds.flatMap (gives n)

theorem astray_position (hne : q.items ≠ []) (i : Int64) : Astray q i.toInt ↔
    (q.first + q.position i.toInt = 2 ∨ q.first + q.position i.toInt = 3) := by
  have hs := q.seated hne
  have hpos := List.length_pos_iff.mpr hne
  rw [Astray, and_iff_right hne, Deque.position, Deque.last]
  split_ifs <;> omega

theorem qget_nil (h : Stores w.ldb.data Q) (hw : w.faults = Faults.none)
    (hnil : (Q n).items = []) (index : Int64) : (qget n index w).1 = (0, none) := by
  have hfound : (readSeqOf w.ldb n index).1 = 0 := by
    have hfront : readSeq w.ldb n QFRONT_SEQ = _ := readSeq_nil h .front hnil
    have hback : readSeq w.ldb n QBACK_SEQ = _ := readSeq_nil h .back hnil
    rw [readSeqOf, hfront, hback]
    split_ifs <;> rfl
  rw [qget_apply (by rw [hw]; rfl), hfound]
  rfl

theorem qget_record (h : Stores w.ldb.data Q) (hw : w.faults = Faults.none)
    (hne : (Q n).items ≠ []) (index : Int64) : (qget n index w).1 =
      match record (Q n) (readSeqOf w.ldb n index).2.toNat with
      | none => (0, none)
      | some a => (1, some a) := by
  rw [qget_apply (by rw [hw]; rfl), (readSeqOf_position h hne index).1, LevelDB.readRecord,
    qitem_get h]
  rfl

theorem qget_bounded_iff (h : Stores w.ldb.data Q) (hw : w.faults = Faults.none) (index : Int64) :
    (qget n index w).1 = Q.getReply n index ↔ ¬Astray (Q n) index.toInt := by
  rcases eq_or_ne (Q n).items [] with hnil | hne
  · have hplace : (Q n).place index.toInt = none := by
      rw [Deque.place, hnil]
      split_ifs <;> first | rfl | simp at *; omega
    refine iff_of_true ?_ fun hast => hast.1 hnil
    rw [qget_nil h hw hnil, getReply, hplace]
  · have hpos := position_bounds (Q n) index
    have hseated := (Q n).seated hne
    have hrecord := record_position hne hpos (readSeqOf_position h hne index).2
    rw [qget_record h hw hne, hrecord, astray_position hne, getReply]
    cases hplace : (Q n).place index.toInt with
    | some i =>
      obtain ⟨hi, hlt⟩ := (Q n).place_eq_some_iff.mp hplace
      rw [hi, if_neg (by omega), if_neg (by omega), if_pos (by omega), Int.toNat_natCast]
      refine iff_of_true ?_ (by omega)
      simp only [List.getElem?_eq_getElem hlt]
    | none =>
      have hout : ¬(0 ≤ (Q n).position index.toInt ∧
          (Q n).position index.toInt < (Q n).items.length) := fun hin => by
        have hsome : (Q n).place index.toInt = some ((Q n).position index.toInt).toNat :=
          (Q n).place_eq_some_iff.mpr (by omega)
        rw [hplace] at hsome
        cases hsome
      split_ifs with h2 h3 h0
      · simp [h2]
      · simp [h3]
      · rw [List.getElem?_eq_none (by omega)]
        simp [h2, h3]
      · simp [h2, h3]

theorem getReply_agrees (Q : Queues) (n : Bytes) (index : Int64) :
    Q.setReply n index = (Q.getReply n index).1 := by
  rw [setReply, getReply]
  cases (Q n).place index.toInt <;> rfl

theorem getReply_mem {index : Int64} {a : Bytes} (h : (Q.getReply n index).2 = some a) :
    a ∈ (Q n).items := by
  rw [getReply] at h
  cases hplace : (Q n).place index.toInt with
  | none => simp [hplace] at h
  | some i =>
    rw [hplace] at h
    exact List.mem_of_getElem? h

/-- However leveldb answered the calls before, a read at an index is bounded unless the index leads
from the last item to a record of the ends. -/
theorem qget_in_bounds_iff (enabled : Bool) (capacity : Int32) (cs : List (Call × Faults))
    (hcs : ∀ e ∈ cs, e.1.plain = true) :
    let w := (execAll cs (fresh enabled capacity)).2
    ∃ ds, ds.Sublist (cs.map Prod.fst) ∧ let Q := (answerAll ds fun _ => .empty).2
      Stores w.ldb.data Q ∧ ∀ n index, Bounded w Q ds n index ↔ ¬Astray (Q n) index.toInt := by
  intro w
  obtain ⟨ds, hds, hstores⟩ := execAll_follows (w := fresh enabled capacity) hcs stores_empty
  refine ⟨ds, hds, hstores, fun n index => ?_⟩
  have hw : w.faults = Faults.none := Call.execAll_faults cs rfl
  have hiff := qget_bounded_iff (n := n) hstores hw index
  refine ⟨fun hb => hiff.mp hb.reply, fun hast => ?_⟩
  have hreply := hiff.mpr hast
  refine ⟨hreply, fun item t => ?_, fun a ha => ?_⟩
  · rw [hreply, ← getReply_agrees]
    exact (qset_result (n := n) (t := t) index item hstores hw).reply
  · rw [hreply] at ha
    exact (answerAll_items ds (getReply_mem ha)).resolve_left List.not_mem_nil

theorem qget_in_bounds_iff_pushed :
    let w := (execAll [(.qpushBack [113] [97] 1, Faults.none), (.qpushFront [113] [98] 1, Faults.none),
      (.qpushBack [113] [99] 1, Faults.none)] (fresh true 1000)).2
    ∃ ds, ds.Sublist [Call.qpushBack [113] [97] 1, .qpushFront [113] [98] 1, .qpushBack [113] [99] 1] ∧
      Bounded w (answerAll ds fun _ => .empty).2 ds [113] 1 := by
  intro w
  obtain ⟨ds, hds, -, hiff⟩ := qget_in_bounds_iff true 1000
    [(.qpushBack [113] [97] 1, Faults.none), (.qpushFront [113] [98] 1, Faults.none),
      (.qpushBack [113] [99] 1, Faults.none)] (by decide)
  refine ⟨ds, hds, (hiff [113] 1).mpr ?_⟩
  rintro ⟨hne, hlast⟩
  have hs := Deque.seated _ hne
  have hone : (1 : Int64).toInt = 1 := by decide
  simp only [Deque.last, hone] at hlast
  omega

theorem metadata_read :
    let w := (execAll [(.qpushBack [113] [97] 1, Faults.none)] (fresh true 1000)).2
    (qget [113] (-4611686018427387902) w).1 = (1, some (memory QITEM_SEQ_INIT)) ∧
      (qset [113] (-4611686018427387902) [97] 1 w).1 = 0 := by
  decide +kernel

end Queues
