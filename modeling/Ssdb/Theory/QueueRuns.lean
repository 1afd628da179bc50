import Ssdb.Theory.Queues

namespace Queues
open Keys SSDBImpl Endian

variable {w : SSDBImpl} {Q : Queues} {n : Bytes} {t : Byte}

structure Result {α : Type} (r : α × SSDBImpl) (ret : α) (Q : Queues) : Prop where
  reply : r.1 = ret
  stores : Stores r.2.ldb.data Q

theorem result_abort {α : Type} (h : Stores w.ldb.data Q) (recs : List Rec) (ret : α) :
    Result ((Plan.abort recs ret).run w) ret Q := ⟨rfl, h⟩

theorem result_commit {α : Type} {recs : List Rec} {ok : α} (fail : α)
    (hw : w.faults = Faults.none) (hon : ∀ r ∈ recs, On n r)
    (h : Stores (recs.foldl Rec.effect w.ldb.data) Q) :
    Result ((Plan.commit recs ok fail).run w) ok Q := by
  have hrun := (Plan.commit recs ok fail).run_data w hw fun r hr => (hon r hr).onData
  exact ⟨((Plan.commit recs ok fail).run_answered w hw).1, hrun ▸ h⟩

def push (Q : Queues) (n : Bytes) (e : End) (item : Bytes) : Option NumberedQueue :=
  if n.length ≤ SSDB_KEY_LEN_MAX then (Q n).push e item else none

def pushReply (Q : Queues) (n : Bytes) (e : End) (item : Bytes) : Int64 :=
  match Q.push n e item with
  | none => -1
  | some q => Int64.ofNat q.items.length

def afterPush (Q : Queues) (n : Bytes) (e : End) (item : Bytes) : Queues :=
  match Q.push n e item with
  | none => Q
  | some q => Function.update Q n q

def endRecs (Q : Queues) (n : Bytes) (e : End) : List Rec :=
  if (Q n).items = [] then
    [.put (encodeQitemKey n QFRONT_SEQ) (memory QITEM_SEQ_INIT),
      .put (encodeQitemKey n QBACK_SEQ) (memory QITEM_SEQ_INIT)]
  else [.put (encodeQitemKey n e.seq) (memory (UInt64.ofNat ((Q n).next e)))]

theorem qsetOneDraft_short (h : n.length ≤ SSDB_KEY_LEN_MAX) (s : UInt64) (item : Bytes) :
    qsetOneDraft n s item = (0, [.put (encodeQitemKey n s) item]) := if_neg (not_lt.mpr h)

theorem next_seq (h : Stores w.ldb.data Q) (e : End) (hne : (Q n).items ≠ []) :
    (if e.seq = QFRONT_SEQ then (readSeq w.ldb n e.seq).2 - 1 else (readSeq w.ldb n e.seq).2 + 1) =
      UInt64.ofNat ((Q n).next e) := by
  rw [readSeq_number h e hne]
  have hs := (Q n).seated hne
  have hpos := List.length_pos_iff.mpr hne
  cases e with
  | front =>
    have hle : (1 : UInt64) ≤ UInt64.ofNat (Q n).first := by
      rw [UInt64.le_iff_toNat_le, ofNat_toNat (by omega)]
      change 1 ≤ _
      omega
    simp only [End.seq, Deque.number, Deque.next, if_neg hne, if_true]
    rw [← UInt64.toNat_inj, UInt64.toNat_sub_of_le _ _ hle, ofNat_toNat (by omega),
      ofNat_toNat (by omega)]
    rfl
  | back =>
    have hnot : End.back.seq ≠ QFRONT_SEQ := by decide
    simp only [hnot, if_false, Deque.number, Deque.last, Deque.next, if_neg hne]
    rw [show (1 : UInt64) = UInt64.ofNat 1 from rfl, ← UInt64.ofNat_add]
    congr 1
    omega

theorem pushSeqDraft_eq (h : Stores w.ldb.data Q) (hn : n.length ≤ SSDB_KEY_LEN_MAX) (e : End) :
    pushSeqDraft n e.seq (readSeq w.ldb n e.seq).1 (readSeq w.ldb n e.seq).2 =
      ((0, UInt64.ofNat ((Q n).next e)), Q.endRecs n e) := by
  by_cases hnil : (Q n).items = []
  · have hnext : UInt64.ofNat ((Q n).next e) = QITEM_SEQ_INIT := by
      cases e <;> simp only [Deque.next, if_pos hnil] <;> decide
    rw [readSeq_nil h e hnil, pushSeqDraft, if_pos rfl, qsetOneDraft_short hn,
      qsetOneDraft_short hn, hnext, endRecs, if_pos hnil]
    rfl
  · have hret : (readSeq w.ldb n e.seq).1 ≠ 0 := by
      rw [readSeq_number h e hnil]
      exact one_ne_zero
    rw [pushSeqDraft, if_neg hret, next_seq h e hnil, endRecs, if_neg hnil]
    simp only [qsetOneDraft_short hn]

theorem readSeq_status (h : Stores w.ldb.data Q) (e : End) : (readSeq w.ldb n e.seq).1 ≠ -1 := by
  by_cases hnil : (Q n).items = []
  · rw [readSeq_nil h e hnil]
    decide
  · rw [readSeq_number h e hnil]
    exact (by decide : (1 : Int) ≠ -1)

theorem next_lt (q : NumberedQueue) (e : End) : q.next e < 2 ^ 64 := by
  by_cases hnil : q.items = []
  · cases e <;> simp [Deque.next, hnil]
  · have hs := q.seated hnil
    have hpos := List.length_pos_iff.mpr hnil
    cases e <;> simp only [Deque.next, if_neg hnil] <;> omega

theorem refused_iff (q : NumberedQueue) (e : End) (item : Bytes) :
    (UInt64.ofNat (q.next e) ≤ QITEM_MIN_SEQ ∨ UInt64.ofNat (q.next e) ≥ QITEM_MAX_SEQ) ↔
      q.push e item = none := by
  rw [Deque.push_eq_none_iff, ge_iff_le, UInt64.le_iff_toNat_le, UInt64.le_iff_toNat_le,
    ofNat_toNat (next_lt q e)]
  rfl

def countRec (n : Bytes) (c : ℕ) : Rec :=
  .put (encodeQsizeKey n) (memory (Int64.ofNat c).toUInt64)

theorem incrQsize_succ (h : Stores w.ldb.data Q) (hb : (Q n).items.length + 1 < 2 ^ 63) :
    incrQsizeDraft w.ldb n 1 =
      (Int64.ofNat ((Q n).items.length + 1), [countRec n ((Q n).items.length + 1)]) := by
  have h1 := Counter.ofNat_toInt hb
  have h2 := Counter.ofNat_toInt (c := (Q n).items.length) (by omega)
  have hsize : Int64.ofNat (Q n).items.length ≠ -1 := fun he => by
    rw [he] at h2
    change (-1 : Int) = _ at h2
    omega
  have hpos : ¬Int64.ofNat ((Q n).items.length + 1) ≤ 0 := by
    rw [Int64.le_iff_toInt_le, h1, Int64.toInt_zero]
    omega
  rw [incrQsizeDraft, readQsize_length h, if_neg hsize, Counter.ofNat_succ, if_neg hpos, countRec]

theorem ofNat_ne_neg_one {c : ℕ} (h : c < 2 ^ 63) : Int64.ofNat c ≠ -1 := by
  intro he
  have hi := Counter.ofNat_toInt h
  rw [he] at hi
  change (-1 : Int) = _ at hi
  omega

def pushRecs (Q : Queues) (n : Bytes) (e : End) (item : Bytes) (t : Byte) : List Rec :=
  Q.endRecs n e ++ [.put (encodeQitemKey n (UInt64.ofNat ((Q n).next e))) item] ++
    [pushLog e.seq t (encodeQitemKey n (UInt64.ofNat ((Q n).next e)))] ++
    [countRec n ((Q n).items.length + 1)]

theorem qpushPlan_refused (h : Stores w.ldb.data Q) {item : Bytes} {e : End}
    (hn : n.length ≤ SSDB_KEY_LEN_MAX) (hq : (Q n).push e item = none) :
    qpushPlan w.ldb n item e.seq t = .abort (Q.endRecs n e) (-1) := by
  have hret : ¬(0 : Int) = -1 := by decide
  simp only [qpushPlan, if_neg (readSeq_status h e), pushSeqDraft_eq h hn, if_neg hret,
    if_pos ((refused_iff (Q n) e item).mpr hq)]

theorem qpushPlan_accepted (h : Stores w.ldb.data Q) {item : Bytes} {e : End}
    (hn : n.length ≤ SSDB_KEY_LEN_MAX) (hq : (Q n).push e item ≠ none)
    (hb : (Q n).items.length + 1 < 2 ^ 63) :
    qpushPlan w.ldb n item e.seq t =
      .commit (Q.pushRecs n e item t) (Int64.ofNat ((Q n).items.length + 1)) (-1) := by
  have hret : ¬(0 : Int) = -1 := by decide
  have hfree := (refused_iff (Q n) e item).not.mpr hq
  simp only [qpushPlan, if_neg (readSeq_status h e), pushSeqDraft_eq h hn, if_neg hret, if_neg hfree,
    qsetOneDraft_short hn, incrQsize_succ h hb, if_neg (ofNat_ne_neg_one hb)]
  rfl

theorem qpushPlan_long (h : Stores w.ldb.data Q) (item : Bytes) (e : End)
    (hn : ¬n.length ≤ SSDB_KEY_LEN_MAX) :
    qpushPlan w.ldb n item e.seq t = .abort [] (-1) := by
  have hnil : (Q n).items = [] := by
    by_contra hne
    exact hn (h.named n hne)
  have hdraft : pushSeqDraft n e.seq (readSeq w.ldb n e.seq).1 (readSeq w.ldb n e.seq).2 =
      ((-1, QITEM_SEQ_INIT), []) := by
    rw [readSeq_nil h e hnil, pushSeqDraft, if_pos rfl, qsetOneDraft, if_pos (not_le.mp hn),
      if_pos rfl]
  simp only [qpushPlan, if_neg (readSeq_status h e), hdraft, if_true]

theorem pushRecs_on (Q : Queues) (n : Bytes) (e : End) (item : Bytes) (t : Byte) :
    ∀ r ∈ Q.pushRecs n e item t, On n r := by
  simp only [pushRecs, endRecs, pushLog, countRec]
  split_ifs <;> simp [On]

theorem record_one {q : NumberedQueue} {item : Bytes} (hitems : q.items = [item])
    (hfirst : q.first = 4611686018427387903) (s : UInt64) :
    record q s.toNat = if s = QITEM_SEQ_INIT then some item
      else if s = QBACK_SEQ then some (memory QITEM_SEQ_INIT)
      else if s = QFRONT_SEQ then some (memory QITEM_SEQ_INIT) else none := by
  have hne : q.items ≠ [] := by simp [hitems]
  have hnumber (e : End) : UInt64.ofNat (q.number e) = QITEM_SEQ_INIT := by
    cases e <;> simp only [Deque.number, Deque.last, hitems, hfirst] <;> rfl
  rcases end_or_item s.toNat with ⟨e, he⟩ | ⟨h2, h3⟩
  · rw [he, record_end hne, hnumber, UInt64.toNat_inj.mp he]
    cases e <;> rfl
  · have hback : s ≠ QBACK_SEQ := fun h => h3 (congrArg UInt64.toNat h)
    have hfront : s ≠ QFRONT_SEQ := fun h => h2 (congrArg UInt64.toNat h)
    rw [record_item hne h2 h3, if_neg hback, if_neg hfront, Deque.itemAt, hitems, hfirst]
    split_ifs with hlt heq heq
    · rw [heq] at hlt
      exact absurd hlt (by decide)
    · rfl
    · simp [heq]
      rfl
    · have hnum : s.toNat ≠ 4611686018427387903 := fun h => heq (UInt64.toNat_inj.mp h)
      exact List.getElem?_eq_none (by simp; omega)

theorem stores_push (h : Stores w.ldb.data Q) {item : Bytes} {e : End} {q : NumberedQueue}
    (hn : n.length ≤ SSDB_KEY_LEN_MAX) (hq : (Q n).push e item = some q) :
    Stores ((Q.pushRecs n e item t).foldl Rec.effect w.ldb.data) (Function.update Q n q) := by
  obtain ⟨hlow, hhigh, hitems, hfirst⟩ := push_some hq
  have hlen : q.items.length = (Q n).items.length + 1 := by rw [hitems, Deque.pushed_length]
  have hnext := next_lt (Q n) e
  refine h.update (pushRecs_on Q n e item t) ?_ (fun s => ?_) hn
  · simp [pushRecs, countRec, Rec.effect, counter, hlen]
  · by_cases hnil : (Q n).items = []
    · have hsingle : q.items = [item] := hitems.trans ((Q n).pushed_nil hnil e item)
      have hinit : (Q n).next e = 4611686018427387903 := by cases e <;> exact if_pos hnil
      have hstart : q.first = 4611686018427387903 := by
        rw [hfirst]
        cases e <;> exact if_pos hnil
      have hseq : UInt64.ofNat ((Q n).next e) = QITEM_SEQ_INIT := by
        rw [hinit]
        rfl
      rw [record_one hsingle hstart]
      simp only [pushRecs, endRecs, if_pos hnil, countRec, pushLog, List.foldl_append,
        List.foldl_cons, List.foldl_nil, Rec.effect, Function.update_apply, qitemKey_eq_iff,
        true_and, (qsizeKey_ne_qitemKey n n s).symm, if_false, hseq, h.record,
        record_nil hnil]
    · simp only [pushRecs, endRecs, if_neg hnil, countRec, pushLog, List.foldl_append,
        List.foldl_cons, List.foldl_nil, Rec.effect, Function.update_apply, qitemKey_eq_iff,
        true_and, (qsizeKey_ne_qitemKey n n s).symm, if_false, eq_ofNat_iff hnext]
      rw [record_push hnil hq, h.record]
      simp only [UInt64.toNat_inj]

theorem qpush_result (item : Bytes) (e : End) (h : Stores w.ldb.data Q)
    (hw : w.faults = Faults.none) :
    Result (qpush n item e.seq t w) (Q.pushReply n e item) (Q.afterPush n e item) := by
  rw [qpush_plan n item e.seq t (by rw [hw]; rfl), pushReply, afterPush, push]
  by_cases hn : n.length ≤ SSDB_KEY_LEN_MAX
  · rw [if_pos hn]
    cases hq : (Q n).push e item with
    | none =>
      rw [qpushPlan_refused h hn hq]
      exact result_abort h _ _
    | some q =>
      obtain ⟨-, -, hitems, -⟩ := push_some hq
      have hlen : q.items.length = (Q n).items.length + 1 := by rw [hitems, Deque.pushed_length]
      have hb := q.seated (List.length_pos_iff.mp (by omega))
      rw [qpushPlan_accepted h hn (by simp [hq]) (by omega), ← hlen]
      exact result_commit _ hw (pushRecs_on Q n e item t) (stores_push h hn hq)
  · rw [if_neg hn, qpushPlan_long h item e hn]
    exact result_abort h _ _

def popReply (Q : Queues) (n : Bytes) (e : End) : Int × Option Bytes :=
  if (Q n).items = [] then (0, none) else (1, (Q n).peek e)

def afterPop (Q : Queues) (n : Bytes) (e : End) : Queues :=
  if (Q n).items = [] then Q else Function.update Q n ((Q n).pop e)

def restRecs (Q : Queues) (n : Bytes) (e : End) : List Rec :=
  if ((Q n).pop e).items = [] then
    [.delete (encodeQsizeKey n), .delete (encodeQitemKey n QFRONT_SEQ),
      .delete (encodeQitemKey n QBACK_SEQ)]
  else
    [countRec n ((Q n).pop e).items.length,
      .put (encodeQitemKey n e.seq) (memory (UInt64.ofNat (((Q n).pop e).number e)))]

def popRecs (Q : Queues) (n : Bytes) (e : End) (t : Byte) : List Rec :=
  [.delete (encodeQitemKey n (UInt64.ofNat ((Q n).number e)))] ++ [popLog e.seq t n] ++
    Q.restRecs n e

theorem incrQsize_pred (h : Stores w.ldb.data Q) (hne : (Q n).items ≠ []) :
    incrQsizeDraft w.ldb n (-1) =
      (Int64.ofNat ((Q n).items.length - 1),
        if (Q n).items.length - 1 = 0 then
          [.delete (encodeQsizeKey n), .delete (encodeQitemKey n QFRONT_SEQ),
            .delete (encodeQitemKey n QBACK_SEQ)]
        else [countRec n ((Q n).items.length - 1)]) := by
  have hpos := List.length_pos_iff.mpr hne
  have hb := (Q n).seated hne
  have h1 := Counter.ofNat_toInt (c := (Q n).items.length - 1) (by omega)
  have hle : Int64.ofNat ((Q n).items.length - 1) ≤ 0 ↔ (Q n).items.length - 1 = 0 := by
    rw [Int64.le_iff_toInt_le, h1, Int64.toInt_zero]
    omega
  rw [incrQsizeDraft, readQsize_length h, if_neg (ofNat_ne_neg_one (by omega)),
    Counter.ofNat_pred (by omega), countRec]
  simp only [hle]

theorem moved_seq (h : Stores w.ldb.data Q) (e : End) (hne : (Q n).items ≠ [])
    (hrest : ((Q n).pop e).items ≠ []) :
    (if e.seq = QFRONT_SEQ then (readSeq w.ldb n e.seq).2 + 1 else (readSeq w.ldb n e.seq).2 - 1) =
      UInt64.ofNat (((Q n).pop e).number e) := by
  obtain ⟨hlow, hhigh⟩ := number_bounds hne e
  rw [readSeq_number h e hne, number_pop e e hrest, if_pos rfl]
  cases e with
  | front =>
    simp only [End.seq, if_true]
    exact (UInt64.ofNat_add _ 1).symm
  | back =>
    have hnot : End.back.seq ≠ QFRONT_SEQ := by decide
    have hle : (1 : UInt64) ≤ UInt64.ofNat ((Q n).number .back) := by
      rw [UInt64.le_iff_toNat_le, ofNat_toNat (by omega)]
      change 1 ≤ _
      omega
    simp only [hnot, if_false]
    rw [← UInt64.toNat_inj, UInt64.toNat_sub_of_le _ _ hle, ofNat_toNat (by omega),
      ofNat_toNat (by omega)]
    rfl

theorem qpopPlan_nil (h : Stores w.ldb.data Q) (e : End) (hnil : (Q n).items = []) :
    qpopPlan w.ldb n e.seq t = .abort [] (0, none) := by
  have hret : ¬(0 : Int) = -1 := by decide
  simp only [qpopPlan, readSeq_nil h e hnil, if_neg hret, if_true]

theorem qpopPlan_some (h : Stores w.ldb.data Q) (e : End) (hne : (Q n).items ≠ []) :
    qpopPlan w.ldb n e.seq t =
      .commit (Q.popRecs n e t) (1, (Q n).peek e) (-1, (Q n).peek e) := by
  have hpos := List.length_pos_iff.mpr hne
  have hb := (Q n).seated hne
  have hlen := (Q n).pop_length e
  have hone : ¬(1 : Int) = -1 := by decide
  have hzero : ¬(0 : Int) = -1 := by decide
  have hitem : w.ldb.readRecord (encodeQitemKey n (readSeq w.ldb n e.seq).2) =
      (1, (Q n).peek e) := by rw [readSeq_number h e hne, readRecord_number h e hne]
  have hcount := ofNat_ne_neg_one (c := (Q n).items.length - 1) (by omega)
  have hmore : Int64.ofNat ((Q n).items.length - 1) > 0 ↔ ((Q n).pop e).items ≠ [] := by
    rw [gt_iff_lt, Int64.lt_iff_toInt_lt, Counter.ofNat_toInt (by omega), Int64.toInt_zero,
      ← List.length_pos_iff, hlen]
    omega
  have hlast : (Q n).items.length - 1 = 0 ↔ ((Q n).pop e).items = [] := by
    rw [← hlen, List.length_eq_zero_iff]
  by_cases hrest : ((Q n).pop e).items = []
  · have hnone : ¬Int64.ofNat ((Q n).items.length - 1) > 0 := fun h => hmore.mp h hrest
    simp only [qpopPlan, readSeq_number h e hne, readRecord_number h e hne, incrQsize_pred h hne,
      if_neg hcount, if_neg hone, one_ne_zero, if_false, if_neg hnone, if_pos (hlast.mpr hrest),
      popRecs, restRecs, if_pos hrest]
  · have hseq := moved_seq h e hne hrest
    simp only [qpopPlan, hitem, incrQsize_pred h hne, if_neg hcount, if_neg hone, if_neg hzero,
      one_ne_zero, if_false, if_pos (hmore.mpr hrest), if_neg (hlast.not.mpr hrest), hseq,
      qsetOneDraft_short (h.named n hne)]
    rw [readSeq_number h e hne]
    simp only [if_neg hone, one_ne_zero, if_false, popRecs, restRecs, if_neg hrest, hlen]
    rfl

theorem popRecs_on (Q : Queues) (n : Bytes) (e : End) (t : Byte) :
    ∀ r ∈ Q.popRecs n e t, On n r := by
  simp only [popRecs, restRecs, popLog, countRec]
  split_ifs <;> simp [On]

theorem stores_pop (h : Stores w.ldb.data Q) (e : End) (hne : (Q n).items ≠ []) :
    Stores ((Q.popRecs n e t).foldl Rec.effect w.ldb.data)
      (Function.update Q n ((Q n).pop e)) := by
  have hlow := (number_bounds hne e).1
  have hnumber : (Q n).number e < 2 ^ 64 := by
    have hhigh := (number_bounds hne e).2
    omega
  refine h.update (popRecs_on Q n e t) ?_ (fun s => ?_) (h.named n hne)
  · simp only [popRecs, restRecs]
    split_ifs with hrest
    · simp [Rec.effect, hrest, counter, qsizeKey_ne_qitemKey, popLog]
    · simp [Rec.effect, counter, qsizeKey_ne_qitemKey, popLog, countRec, hrest]
  · simp only [popRecs, restRecs]
    split_ifs with hrest
    · simp only [popLog, List.foldl_append, List.foldl_cons, List.foldl_nil, Rec.effect,
        Function.update_apply, qitemKey_eq_iff, true_and, (qsizeKey_ne_qitemKey n n s).symm,
        if_false, eq_ofNat_iff hnumber, h.record, record_nil hrest]
      split_ifs with h3 h2 hs
      · rfl
      · rfl
      · rfl
      · exact record_single hne hrest (fun h => h2 (UInt64.toNat_inj.mp h))
          (fun h => h3 (UInt64.toNat_inj.mp h)) hs
    · simp only [popLog, countRec, List.foldl_append, List.foldl_cons, List.foldl_nil, Rec.effect,
        Function.update_apply, qitemKey_eq_iff, true_and, (qsizeKey_ne_qitemKey n n s).symm,
        if_false, eq_ofNat_iff hnumber, h.record]
      rw [record_pop e hne hrest]
      simp only [UInt64.toNat_inj]

theorem qpop_result (e : End) (h : Stores w.ldb.data Q) (hw : w.faults = Faults.none) :
    Result (qpop n e.seq t w) (Q.popReply n e) (Q.afterPop n e) := by
  rw [qpop_plan n e.seq t (by rw [hw]; rfl), popReply, afterPop]
  by_cases hnil : (Q n).items = []
  · rw [if_pos hnil, if_pos hnil, qpopPlan_nil h e hnil]
    exact result_abort h _ _
  · rw [if_neg hnil, if_neg hnil, qpopPlan_some h e hnil]
    exact result_commit _ hw (popRecs_on Q n e t) (stores_pop h e hnil)

theorem qpush_quiet (item : Bytes) (e : End) (hw : w.faults = Faults.none) :
    (qpush n item e.seq t w).2.faults = Faults.none := by
  rw [qpush_plan n item e.seq t (by rw [hw]; rfl)]
  exact (Plan.run_answered w _ hw).2

theorem qpop_quiet (e : End) (hw : w.faults = Faults.none) :
    (qpop n e.seq t w).2.faults = Faults.none := by
  rw [qpop_plan n e.seq t (by rw [hw]; rfl)]
  exact (Plan.run_answered w _ hw).2

def setReply (Q : Queues) (n : Bytes) (index : Int64) : Int :=
  match (Q n).place index.toInt with
  | none => 0
  | some _ => 1

def afterSet (Q : Queues) (n : Bytes) (index : Int64) (item : Bytes) : Queues :=
  match (Q n).place index.toInt with
  | none => Q
  | some i => Function.update Q n ((Q n).set i item)

theorem length_lt (q : NumberedQueue) : q.items.length < 2 ^ 63 := by
  by_cases hnil : q.items = []
  · simp [hnil]
  · have hs := q.seated hnil
    omega

theorem toInt_neg_length (q : NumberedQueue) :
    (-Int64.ofNat q.items.length).toInt = -q.items.length := by
  have hb := length_lt q
  rw [Int64.toInt_neg, Counter.ofNat_toInt hb, Int.bmod_eq_of_le (by omega) (by omega)]

theorem place_none_iff (q : NumberedQueue) (index : Int64) :
    (index ≥ Int64.ofNat q.items.length ∨ index < -Int64.ofNat q.items.length) ↔
      q.place index.toInt = none := by
  rw [ge_iff_le, Int64.le_iff_toInt_le, Int64.lt_iff_toInt_lt, toInt_neg_length,
    Counter.ofNat_toInt (length_lt q), Deque.place]
  split_ifs <;> simp <;> omega

theorem place_lt {q : NumberedQueue} {index : Int} {i : ℕ} (h : q.place index = some i) :
    i < q.items.length := by
  rw [Deque.place] at h
  split_ifs at h <;> simp at h <;> omega

theorem succ_toInt {i : Int64} (h : i.toInt < 2 ^ 63 - 1) : (i + 1).toInt = i.toInt + 1 := by
  have hmin := i.le_toInt
  rw [Int64.toInt_add]
  exact Int.bmod_eq_of_le (by change _ ≤ _ + (1 : Int); omega) (by change _ + (1 : Int) < _; omega)

theorem readSeqOf_place (h : Stores w.ldb.data Q) (hne : (Q n).items ≠ []) {index : Int64} {i : ℕ}
    (hplace : (Q n).place index.toInt = some i) :
    readSeqOf w.ldb n index = (1, UInt64.ofNat ((Q n).first + i)) := by
  have hlt := place_lt hplace
  have hs := (Q n).seated hne
  have hfront : readSeq w.ldb n QFRONT_SEQ = _ := readSeq_number h .front hne
  have hback : readSeq w.ldb n QBACK_SEQ = _ := readSeq_number h .back hne
  rw [Deque.place] at hplace
  rw [readSeqOf, hfront, hback]
  have hzero : index ≥ 0 ↔ 0 ≤ index.toInt := by
    rw [ge_iff_le, Int64.le_iff_toInt_le, Int64.toInt_zero]
  refine (Prod.ext ?_ ?_)
  · split_ifs <;> rfl
  · have hseq : (UInt64.ofNat ((Q n).first + i)).toNat = (Q n).first + i := ofNat_toNat (by omega)
    rw [← UInt64.toNat_inj, hseq]
    by_cases hi : 0 ≤ index.toInt
    · have hword := toInt_toUInt64 index
      rw [if_pos hi] at hplace
      split_ifs at hplace
      have hi' := Option.some.inj hplace
      rw [if_pos (hzero.mpr hi), UInt64.toNat_add]
      simp only [Deque.number]
      rw [ofNat_toNat (by omega)]
      omega
    · have hsucc : (index + 1).toInt = index.toInt + 1 := succ_toInt (by omega)
      have hword := toInt_toUInt64 (index + 1)
      have hbound := (index + 1).toUInt64.toNat_lt
      rw [if_neg hi] at hplace
      split_ifs at hplace
      have hi' := Option.some.inj hplace
      rw [if_neg (hzero.not.mpr hi), UInt64.toNat_add]
      simp only [Deque.number, Deque.last]
      rw [ofNat_toNat (by omega)]
      omega

def setRecs (n : Bytes) (s : UInt64) (item : Bytes) (t : Byte) : List Rec :=
  [.put (encodeQitemKey n s) item, .log t BinlogCommand.QSET (encodeQitemKey n s)]

theorem setRecs_on (n : Bytes) (s : UInt64) (item : Bytes) (t : Byte) :
    ∀ r ∈ setRecs n s item t, On n r := by
  simp [setRecs, On]

theorem setItemPlan_short (hn : n.length ≤ SSDB_KEY_LEN_MAX) (s : UInt64) (item : Bytes) :
    setItemPlan n s item t = .commit (setRecs n s item t) 1 (-1) := by
  have hret : ¬(0 : Int) = -1 := by decide
  simp only [setItemPlan, qsetOneDraft_short hn, if_neg hret]
  rfl

theorem setRecs_effect (d : Bytes → Option Bytes) (s : UInt64) (item : Bytes) :
    (setRecs n s item t).foldl Rec.effect d = Function.update d (encodeQitemKey n s) (some item) :=
  rfl

theorem stores_set (h : Stores w.ldb.data Q) (hne : (Q n).items ≠ []) {i : ℕ}
    (hi : i < (Q n).items.length) (item : Bytes) :
    Stores ((setRecs n (UInt64.ofNat ((Q n).first + i)) item t).foldl Rec.effect w.ldb.data)
      (Function.update Q n ((Q n).set i item)) := by
  have hs := (Q n).seated hne
  have hseq : (Q n).first + i < 2 ^ 64 := by omega
  refine h.update (setRecs_on n _ item t) ?_ (fun s => ?_) (h.named n hne)
  · rw [setRecs_effect, Function.update_of_ne (qsizeKey_ne_qitemKey n n _), Deque.set_length,
      h.size]
  · rw [setRecs_effect, Function.update_apply, h.record, record_set item hi]
    simp only [qitemKey_eq_iff, true_and, eq_ofNat_iff hseq]

theorem qset_result (index : Int64) (item : Bytes) (h : Stores w.ldb.data Q)
    (hw : w.faults = Faults.none) :
    Result (qset n index item t w) (Q.setReply n index) (Q.afterSet n index item) := by
  rw [qset_plan n index item t (by rw [hw]; rfl), qsetPlan, readQsize_length h, setReply, afterSet]
  rw [if_neg (ofNat_ne_neg_one (length_lt (Q n)))]
  cases hplace : (Q n).place index.toInt with
  | none =>
    rw [if_pos ((place_none_iff (Q n) index).mpr hplace)]
    exact result_abort h _ _
  | some i =>
    have hlt := place_lt hplace
    have hne : (Q n).items ≠ [] := List.length_pos_iff.mp (by omega)
    have hret : ¬(1 : Int) = -1 := by decide
    have hin := (place_none_iff (Q n) index).not.mpr (by simp [hplace])
    simp only [if_neg hin, readSeqOf_place h hne hplace, if_neg hret, one_ne_zero, if_false,
      setItemPlan_short (h.named n hne)]
    exact result_commit _ hw (setRecs_on n _ item t) (stores_set h hne hlt item)

theorem qset_quiet (index : Int64) (item : Bytes) (hw : w.faults = Faults.none) :
    (qset n index item t w).2.faults = Faults.none := by
  rw [qset_plan n index item t (by rw [hw]; rfl)]
  exact (Plan.run_answered w _ hw).2

def peekReply (Q : Queues) (n : Bytes) (e : End) : Int × Option Bytes := Q.popReply n e

theorem qpeek_result (e : End) (h : Stores w.ldb.data Q) (hw : w.faults = Faults.none) :
    Result (qpeek e.seq n w) (Q.peekReply n e) Q := by
  rw [qpeek_apply e.seq n (by rw [hw]; rfl)]
  refine ⟨?_, h⟩
  rw [peekReply, popReply, if_neg (readSeq_status h e)]
  by_cases hnil : (Q n).items = []
  · rw [readSeq_nil h e hnil, if_pos rfl, if_pos hnil]
  · rw [readSeq_number h e hnil, if_neg one_ne_zero, if_neg hnil, readRecord_number h e hnil]

theorem qsize_result (h : Stores w.ldb.data Q) (hw : w.faults = Faults.none) :
    Result (qsize n w) (Int64.ofNat (Q n).items.length) Q := by
  rw [qsize_apply n (by rw [hw]; rfl)]
  exact ⟨readQsize_length h n, h⟩

end Queues
