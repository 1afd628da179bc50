import Ssdb.Library.Deque
import Ssdb.Plan.Queue
import Ssdb.Theory.Counter
import Ssdb.Theory.Runs

abbrev NumberedQueue := Deque Bytes 10000 4611686018427387903 9223372036854775807

abbrev Queues := Bytes → NumberedQueue

def End.seq : End → UInt64
  | .front => SSDBImpl.QFRONT_SEQ
  | .back => SSDBImpl.QBACK_SEQ

namespace Queues
open Keys SSDBImpl Endian

def record (q : NumberedQueue) (s : ℕ) : Option Bytes :=
  if q.items = [] then none
  else if s = 2 then some (memory (UInt64.ofNat q.first))
  else if s = 3 then some (memory (UInt64.ofNat q.last))
  else q.itemAt s

structure Stores (d : Bytes → Option Bytes) (Q : Queues) : Prop where
  size : ∀ n, d (encodeQsizeKey n) = counter (Q n).items.length
  record : ∀ n s, d (encodeQitemKey n s) = record (Q n) s.toNat
  named : ∀ n, (Q n).items ≠ [] → n.length ≤ SSDB_KEY_LEN_MAX

variable {d : Bytes → Option Bytes} {Q : Queues} {n : Bytes} {q : NumberedQueue}

theorem qitemKey_eq_iff {m : Bytes} {s t : UInt64} :
    encodeQitemKey m s = encodeQitemKey n t ↔ m = n ∧ s = t := by
  constructor
  · intro h
    exact encodeQitemKey_injective h
  · rintro ⟨rfl, rfl⟩
    rfl

theorem qsizeKey_eq_iff {m : Bytes} : encodeQsizeKey m = encodeQsizeKey n ↔ m = n := by
  simp [encodeQsizeKey]

theorem qsizeKey_ne_qitemKey (m n : Bytes) (s : UInt64) : encodeQsizeKey m ≠ encodeQitemKey n s := by
  simp [encodeQsizeKey, encodeQitemKey, DataType.QSIZE, DataType.QUEUE, Strings.charByte]

theorem qitemKey_data (n : Bytes) (s : UInt64) :
    (encodeQitemKey n s).head? ≠ some DataType.SYNCLOG := by
  simp [encodeQitemKey, DataType.QUEUE, DataType.SYNCLOG, Strings.charByte]

theorem qsizeKey_data (n : Bytes) : (encodeQsizeKey n).head? ≠ some DataType.SYNCLOG := by
  simp [encodeQsizeKey, DataType.QSIZE, DataType.SYNCLOG, Strings.charByte]

def On (n : Bytes) : Rec → Prop
  | .put key _ => key = encodeQsizeKey n ∨ ∃ s, key = encodeQitemKey n s
  | .delete key => key = encodeQsizeKey n ∨ ∃ s, key = encodeQitemKey n s
  | .log _ _ _ => True

theorem On.onData {r : Rec} (h : On n r) : r.OnData := by
  cases r with
  | put key value =>
    rcases h with rfl | ⟨s, rfl⟩
    · exact qsizeKey_data n
    · exact qitemKey_data n s
  | delete key => trivial
  | log type cmd key => trivial

theorem effect_frame {recs : List Rec} (h : ∀ r ∈ recs, On n r) {key : Bytes}
    (h1 : key ≠ encodeQsizeKey n) (h2 : ∀ s, key ≠ encodeQitemKey n s) :
    recs.foldl Rec.effect d key = d key := by
  have hne {key' : Bytes} (hkey : key' = encodeQsizeKey n ∨ ∃ s, key' = encodeQitemKey n s) :
      key ≠ key' := by
    rcases hkey with rfl | ⟨s, rfl⟩
    · exact h1
    · exact h2 s
  induction recs generalizing d with
  | nil => rfl
  | cons r recs ih =>
    rw [List.foldl_cons, ih fun r' h' => h r' (by simp [h'])]
    have hr := h r (by simp)
    cases r with
    | put key' value => exact Function.update_of_ne (hne hr) _ _
    | delete key' => exact Function.update_of_ne (hne hr) _ _
    | log type cmd key' => rfl

theorem Stores.update (h : Stores d Q) {recs : List Rec} (hon : ∀ r ∈ recs, On n r)
    (hsize : recs.foldl Rec.effect d (encodeQsizeKey n) = counter q.items.length)
    (hrecord : ∀ s, recs.foldl Rec.effect d (encodeQitemKey n s) = Queues.record q s.toNat)
    (hname : n.length ≤ SSDB_KEY_LEN_MAX) :
    Stores (recs.foldl Rec.effect d) (Function.update Q n q) where
  size m := by
    rcases eq_or_ne m n with rfl | hm
    · rw [hsize, Function.update_self]
    · rw [effect_frame hon (fun he => hm (qsizeKey_eq_iff.mp he)) (qsizeKey_ne_qitemKey m n),
        h.size, Function.update_of_ne hm]
  record m s := by
    rcases eq_or_ne m n with rfl | hm
    · rw [hrecord, Function.update_self]
    · rw [effect_frame hon (qsizeKey_ne_qitemKey n m s).symm
        (fun t he => hm (qitemKey_eq_iff.mp he).1), h.record, Function.update_of_ne hm]
  named m hm := by
    rcases eq_or_ne m n with rfl | hne
    · exact hname
    · rw [Function.update_of_ne hne] at hm
      exact h.named m hm

theorem stores_empty : Stores LevelDB.empty.data (fun _ => .empty) where
  size n := LevelDB.data_eq (qsizeKey_data n)
  record n s := LevelDB.data_eq (qitemKey_data n s)
  named _ h := absurd rfl h

theorem record_nil (h : q.items = []) (s : ℕ) : record q s = none := if_pos h

theorem record_end (h : q.items ≠ []) (e : End) :
    record q e.seq.toNat = some (memory (UInt64.ofNat (q.number e))) := by
  rw [record, if_neg h]
  cases e <;> rfl

theorem record_item (h : q.items ≠ []) {s : ℕ} (h2 : s ≠ 2) (h3 : s ≠ 3) :
    record q s = q.itemAt s := by rw [record, if_neg h, if_neg h2, if_neg h3]

theorem number_bounds (h : q.items ≠ []) (e : End) :
    10000 < q.number e ∧ q.number e < 9223372036854775807 := by
  have hs := q.seated h
  have hpos := List.length_pos_iff.mpr h
  cases e <;> simp only [Deque.number, Deque.last] <;> omega

theorem ofNat_toNat {s : ℕ} (h : s < 2 ^ 64) : (UInt64.ofNat s).toNat = s :=
  UInt64.toNat_ofNat_of_lt' h

theorem eq_ofNat_iff {s : UInt64} {x : ℕ} (h : x < 2 ^ 64) : s = UInt64.ofNat x ↔ s.toNat = x := by
  rw [← UInt64.toNat_inj, ofNat_toNat h]

theorem end_seq (e : End) : e.seq.toNat = 2 ∨ e.seq.toNat = 3 := by
  cases e
  · exact .inl rfl
  · exact .inr rfl

theorem end_or_item (s : ℕ) : (∃ e : End, s = e.seq.toNat) ∨ s ≠ 2 ∧ s ≠ 3 := by
  rcases eq_or_ne s 2 with rfl | h2
  · exact .inl ⟨.front, rfl⟩
  · rcases eq_or_ne s 3 with rfl | h3
    · exact .inl ⟨.back, rfl⟩
    · exact .inr ⟨h2, h3⟩

theorem seq_inj {e e' : End} : e.seq.toNat = e'.seq.toNat ↔ e = e' := by
  cases e <;> cases e' <;> decide

theorem push_some {e : End} {a : Bytes} {q' : NumberedQueue} (h : q.push e a = some q') :
    10000 < q.next e ∧ q.next e < 9223372036854775807 ∧ q'.items = q.pushed e a ∧
      q'.first = q.start e := by
  rw [Deque.push] at h
  split_ifs at h with hbound
  obtain rfl := Option.some.inj h
  exact ⟨hbound.1, hbound.2, rfl, rfl⟩

theorem number_push {e : End} {a : Bytes} {q' : NumberedQueue} (hne : q.items ≠ [])
    (h : q.push e a = some q') (e' : End) :
    q'.number e' = if e' = e then q.next e else q.number e' := by
  obtain ⟨h1, -, hitems, hfirst⟩ := push_some h
  have hlen := q.pushed_length e a
  have hs := q.seated hne
  have hpos := List.length_pos_iff.mpr hne
  cases e <;> cases e' <;>
    simp only [Deque.number, Deque.last, Deque.start, Deque.next, if_neg hne, hitems, hfirst, hlen,
      reduceCtorEq, if_true, if_false] at h1 ⊢ <;> omega

theorem record_push {e : End} {a : Bytes} {q' : NumberedQueue} (hne : q.items ≠ [])
    (h : q.push e a = some q') (s : ℕ) :
    record q' s = if s = q.next e then some a
      else if s = e.seq.toNat then some (memory (UInt64.ofNat (q.next e))) else record q s := by
  obtain ⟨hlow, -, hitems, -⟩ := push_some h
  have hne' : q'.items ≠ [] := by
    rw [hitems, ← List.length_pos_iff, Deque.pushed_length]
    omega
  rcases end_or_item s with ⟨e', rfl⟩ | ⟨h2, h3⟩
  · have hnext : e'.seq.toNat ≠ q.next e := by
      rcases end_seq e' with he | he <;> omega
    simp only [record_end hne', record_end hne, if_neg hnext, number_push hne h, seq_inj]
    split_ifs <;> rfl
  · have hseq : s ≠ e.seq.toNat := by
      rcases end_seq e with he | he <;> omega
    rw [record_item hne' h2 h3, record_item hne h2 h3, if_neg hseq, q.itemAt_push hne h]

theorem number_pop (e e' : End) (hne : (q.pop e).items ≠ []) :
    (q.pop e).number e' = if e' = e then (match e with
      | .front => q.number .front + 1
      | .back => q.number .back - 1) else q.number e' := by
  have hlen := q.pop_length e
  have hpos := List.length_pos_iff.mpr hne
  rw [hlen] at hpos
  cases e <;> cases e' <;>
    simp only [Deque.pop, List.length_tail, List.length_dropLast, Deque.number, Deque.last,
      reduceCtorEq, if_true, if_false] at hlen hpos ⊢ <;> omega

theorem record_pop (e : End) (hne : q.items ≠ []) (hne' : (q.pop e).items ≠ []) (s : ℕ) :
    record (q.pop e) s =
      if s = e.seq.toNat then some (memory (UInt64.ofNat ((q.pop e).number e)))
      else if s = q.number e then none else record q s := by
  have hlow := (number_bounds hne e).1
  rcases end_or_item s with ⟨e', rfl⟩ | ⟨h2, h3⟩
  · have hnumber : e'.seq.toNat ≠ q.number e := by
      rcases end_seq e' with he | he <;> omega
    rw [record_end hne', record_end hne, if_neg hnumber]
    simp only [seq_inj]
    split_ifs with he
    · rw [he]
    · rw [number_pop e e' hne', if_neg he]
  · have hseq : s ≠ e.seq.toNat := by
      rcases end_seq e with he | he <;> omega
    rw [record_item hne' h2 h3, record_item hne h2 h3, if_neg hseq, q.itemAt_pop e hne]

theorem record_single {e : End} (hne : q.items ≠ []) (hlen : (q.pop e).items = []) {s : ℕ}
    (h2 : s ≠ 2) (h3 : s ≠ 3) (hs : s ≠ q.number e) : record q s = none := by
  have hpop := q.pop_length e
  rw [hlen, List.length_nil] at hpop
  have hpos := List.length_pos_iff.mpr hne
  have hnumber : q.number e = q.first := by
    cases e with
    | front => rfl
    | back =>
      simp only [Deque.number, Deque.last]
      omega
  rw [record_item hne h2 h3]
  exact q.itemAt_none (by omega)

theorem record_set {i : ℕ} (a : Bytes) (h : i < q.items.length) (s : ℕ) :
    record (q.set i a) s = if s = q.first + i then some a else record q s := by
  have hne : q.items ≠ [] := List.length_pos_iff.mp (by omega)
  have hne' : (q.set i a).items ≠ [] := by
    rw [← List.length_pos_iff, Deque.set_length]
    omega
  have hs := q.seated hne
  rcases end_or_item s with ⟨e, rfl⟩ | ⟨h2, h3⟩
  · have hnumber : e.seq.toNat ≠ q.first + i := by
      rcases end_seq e with he | he <;> omega
    have hsame : (q.set i a).number e = q.number e := by
      cases e
      · rfl
      · simp only [Deque.number, Deque.last, Deque.set_length]
        rfl
    rw [record_end hne', record_end hne, if_neg hnumber, hsame]
  · rw [record_item hne' h2 h3, record_item hne h2 h3, q.itemAt_set i a h]

section reads
variable {w : SSDBImpl} (h : Stores w.ldb.data Q)
include h

theorem qitem_get (n : Bytes) (s : UInt64) :
    w.ldb.table.get (encodeQitemKey n s) = record (Q n) s.toNat := by
  rw [← LevelDB.data_eq (qitemKey_data n s), h.record]

theorem readSeq_nil (e : End) (hnil : (Q n).items = []) : readSeq w.ldb n e.seq = (0, 0) := by
  rw [readSeq, qitem_get h, record_nil hnil]

theorem readSeq_number (e : End) (hne : (Q n).items ≠ []) :
    readSeq w.ldb n e.seq = (1, UInt64.ofNat ((Q n).number e)) := by
  rw [readSeq, qitem_get h, record_end hne]
  simp

theorem readQsize_length (n : Bytes) : readQsize w.ldb n = Int64.ofNat (Q n).items.length := by
  have hget : w.ldb.table.get (encodeQsizeKey n) = counter (Q n).items.length := by
    rw [← LevelDB.data_eq (qsizeKey_data n), h.size]
  rw [readQsize, hget, counter]
  rcases eq_or_ne (Q n).items.length 0 with h0 | h0
  · rw [h0]
    rfl
  · simp [h0]

theorem readRecord_number (e : End) (hne : (Q n).items ≠ []) :
    w.ldb.readRecord (encodeQitemKey n (UInt64.ofNat ((Q n).number e))) = (1, (Q n).peek e) := by
  obtain ⟨h1, h2⟩ := number_bounds hne e
  obtain ⟨a, ha⟩ : ∃ a, (Q n).peek e = some a := by
    cases e with
    | front => exact ⟨_, List.head?_eq_some_head hne⟩
    | back => exact ⟨_, List.getLast?_eq_some_getLast hne⟩
  rw [LevelDB.readRecord, qitem_get h, ofNat_toNat (by omega),
    record_item hne (by omega) (by omega), (Q n).itemAt_number e hne, ha]

end reads

end Queues
