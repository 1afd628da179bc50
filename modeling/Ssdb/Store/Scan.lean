import Ssdb.Store.Iterator

namespace Iterator
variable {α : Type}

def ahead (i : Iterator) : List (Bytes × Bytes) :=
  match i.direction, i.isFirst with
  | .forward, true => i.it.after
  | .forward, false => i.it.after.tail
  | .backward, true => i.it.downward
  | .backward, false => i.it.before

def pending (i : Iterator) : List (Bytes × Bytes) :=
  (i.ahead.takeWhile (fun e => !i.past e.1)).take i.limit

def collect (f : Bytes × Bytes → Verdict α) : List (Bytes × Bytes) → List α
  | [] => []
  | e :: es =>
    match f e with
    | .stop => []
    | .skip => collect f es
    | .item a => a :: collect f es

theorem step_fixed (i : Iterator) :
    i.step.stop = i.stop ∧ i.step.limit = i.limit ∧ i.step.direction = i.direction ∧
      i.step.isFirst = false := by
  obtain ⟨it, stop, limit, isFirst, direction⟩ := i
  cases isFirst <;> cases direction <;> exact ⟨rfl, rfl, rfl, rfl⟩

theorem step_past (i : Iterator) (key : Bytes) : i.step.past key = i.past key := by
  obtain ⟨h1, -, h3, -⟩ := step_fixed i
  simp only [past, h1, h3]

theorem step_current (i : Iterator) : i.step.it.current = i.ahead.head? := by
  obtain ⟨⟨before, after⟩, stop, limit, isFirst, direction⟩ := i
  cases direction <;> cases isFirst
  · cases after <;> rfl
  · rfl
  · cases before <;> rfl
  · cases after <;> rfl

theorem step_ahead (i : Iterator) {e : Bytes × Bytes} {es : List (Bytes × Bytes)}
    (h : i.ahead = e :: es) : i.step.ahead = es := by
  obtain ⟨⟨before, after⟩, stop, limit, isFirst, direction⟩ := i
  cases direction <;> cases isFirst
  · cases after with
    | nil => simp [ahead] at h
    | cons a after =>
      simp only [ahead, List.tail_cons] at h
      subst h
      rfl
  · simp only [ahead] at h
    subst h
    rfl
  · simp only [ahead] at h
    subst h
    rfl
  · cases after with
    | nil => simp [ahead, Cursor.downward] at h
    | cons a after =>
      simp only [ahead, Cursor.downward, List.cons.injEq] at h
      exact h.2

theorem ahead_length (i : Iterator) : i.ahead.length ≤ i.it.size := by
  obtain ⟨⟨before, after⟩, stop, limit, isFirst, direction⟩ := i
  cases direction <;> cases isFirst <;> simp only [ahead, Cursor.size]
  · rw [List.length_tail]
    omega
  · omega
  · omega
  · cases after with
    | nil => simp [Cursor.downward]
    | cons a after =>
      simp only [Cursor.downward, List.length_cons]
      omega

theorem pending_length (i : Iterator) : i.pending.length < i.fuel := by
  have h1 := ahead_length i
  have h2 := (List.takeWhile_prefix (l := i.ahead) (fun e => !i.past e.1)).length_le
  rw [pending, List.length_take, fuel]
  omega

theorem pending_cons {i : Iterator} {e : Bytes × Bytes} {es : List (Bytes × Bytes)}
    (h : i.pending = e :: es) :
    i.limit ≠ 0 ∧ i.past e.1 = false ∧ ∃ rest, i.ahead = e :: rest ∧
      (rest.takeWhile (fun e => !i.past e.1)).take (i.limit - 1) = es := by
  have hlimit : i.limit ≠ 0 := fun h0 => by simp [pending, h0] at h
  obtain ⟨n, hn⟩ := Nat.exists_eq_succ_of_ne_zero hlimit
  rw [pending, hn] at h
  cases ha : i.ahead with
  | nil => simp [ha] at h
  | cons a rest =>
    rw [ha, List.takeWhile_cons] at h
    split_ifs at h with hp
    · simp only [List.take_succ_cons, List.cons.injEq] at h
      obtain ⟨rfl, rfl⟩ := h
      exact ⟨hlimit, by simpa using hp, rest, rfl, by rw [hn]; rfl⟩
    · simp at h

theorem next_cons {i : Iterator} {e : Bytes × Bytes} {es : List (Bytes × Bytes)}
    (h : i.pending = e :: es) :
    ∃ j, i.next = (true, j) ∧ (j.key, j.val) = e ∧ j.pending = es := by
  obtain ⟨hlimit, hpast, rest, ha, hrest⟩ := pending_cons h
  obtain ⟨h1, h2, h3, h4⟩ := step_fixed i
  have hcur : i.step.it.current = some e := by rw [step_current, ha]; rfl
  have hahead : i.step.ahead = rest := step_ahead i ha
  refine ⟨{ i.step with limit := i.step.limit - 1 }, ?_, ?_, ?_⟩
  · simp only [next, if_neg hlimit, hcur, step_past, hpast, Bool.false_eq_true, if_false]
  · simp [key, val, hcur]
  · rw [← hrest, ← hahead, ← h2]
    simp only [pending]
    congr 2
    funext e'
    exact congrArg (!·) (step_past i e'.1)

theorem next_nil {i : Iterator} (h : i.pending = []) :
    ∃ j, i.next = (false, j) ∧ j.pending = [] := by
  by_cases hlimit : i.limit = 0
  · exact ⟨i, by simp [next, hlimit], h⟩
  · have hcur := step_current i
    refine ⟨{ i.step with limit := 0 }, ?_, by simp [pending]⟩
    cases ha : i.ahead with
    | nil =>
      rw [ha] at hcur
      simp [next, hlimit, hcur]
    | cons e rest =>
      rw [ha] at hcur
      have hpast : i.past e.1 = true := by
        cases hp : i.past e.1 with
        | true => rfl
        | false =>
          obtain ⟨n, hn⟩ := Nat.exists_eq_succ_of_ne_zero hlimit
          rw [pending, ha, hn, List.takeWhile_cons_of_pos (by simp [hp])] at h
          simp at h
      have hcur' : i.step.it.current = some e := hcur
      simp only [next, if_neg hlimit, hcur', step_past, hpast, if_true]

def walk (f : Bytes × Bytes → Verdict α) : List (Bytes × Bytes) → Option α × List (Bytes × Bytes)
  | [] => (none, [])
  | e :: es =>
    match f e with
    | .stop => (none, es)
    | .skip => walk f es
    | .item a => (some a, es)

theorem nextWith_walk (f : Bytes × Bytes → Verdict α) {n : ℕ} {i : Iterator}
    (h : i.pending.length < n) :
    (nextWith f n i).1 = (walk f i.pending).1 ∧
      (nextWith f n i).2.pending = (walk f i.pending).2 := by
  induction n generalizing i with
  | zero => omega
  | succ n ih =>
    cases hp : i.pending with
    | nil =>
      obtain ⟨j, hj, hjp⟩ := next_nil hp
      simp only [nextWith, hj]
      exact ⟨rfl, hjp⟩
    | cons e es =>
      obtain ⟨j, hj, he, hjp⟩ := next_cons hp
      simp only [nextWith, hj, he, walk]
      cases hf : f e with
      | stop => exact ⟨rfl, hjp⟩
      | skip =>
        rw [hp, List.length_cons] at h
        have hlen : j.pending.length < n := by
          rw [hjp]
          omega
        have hrec := ih hlen
        rw [hjp] at hrec
        exact hrec
      | item a => exact ⟨rfl, hjp⟩

theorem collect_walk (f : Bytes × Bytes → Verdict α) (es : List (Bytes × Bytes)) :
    collect f es = match (walk f es).1 with
      | none => []
      | some a => a :: collect f (walk f es).2 := by
  induction es with
  | nil => rfl
  | cons e es ih =>
    rw [collect, walk]
    cases hf : f e with
    | stop => rfl
    | skip => exact ih
    | item a => rfl

theorem walk_item_length {f : Bytes × Bytes → Verdict α} {es : List (Bytes × Bytes)} {a : α}
    (h : (walk f es).1 = some a) : (walk f es).2.length < es.length := by
  induction es with
  | nil => simp [walk] at h
  | cons e es ih =>
    rw [walk] at h ⊢
    cases hf : f e with
    | stop => simp [hf] at h
    | skip =>
      simp only [hf] at h ⊢
      exact (ih h).trans (Nat.lt_succ_self _)
    | item b => exact Nat.lt_succ_self _

theorem itemsFrom_collect (f : Bytes × Bytes → Verdict α) {n : ℕ} {i : Iterator}
    (h : i.pending.length < n) : itemsFrom f n i = collect f i.pending := by
  induction n generalizing i with
  | zero => omega
  | succ n ih =>
    obtain ⟨h1, h2⟩ := nextWith_walk f (pending_length i)
    rw [itemsFrom, collect_walk]
    cases hw : (walk f i.pending).1 with
    | none =>
      rw [hw] at h1
      rcases hn : nextWith f i.fuel i with ⟨r, j⟩
      rw [hn] at h1
      simp only at h1
      subst h1
      rfl
    | some a =>
      rw [hw] at h1
      rcases hn : nextWith f i.fuel i with ⟨r, j⟩
      rw [hn] at h1 h2
      simp only at h1 h2
      subst h1
      have hlt := walk_item_length hw
      rw [← h2] at hlt
      rw [← h2]
      exact congrArg (a :: ·) (ih (by omega))

theorem items_collect (f : Bytes × Bytes → Verdict α) (i : Iterator) :
    i.items f = collect f i.pending := itemsFrom_collect f (pending_length i)

theorem collect_map {β : Type} {f : Bytes × Bytes → Verdict α} {g : β → α} {h : β → Bytes × Bytes}
    {l : List β} (hitem : ∀ b ∈ l, f (h b) = .item (g b)) : collect f (l.map h) = l.map g := by
  induction l with
  | nil => rfl
  | cons b l ih =>
    rw [List.map_cons, collect, hitem b (by simp), List.map_cons]
    exact congrArg (_ :: ·) (ih fun b' h' => hitem b' (by simp [h']))

theorem collect_while {f : Bytes × Bytes → Verdict α} {g : Bytes × Bytes → α}
    {p : Bytes × Bytes → Bool} {es : List (Bytes × Bytes)}
    (hitem : ∀ e ∈ es, p e = true → f e = .item (g e))
    (hstop : ∀ e ∈ es, p e = false → f e = .stop) (m : ℕ) :
    collect f (es.take m) = ((es.takeWhile p).map g).take m := by
  induction es generalizing m with
  | nil => simp [collect]
  | cons e es ih =>
    cases m with
    | zero => simp [collect]
    | succ m =>
      have hrest := ih (fun e' h' => hitem e' (by simp [h'])) (fun e' h' => hstop e' (by simp [h'])) m
      rw [List.take_succ_cons, collect]
      cases hp : p e with
      | true =>
        rw [hitem e (by simp) hp, List.takeWhile_cons_of_pos hp, List.map_cons, List.take_succ_cons]
        exact congrArg (g e :: ·) hrest
      | false =>
        rw [hstop e (by simp) hp, List.takeWhile_cons_of_neg (by simp [hp])]
        rfl

theorem nextWith_items (f : Bytes × Bytes → Verdict α) (i : Iterator) :
    (i.items f = [] ∧ ∃ j, nextWith f i.fuel i = (none, j)) ∨
      ∃ a l j, i.items f = a :: l ∧ nextWith f i.fuel i = (some a, j) ∧ j.items f = l := by
  obtain ⟨hitem, hpending⟩ := nextWith_walk f (pending_length i)
  rw [items_collect, collect_walk]
  rcases hn : nextWith f i.fuel i with ⟨_ | a, j⟩
  · rw [hn] at hitem
    rw [← hitem]
    exact .inl ⟨rfl, j, rfl⟩
  · rw [hn] at hitem hpending
    rw [← hitem, ← hpending]
    exact .inr ⟨a, _, j, rfl, rfl, items_collect f j⟩

end Iterator

namespace HIterator

theorem next_rest (h : HIterator) :
    (h.rest = [] ∧ ∃ h', h.next = (false, h')) ∨
      ∃ a l h', h.rest = a :: l ∧ h.next = (true, h') ∧ (h'.key, h'.val) = a ∧ h'.rest = l := by
  rw [rest, next]
  rcases Iterator.nextWith_items (hVerdict h.name) h.it with ⟨hnil, j, hj⟩ | ⟨a, l, j, hl, hj, hrest⟩
  · rw [hj]
    exact .inl ⟨hnil, _, rfl⟩
  · rw [hj]
    exact .inr ⟨a, l, _, hl, rfl, rfl, hrest⟩

end HIterator

namespace ZIterator

theorem next_rest (z : ZIterator) :
    (z.rest = [] ∧ z.next.1 = false) ∨
      ∃ a l z', z.rest = a :: l ∧ z.next = (true, z') ∧ (z'.key, z'.score) = a ∧ z'.rest = l := by
  rw [rest, next]
  rcases Iterator.nextWith_items zVerdict z.it with ⟨hnil, j, hj⟩ | ⟨a, l, j, hl, hj, hrest⟩
  · rw [hj]
    exact .inl ⟨hnil, rfl⟩
  · rw [hj]
    exact .inr ⟨a, l, _, hl, rfl, rfl, hrest⟩

end ZIterator

namespace LevelDB
open Iterator

def between (start stop : Bytes) (e : Bytes × Bytes) : Bool :=
  decide (start < e.1 ∧ (stop = [] ∨ e.1 ≤ stop))

def betweenDown (start stop : Bytes) (e : Bytes × Bytes) : Bool :=
  decide (e.1 < start ∧ (stop = [] ∨ stop ≤ e.1))

theorem iterator_ahead (db : LevelDB) (start stop : Bytes) (limit : ℕ) :
    (db.iterator start stop limit).ahead = db.table.entries.filter (fun e => start < e.1) := by
  have habove := Cursor.after_above db.table start
  by_cases h : (Cursor.seek db.table start).current.map Prod.fst = some start
  · rw [if_pos h] at habove
    simp only [iterator, ahead, if_pos h, habove]
    exact List.filter_congr fun _ _ => decide_eq_decide.mpr Iff.rfl
  · rw [if_neg h] at habove
    simp only [iterator, ahead, if_neg h, habove]
    exact List.filter_congr fun _ _ => decide_eq_decide.mpr Iff.rfl

theorem revIterator_ahead (db : LevelDB) (start stop : Bytes) (limit : ℕ) :
    (db.revIterator start stop limit).ahead =
      (db.table.entries.filter (fun e => e.1 < start)).reverse :=
  (Cursor.downward_below db.table start).trans
    (congrArg List.reverse (List.filter_congr fun _ _ => decide_eq_decide.mpr Iff.rfl))

theorem iterator_pending (db : LevelDB) (start stop : Bytes) (limit : ℕ) :
    (db.iterator start stop limit).pending =
      (db.table.entries.filter (between start stop)).take limit := by
  have hsorted : (db.table.entries.filter (fun e => start < e.1)).Pairwise
      (fun p q => p.1 < q.1) := db.table.sorted.filter _
  have hpast (e : Bytes × Bytes) : (db.iterator start stop limit).past e.1 =
      decide (stop ≠ [] ∧ stop < e.1) := rfl
  rw [pending, iterator_ahead]
  refine congrArg (List.take limit) ?_
  simp only [hpast]
  by_cases hstop : stop = []
  · subst hstop
    have hnone (e : Bytes × Bytes) : (!decide ((([] : Bytes) ≠ []) ∧ [] < e.1)) = true := by simp
    rw [List.takeWhile_eq_self_iff.mpr fun e _ => hnone e]
    exact List.filter_congr fun _ _ => by simp [between]
  · have htake := Cursor.takeWhile_le hsorted stop
    rw [List.filter_filter] at htake
    simp only [hstop, ne_eq, not_false_eq_true, true_and]
    refine Eq.trans (congrArg (List.takeWhile · _) ?_) (htake.trans (List.filter_congr ?_))
    · funext e
      rw [← decide_not, decide_eq_decide, not_lt]
    · intro e _
      simp [between, hstop, and_comm]

theorem revIterator_pending (db : LevelDB) (start stop : Bytes) (limit : ℕ) :
    (db.revIterator start stop limit).pending =
      (db.table.entries.filter (betweenDown start stop)).reverse.take limit := by
  have hsorted : (db.table.entries.filter (fun e => e.1 < start)).reverse.Pairwise
      (fun p q => q.1 < p.1) := List.pairwise_reverse.mpr (db.table.sorted.filter _)
  have hpast (e : Bytes × Bytes) : (db.revIterator start stop limit).past e.1 =
      decide (stop ≠ [] ∧ e.1 < stop) := rfl
  rw [pending, revIterator_ahead]
  refine congrArg (List.take limit) ?_
  simp only [hpast]
  by_cases hstop : stop = []
  · subst hstop
    have hnone (e : Bytes × Bytes) : (!decide ((([] : Bytes) ≠ []) ∧ e.1 < [])) = true := by simp
    rw [List.takeWhile_eq_self_iff.mpr fun e _ => hnone e]
    exact congrArg List.reverse (List.filter_congr fun _ _ => by simp [betweenDown])
  · have htake := Cursor.takeWhile_ge hsorted stop
    rw [List.filter_reverse, List.filter_filter] at htake
    simp only [hstop, ne_eq, not_false_eq_true, true_and]
    refine Eq.trans (congrArg (List.takeWhile · _) ?_)
      (htake.trans (congrArg List.reverse (List.filter_congr ?_)))
    · funext e
      rw [← decide_not, decide_eq_decide, not_lt]
    · intro e _
      simp [betweenDown, hstop, and_comm]

end LevelDB
