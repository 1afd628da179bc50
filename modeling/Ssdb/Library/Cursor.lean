import Ssdb.Library.OrdMap

structure Cursor (α β : Type) where
  before : List (α × β)
  after : List (α × β)

namespace Cursor
variable {α β : Type} [LinearOrder α]

def seek (m : OrdMap α β) (k : α) : Cursor α β :=
  ⟨(m.entries.takeWhile (fun e => e.1 < k)).reverse, m.entries.dropWhile (fun e => e.1 < k)⟩

def seekToFirst (m : OrdMap α β) : Cursor α β := ⟨[], m.entries⟩

def seekToLast (m : OrdMap α β) : Cursor α β :=
  match m.entries.reverse with
  | [] => ⟨[], []⟩
  | e :: es => ⟨es, [e]⟩

def current (c : Cursor α β) : Option (α × β) := c.after.head?

def valid (c : Cursor α β) : Bool := c.current.isSome

def next (c : Cursor α β) : Cursor α β :=
  match c.after with
  | [] => ⟨[], []⟩
  | e :: es => ⟨e :: c.before, es⟩

def prev (c : Cursor α β) : Cursor α β :=
  match c.before with
  | [] => ⟨[], []⟩
  | e :: es => ⟨es, e :: c.after⟩

def size (c : Cursor α β) : ℕ := c.before.length + c.after.length

def downward (c : Cursor α β) : List (α × β) :=
  match c.after with
  | [] => []
  | e :: _ => e :: c.before

variable {es : List (α × β)}

theorem takeWhile_eq_filter {γ : Type} {r : γ → γ → Prop} {p : γ → Bool} {l : List γ}
    (hs : l.Pairwise r) (hdown : ∀ x ∈ l, ∀ y ∈ l, r x y → p y = true → p x = true) :
    l.takeWhile p = l.filter p := by
  induction l with
  | nil => rfl
  | cons x l ih =>
    obtain ⟨hx, hl⟩ := List.pairwise_cons.mp hs
    cases hp : p x with
    | true =>
      rw [List.takeWhile_cons_of_pos hp, List.filter_cons_of_pos hp]
      exact congrArg (x :: ·) (ih hl fun a ha b hb => hdown a (by simp [ha]) b (by simp [hb]))
    | false =>
      have hrest : l.filter p = [] := List.filter_eq_nil_iff.mpr fun y hy hpy => by
        have hpx := hdown x (by simp) y (by simp [hy]) (hx y hy) hpy
        simp [hp] at hpx
      rw [List.takeWhile_cons_of_neg (by simp [hp]), List.filter_cons_of_neg (by simp [hp]), hrest]

theorem takeWhile_lt (hs : es.Pairwise (fun p q => p.1 < q.1)) (k : α) :
    es.takeWhile (fun e => e.1 < k) = es.filter (fun e => e.1 < k) :=
  takeWhile_eq_filter hs fun _ _ _ _ hr hp => decide_eq_true (hr.trans (of_decide_eq_true hp))

theorem takeWhile_le (hs : es.Pairwise (fun p q => p.1 < q.1)) (k : α) :
    es.takeWhile (fun e => e.1 ≤ k) = es.filter (fun e => e.1 ≤ k) :=
  takeWhile_eq_filter hs fun _ _ _ _ hr hp => decide_eq_true (hr.le.trans (of_decide_eq_true hp))

theorem takeWhile_ge (hs : es.Pairwise (fun p q => q.1 < p.1)) (k : α) :
    es.takeWhile (fun e => k ≤ e.1) = es.filter (fun e => k ≤ e.1) :=
  takeWhile_eq_filter hs fun _ _ _ _ hr hp => decide_eq_true ((of_decide_eq_true hp).trans hr.le)

theorem dropWhile_lt (hs : es.Pairwise (fun p q => p.1 < q.1)) (k : α) :
    es.dropWhile (fun e => e.1 < k) = es.filter (fun e => k ≤ e.1) := by
  induction es with
  | nil => rfl
  | cons e es ih =>
    obtain ⟨he, hes⟩ := List.pairwise_cons.mp hs
    by_cases hk : e.1 < k
    · simp [hk, ih hes]
    · have hrest : es.filter (fun e => k ≤ e.1) = es :=
        List.filter_eq_self.mpr fun p hp => by
          simpa using (not_lt.mp hk).trans (he p hp).le
      simp [hk, not_lt.mp hk, hrest]

theorem seek_before (m : OrdMap α β) (k : α) :
    (seek m k).before = (m.entries.filter (fun e => e.1 < k)).reverse := by
  rw [seek, takeWhile_lt m.sorted]

theorem seek_after (m : OrdMap α β) (k : α) :
    (seek m k).after = m.entries.filter (fun e => k ≤ e.1) := by
  rw [seek, dropWhile_lt m.sorted]

theorem downward_below (m : OrdMap α β) (k : α) :
    downward (if (seek m k).valid then (seek m k).prev else seekToLast m) =
      (m.entries.filter (fun e => e.1 < k)).reverse := by
  cases hv : (seek m k).after with
  | nil =>
    have hall : m.entries.filter (fun e => e.1 < k) = m.entries := by
      rw [seek_after] at hv
      refine List.filter_eq_self.mpr fun p hp => ?_
      simpa using List.filter_eq_nil_iff.mp hv p hp
    have hnot : (seek m k).valid = false := by simp [valid, current, hv]
    rw [hnot, hall, if_neg (by simp), seekToLast]
    cases m.entries.reverse <;> rfl
  | cons e es =>
    have hyes : (seek m k).valid = true := by simp [valid, current, hv]
    rw [hyes, if_pos rfl, prev, ← seek_before]
    cases (seek m k).before <;> rfl

theorem filter_le_cons (hs : es.Pairwise (fun p q => p.1 < q.1)) (k : α) :
    es.filter (fun e => k ≤ e.1) =
      (es.filter (fun e => e.1 = k)) ++ es.filter (fun e => k < e.1) := by
  induction es with
  | nil => rfl
  | cons e es ih =>
    obtain ⟨he, hes⟩ := List.pairwise_cons.mp hs
    rcases lt_trichotomy e.1 k with hlt | heq | hgt
    · simp [not_le.mpr hlt, hlt.ne, not_lt.mpr hlt.le, ih hes]
    · have hall : ∀ p ∈ es, k < p.1 := fun p hp => heq ▸ he p hp
      rw [List.filter_cons_of_pos (by simp [heq]), List.filter_cons_of_pos (by simp [heq]),
        List.filter_cons_of_neg (by simp [heq]), ih hes]
      rfl
    · have hnone : es.filter (fun e => e.1 = k) = [] :=
        List.filter_eq_nil_iff.mpr fun p hp => by simpa using (hgt.trans (he p hp)).ne'
      simp [hgt.le, hgt.ne', hgt, ih hes, hnone]

theorem filter_key (hs : es.Pairwise (fun p q => p.1 < q.1)) (k : α) :
    es.filter (fun e => e.1 = k) = ((OrdMap.find k es).map (fun v => (k, v))).toList := by
  induction es with
  | nil => rfl
  | cons e es ih =>
    obtain ⟨he, hes⟩ := List.pairwise_cons.mp hs
    rw [OrdMap.find]
    split_ifs with hk
    · have hnone : es.filter (fun e => e.1 = k) = [] :=
        List.filter_eq_nil_iff.mpr fun p hp => by simpa [hk] using (he p hp).ne'
      rw [List.filter_cons_of_pos (by simp [hk]), hnone, hk]
      rfl
    · rw [List.filter_cons_of_neg (by simpa using Ne.symm hk), ih hes]

theorem after_above (m : OrdMap α β) (k : α) :
    (if (seek m k).current.map Prod.fst = some k then (seek m k).next else seek m k).after =
      m.entries.filter (fun e => k < e.1) := by
  have hsplit := filter_le_cons m.sorted k
  rw [← seek_after, filter_key m.sorted] at hsplit
  cases hm : OrdMap.find k m.entries with
  | none =>
    rw [hm, Option.map_none, Option.toList_none, List.nil_append] at hsplit
    have hne : (seek m k).current.map Prod.fst ≠ some k := by
      rw [current, hsplit]
      intro h
      obtain ⟨e, he, hek⟩ := Option.map_eq_some_iff.mp h
      have hmem := List.mem_of_head? he
      simp only [List.mem_filter, decide_eq_true_eq] at hmem
      exact absurd hek hmem.2.ne'
    rw [if_neg hne, hsplit]
  | some v =>
    rw [hm, Option.map_some, Option.toList_some, List.singleton_append] at hsplit
    have heq : (seek m k).current.map Prod.fst = some k := by
      rw [current, hsplit]
      rfl
    rw [if_pos heq, next, hsplit]

theorem current_seek (m : OrdMap α β) (k : α) :
    (∀ e, (seek m k).current = some e →
      e ∈ m.entries ∧ k ≤ e.1 ∧ ∀ e' ∈ m.entries, k ≤ e'.1 → e.1 ≤ e'.1) ∧
      ((seek m k).current = none → ∀ e ∈ m.entries, e.1 < k) := by
  have hs := m.sorted.filter fun e => decide (k ≤ e.1)
  rw [current, seek_after]
  cases h : m.entries.filter fun e => decide (k ≤ e.1) with
  | nil =>
    refine ⟨fun e he => by simp at he, fun _ e he => ?_⟩
    simpa using List.filter_eq_nil_iff.mp h e he
  | cons e es =>
    rw [h] at hs
    have hmem (e' : α × β) : e' ∈ e :: es ↔ e' ∈ m.entries ∧ k ≤ e'.1 := by
      rw [← h, List.mem_filter, decide_eq_true_iff]
    refine ⟨fun x hx => ?_, fun hx => by simp at hx⟩
    obtain rfl : e = x := Option.some.inj hx
    obtain ⟨hin, hk⟩ := (hmem e).mp (by simp)
    refine ⟨hin, hk, fun e' he' hk' => ?_⟩
    rcases List.mem_cons.mp ((hmem e').mpr ⟨he', hk'⟩) with rfl | hrest
    · exact le_rfl
    · exact ((List.pairwise_cons.mp hs).1 e' hrest).le

theorem current_below (m : OrdMap α β) (k : α) :
    (∀ e, (if (seek m k).valid then (seek m k).prev else seekToLast m).current = some e →
      e ∈ m.entries ∧ e.1 < k ∧ ∀ e' ∈ m.entries, e'.1 < k → e'.1 ≤ e.1) ∧
      ((if (seek m k).valid then (seek m k).prev else seekToLast m).current = none →
        ∀ e ∈ m.entries, k ≤ e.1) := by
  have hdown := downward_below m k
  generalize (if (seek m k).valid then (seek m k).prev else seekToLast m) = c at hdown
  have hs := List.pairwise_reverse.mpr (m.sorted.filter fun e => decide (e.1 < k))
  have hmem (e : α × β) : e ∈ c.downward ↔ e ∈ m.entries ∧ e.1 < k := by
    rw [hdown, List.mem_reverse, List.mem_filter, decide_eq_true_iff]
  rw [← hdown] at hs
  rw [current]
  rw [downward] at hs hmem
  cases h : c.after with
  | nil =>
    refine ⟨fun e he => by simp at he, fun _ e he => not_lt.mp fun hlt => ?_⟩
    simpa [h] using (hmem e).mpr ⟨he, hlt⟩
  | cons e es =>
    simp only [h] at hs hmem
    refine ⟨fun x hx => ?_, fun hx => by simp at hx⟩
    obtain rfl : e = x := Option.some.inj hx
    obtain ⟨hin, hk⟩ := (hmem e).mp (by simp)
    refine ⟨hin, hk, fun e' he' hk' => ?_⟩
    rcases List.mem_cons.mp ((hmem e').mpr ⟨he', hk'⟩) with rfl | hrest
    · exact le_rfl
    · exact ((List.pairwise_cons.mp hs).1 e' hrest).le

end Cursor
