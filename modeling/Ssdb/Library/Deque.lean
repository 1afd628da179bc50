import Mathlib.Data.List.Basic
import Mathlib.Tactic

inductive End where
  | front | back
deriving DecidableEq, Repr

structure Deque (α : Type) (low init high : ℕ) where
  first : ℕ
  items : List α
  seated : items ≠ [] → low < first ∧ first + items.length ≤ high

namespace Deque
variable {α : Type} {low init high : ℕ} (q : Deque α low init high)

def empty : Deque α low init high := ⟨init, [], fun h => absurd rfl h⟩

def next : End → ℕ
  | .front => if q.items = [] then init else q.first - 1
  | .back => if q.items = [] then init else q.first + q.items.length

def last : ℕ := q.first + q.items.length - 1

def number : End → ℕ
  | .front => q.first
  | .back => q.last

def pushed (e : End) (a : α) : List α :=
  match e with
  | .front => a :: q.items
  | .back => q.items ++ [a]

theorem pushed_nil (h : q.items = []) (e : End) (a : α) : q.pushed e a = [a] := by
  cases e <;> simp [pushed, h]

theorem pushed_length (e : End) (a : α) : (q.pushed e a).length = q.items.length + 1 := by
  cases e <;> simp [pushed]

def start (e : End) : ℕ :=
  match e with
  | .front => q.next .front
  | .back => if q.items = [] then init else q.first

theorem push_seated (e : End) (h : low < q.next e ∧ q.next e < high) (a : α) :
    low < q.start e ∧ q.start e + (q.pushed e a).length ≤ high := by
  rw [pushed_length]
  by_cases hnil : q.items = []
  · cases e <;> simp [start, next, hnil] at h ⊢ <;> omega
  · have hs := q.seated hnil
    cases e <;> simp only [start, next, if_neg hnil] at h ⊢ <;> omega

def push (e : End) (a : α) : Option (Deque α low init high) :=
  if h : low < q.next e ∧ q.next e < high then
    some ⟨q.start e, q.pushed e a, fun _ => q.push_seated e h a⟩
  else none

def peek : End → Option α
  | .front => q.items.head?
  | .back => q.items.getLast?

def pop : End → Deque α low init high
  | .front => ⟨q.first + 1, q.items.tail, fun h => by
      have hs := q.seated fun hnil => h (by rw [hnil, List.tail_nil])
      have hpos := List.length_pos_iff.mpr h
      rw [List.length_tail] at hpos ⊢
      omega⟩
  | .back => ⟨q.first, q.items.dropLast, fun h => by
      have hs := q.seated fun hnil => h (by rw [hnil, List.dropLast_nil])
      rw [List.length_dropLast]
      omega⟩

def set (i : ℕ) (a : α) : Deque α low init high :=
  ⟨q.first, q.items.set i a, fun h => by
    have hs := q.seated fun hnil => h (by rw [hnil, List.set_nil])
    rwa [List.length_set]⟩

def place (index : Int) : Option ℕ :=
  if 0 ≤ index then if index < q.items.length then some index.toNat else none
  else if -q.items.length ≤ index then some (q.items.length + index).toNat else none

def position (index : Int) : Int := if 0 ≤ index then index else q.items.length + index

theorem place_eq_some_iff {index : Int} {i : ℕ} :
    q.place index = some i ↔ q.position index = i ∧ i < q.items.length := by
  rw [place, position]
  split_ifs <;> simp only [Option.some.injEq, false_iff, not_and] <;> omega

def itemAt (s : ℕ) : Option α := if s < q.first then none else q.items[s - q.first]?

theorem itemAt_none (h : s < q.first ∨ q.first + q.items.length ≤ s) : q.itemAt s = none := by
  rw [itemAt]
  split_ifs with hs
  · rfl
  · exact List.getElem?_eq_none (by omega)

theorem itemAt_isSome_iff (s : ℕ) :
    q.itemAt s ≠ none ↔ q.first ≤ s ∧ s < q.first + q.items.length := by
  rw [itemAt]
  split_ifs with hs
  · simp
    omega
  · rw [ne_eq, List.getElem?_eq_none_iff]
    omega

theorem itemAt_add (i : ℕ) : q.itemAt (q.first + i) = q.items[i]? := by
  rw [itemAt, if_neg (by omega), Nat.add_sub_cancel_left]

theorem itemAt_number (e : End) (h : q.items ≠ []) : q.itemAt (q.number e) = q.peek e := by
  have hpos := List.length_pos_iff.mpr h
  cases e with
  | front => simp [itemAt, number, peek, List.head?_eq_getElem?]
  | back =>
    have hlt : ¬q.first + q.items.length - 1 < q.first := by omega
    have hidx : q.first + q.items.length - 1 - q.first = q.items.length - 1 := by omega
    rw [number, last, itemAt, if_neg hlt, hidx, peek, List.getLast?_eq_getElem?]

theorem itemAt_push {e : End} {a : α} {q' : Deque α low init high} (hne : q.items ≠ [])
    (h : q.push e a = some q') (s : ℕ) : q'.itemAt s = if s = q.next e then some a else q.itemAt s := by
  rw [push] at h
  split_ifs at h with hbound
  obtain rfl := Option.some.inj h
  have hs := q.seated hne
  cases e with
  | front =>
    simp only [itemAt, start, next, if_neg hne, pushed]
    rcases lt_trichotomy s (q.first - 1) with hlt | rfl | hgt
    · have h1 : s < q.first := by omega
      simp [hlt, hlt.ne, h1]
    · simp
    · have h1 : ¬s < q.first - 1 := by omega
      have h2 : ¬s < q.first := by omega
      have h3 : s - (q.first - 1) = s - q.first + 1 := by omega
      simp [h1, hgt.ne', h2, h3]
  | back =>
    simp only [itemAt, start, next, if_neg hne, pushed]
    rcases lt_trichotomy s (q.first + q.items.length) with hlt | rfl | hgt
    · by_cases h1 : s < q.first
      · simp [h1, hlt.ne]
      · have h2 : s - q.first < q.items.length := by omega
        simp [h1, hlt.ne, List.getElem?_append_left h2]
    · simp
    · have h1 : ¬s < q.first := by omega
      have h2 : (q.items ++ [a])[s - q.first]? = none := List.getElem?_eq_none (by simp; omega)
      have h3 : q.items[s - q.first]? = none := List.getElem?_eq_none (by omega)
      simp [h1, hgt.ne', h2, h3]

theorem itemAt_pop (e : End) (hne : q.items ≠ []) (s : ℕ) :
    (q.pop e).itemAt s = if s = q.number e then none else q.itemAt s := by
  have hpos := List.length_pos_iff.mpr hne
  cases e with
  | front =>
    simp only [itemAt, pop, number, List.getElem?_tail]
    rcases lt_trichotomy s q.first with hlt | rfl | hgt
    · have h1 : s < q.first + 1 := by omega
      simp [hlt, hlt.ne, h1]
    · simp
    · have h1 : ¬s < q.first + 1 := by omega
      have h2 : ¬s < q.first := by omega
      have h3 : s - (q.first + 1) + 1 = s - q.first := by omega
      simp [h1, hgt.ne', h2, h3]
  | back =>
    simp only [itemAt, pop, number, last, List.getElem?_dropLast]
    split_ifs <;> first | rfl | omega | simp; omega

theorem itemAt_set (i : ℕ) (a : α) (h : i < q.items.length) (s : ℕ) :
    (q.set i a).itemAt s = if s = q.first + i then some a else q.itemAt s := by
  simp only [itemAt, set, List.getElem?_set]
  split_ifs <;> first | rfl | omega

theorem set_length (i : ℕ) (a : α) : (q.set i a).items.length = q.items.length :=
  List.length_set

theorem pop_length (e : End) : (q.pop e).items.length = q.items.length - 1 := by
  cases e <;> simp [pop]

theorem push_eq_none_iff (e : End) (a : α) :
    q.push e a = none ↔ q.next e ≤ low ∨ high ≤ q.next e := by
  rw [push]
  split_ifs with h
  · simp
    omega
  · simp
    omega

end Deque
