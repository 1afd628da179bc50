import Mathlib.Tactic

structure Trimmed (α : Type*) where
  entries : List α
  gone : ℕ
  gone_le : gone ≤ entries.length

namespace Trimmed
variable {α : Type*} (l : Trimmed α)

def empty : Trimmed α := ⟨[], 0, le_rfl⟩

def last : ℕ := l.entries.length

def get (n : ℕ) : Option α := if l.gone < n then l.entries[n - 1]? else none

def append (es : List α) : Trimmed α :=
  ⟨l.entries ++ es, l.gone, l.gone_le.trans (by simp)⟩

def trim (bound : ℕ) : Trimmed α :=
  ⟨l.entries, min (max l.gone (bound - 1)) l.entries.length, min_le_right _ _⟩

@[simp] theorem get_empty (n : ℕ) : (empty : Trimmed α).get n = none := by
  simp [empty, get]

@[simp] theorem append_nil : l.append [] = l := by
  simp [append]

@[simp] theorem last_append (es : List α) : (l.append es).last = l.last + es.length :=
  List.length_append

@[simp] theorem last_trim (bound : ℕ) : (l.trim bound).last = l.last := rfl

theorem get_ne_none {n : ℕ} : l.get n ≠ none ↔ l.gone < n ∧ n ≤ l.last := by
  have hle := l.gone_le
  rw [get, last]
  split_ifs with h
  · rw [ne_eq, List.getElem?_eq_none_iff]
    omega
  · simp [h]

theorem get_none {n : ℕ} (h : l.last < n) : l.get n = none :=
  not_not.mp fun hne => absurd (l.get_ne_none.mp hne).2 (not_le.mpr h)

theorem get_append (es : List α) (n : ℕ) :
    (l.append es).get n = if n ≤ l.last then l.get n else es[n - l.last - 1]? := by
  have hle := l.gone_le
  have hnew : (l.append es).get n = if l.gone < n then (l.entries ++ es)[n - 1]? else none := rfl
  rcases le_or_gt n l.last with hn | hn
  · rw [if_pos hn, hnew, get]
    rw [last] at hn
    split_ifs with h
    · exact List.getElem?_append_left (by omega)
    · rfl
  · rw [if_neg (not_le.mpr hn), hnew, last]
    rw [last] at hn
    rw [if_pos (by omega), List.getElem?_append_right (by omega)]
    congr 1
    omega

theorem get_trim (bound n : ℕ) : (l.trim bound).get n = if n < bound then none else l.get n := by
  have hle := l.gone_le
  rcases le_or_gt n l.last with hn | hn
  · have hnew : (l.trim bound).get n =
        if min (max l.gone (bound - 1)) l.entries.length < n then l.entries[n - 1]? else none := rfl
    rw [last] at hn
    rw [hnew, get]
    split_ifs <;> first | rfl | omega
  · rw [get_none _ hn, get_none (l.trim bound) hn, ite_self]

end Trimmed
