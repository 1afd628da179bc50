import Mathlib.Data.List.Sort
import Mathlib.Tactic

namespace Ordered
variable {α : Type} {l : List α}

theorem filter_split {r : α → α → Prop} {p : α → Bool} (hs : l.Pairwise r)
    (hdown : ∀ x ∈ l, ∀ y ∈ l, r x y → p y = true → p x = true) :
    l = l.filter p ++ l.filter (fun a => !p a) := by
  induction l with
  | nil => rfl
  | cons x l ih =>
    obtain ⟨hx, hl⟩ := List.pairwise_cons.mp hs
    have hrest := ih hl fun a ha b hb => hdown a (by simp [ha]) b (by simp [hb])
    cases hp : p x with
    | true =>
      rw [List.filter_cons_of_pos hp, List.filter_cons_of_neg (by simp [hp]), List.cons_append]
      exact congrArg (x :: ·) hrest
    | false =>
      have hnone : l.filter p = [] := List.filter_eq_nil_iff.mpr fun y hy hpy => by
        have hpx := hdown x (by simp) y (by simp [hy]) (hx y hy) hpy
        simp [hp] at hpx
      rw [hnone, List.nil_append] at hrest
      rw [List.filter_cons_of_neg (by simp [hp]), List.filter_cons_of_pos (by simp [hp]), hnone,
        List.nil_append, ← hrest]

theorem take_append_eq_left_iff (a b : List α) (m : ℕ) :
    (a ++ b).take m = a.take m ↔ b = [] ∨ m ≤ a.length := by
  rw [List.take_append, List.append_right_eq_self, List.take_eq_nil_iff, or_comm]
  exact or_congr_right (by omega)

theorem take_append_eq_right_iff {a b : List α} (h : ∀ x ∈ a, x ∉ b) (m : ℕ) :
    (a ++ b).take m = b.take m ↔ a = [] ∨ m = 0 := by
  constructor
  · intro he
    cases a with
    | nil => exact .inl rfl
    | cons x a =>
      cases m with
      | zero => exact .inr rfl
      | succ m =>
        have hx : x ∈ b.take (m + 1) := by
          rw [← he]
          simp
        exact absurd (List.mem_of_mem_take hx) (h x (by simp))
  · rintro (rfl | rfl)
    · rfl
    · rfl

theorem filter_lt_middle [LinearOrder α] {a b : List α} {x : α}
    (h : (a ++ x :: b).Pairwise (· < ·)) : (a ++ x :: b).filter (· < x) = a := by
  obtain ⟨-, hb, hab⟩ := List.pairwise_append.mp h
  have hbelow : a.filter (· < x) = a :=
    List.filter_eq_self.mpr fun y hy => decide_eq_true (hab y hy x (by simp))
  have habove : (x :: b).filter (· < x) = [] := List.filter_eq_nil_iff.mpr fun y hy => by
    rcases List.mem_cons.mp hy with rfl | hy
    · simp
    · simpa using ((List.pairwise_cons.mp hb).1 y hy).le
  rw [List.filter_append, hbelow, habove, List.append_nil]

end Ordered
