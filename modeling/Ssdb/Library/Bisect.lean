import Mathlib.Tactic

namespace Bisect

def search (p : ℕ → Bool) : ℕ → ℕ → ℕ → ℕ
  | 0, _, right => right
  | fuel + 1, left, right =>
    if left < right then
      let mid := (left + right) / 2
      if p mid then search p fuel left mid else search p fuel (mid + 1) right
    else right

variable {p : ℕ → Bool}

theorem search_spec (fuel left right : ℕ) (hfuel : right ≤ left + fuel) (hle : left ≤ right)
    (hmono : ∀ i j, i ≤ j → j < right → p i = true → p j = true) :
    left ≤ search p fuel left right ∧ search p fuel left right ≤ right ∧
      (∀ i, left ≤ i → i < search p fuel left right → p i = false) ∧
      (∀ i, search p fuel left right ≤ i → i < right → p i = true) := by
  induction fuel generalizing left right with
  | zero => exact ⟨hle, le_rfl, fun i hl hr => by grind [search], fun i hl hr => by grind [search]⟩
  | succ fuel ih =>
    rw [search]
    by_cases hlt : left < right
    · have hmid : left ≤ (left + right) / 2 ∧ (left + right) / 2 < right := by omega
      rw [if_pos hlt]
      dsimp only
      cases hp : p ((left + right) / 2) with
      | true =>
        rw [if_pos rfl]
        obtain ⟨hl, hr, hbefore, hafter⟩ := ih left ((left + right) / 2) (by omega)
          (by omega) fun i j hij hj => hmono i j hij (hj.trans hmid.2)
        refine ⟨hl, hr.trans hmid.2.le, hbefore, fun i hi hlt' => ?_⟩
        rcases lt_or_ge i ((left + right) / 2) with hlow | hhigh
        · exact hafter i hi hlow
        · exact hmono _ i hhigh hlt' hp
      | false =>
        rw [if_neg Bool.false_ne_true]
        obtain ⟨hl, hr, hbefore, hafter⟩ := ih ((left + right) / 2 + 1) right (by omega)
          (by omega) hmono
        refine ⟨by omega, hr, fun i hi hlt' => ?_, hafter⟩
        rcases le_or_gt i ((left + right) / 2) with hlow | hhigh
        · by_contra hnot
          exact absurd (hmono i _ hlow hmid.2 (by simpa using hnot)) (by simp [hp])
        · exact hbefore i hhigh hlt'
    · rw [if_neg hlt]
      exact ⟨hle, le_rfl, fun i hi hr => by omega, fun i hi hr => by omega⟩

theorem getElem?_search {α : Type} {l : List α} {p : α → Bool}
    (h : l.Pairwise fun a b => p a = true → p b = true) :
    l[search (fun i => (l[i]?).any p) l.length 0 l.length]? = l.find? p := by
  have hmono (i j : ℕ) (hij : i ≤ j) (hj : j < l.length) (hp : (l[i]?).any p = true) :
      (l[j]?).any p = true := by
    rw [List.getElem?_eq_getElem (by omega), Option.any_some] at hp
    rw [List.getElem?_eq_getElem hj, Option.any_some]
    rcases hij.lt_or_eq with hlt | rfl
    · exact List.pairwise_iff_getElem.mp h i j (by omega) hj hlt hp
    · exact hp
  obtain ⟨-, hle, hbefore, hafter⟩ := search_spec l.length 0 l.length (by omega) (by omega) hmono
  generalize search (fun i => (l[i]?).any p) l.length 0 l.length = r at hle hbefore hafter ⊢
  rcases hle.lt_or_eq with hlt | rfl
  · have hfound := hafter r le_rfl hlt
    rw [List.getElem?_eq_getElem hlt, Option.any_some] at hfound
    rw [List.getElem?_eq_getElem hlt]
    refine (List.find?_eq_some_iff_getElem.mpr ⟨hfound, r, hlt, rfl, fun j hj => ?_⟩).symm
    have hnot := hbefore j (by omega) hj
    rw [List.getElem?_eq_getElem (by omega), Option.any_some] at hnot
    simp [hnot]
  · rw [List.getElem?_eq_none le_rfl]
    refine (List.find?_eq_none.mpr fun a ha => ?_).symm
    obtain ⟨i, hi, rfl⟩ := List.mem_iff_getElem.mp ha
    have hnot := hbefore i (by omega) hi
    rw [List.getElem?_eq_getElem hi, Option.any_some] at hnot
    simp [hnot]

end Bisect
