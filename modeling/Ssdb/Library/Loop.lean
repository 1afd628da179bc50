import Mathlib.Tactic

namespace Loop
variable {σ ρ : Type} {body : σ → σ ⊕ ρ}

inductive Exits (body : σ → σ ⊕ ρ) : σ → ρ → Prop
  | stop {s : σ} {r : ρ} (h : body s = .inr r) : Exits body s r
  | next {s s' : σ} {r : ρ} (h : body s = .inl s') (hrest : Exits body s' r) : Exits body s r

theorem Exits.unique {s : σ} {r r' : ρ} (h : Exits body s r) (h' : Exits body s r') : r = r' := by
  induction h with
  | stop hr =>
    cases h' with
    | stop hr' => exact Sum.inr.inj (hr.symm.trans hr')
    | next hs' _ => exact absurd (hr.symm.trans hs') (by simp)
  | next hs _ ih =>
    cases h' with
    | stop hr' => exact absurd (hs.symm.trans hr') (by simp)
    | next hs' hrest' =>
      obtain rfl := Sum.inl.inj (hs.symm.trans hs')
      exact ih hrest'

theorem Exits.result {P : σ → Prop} {Q : ρ → Prop} {s : σ} {r : ρ} (h : Exits body s r) (hs : P s)
    (hnext : ∀ s s', P s → body s = .inl s' → P s') (hstop : ∀ s r, P s → body s = .inr r → Q r) :
    Q r := by
  induction h with
  | stop hr => exact hstop _ _ hs hr
  | next hs' _ ih => exact ih (hnext _ _ hs hs')

theorem exits_fuel {f : ℕ → σ → ρ} {P : σ → Prop} {m : σ → ℕ}
    (hf : ∀ fuel s, f (fuel + 1) s = (body s).elim (f fuel) id)
    (hzero : ∀ s, P s → m s = 0 → body s = .inr (f 0 s))
    (hnext : ∀ s s', P s → body s = .inl s' → P s' ∧ m s' < m s) (fuel : ℕ) {s : σ} (hs : P s)
    (hfuel : m s ≤ fuel) : Exits body s (f fuel s) := by
  induction fuel generalizing s with
  | zero => exact .stop (hzero s hs (Nat.le_zero.mp hfuel))
  | succ fuel ih =>
    rw [hf]
    cases hbody : body s with
    | inl s' =>
      obtain ⟨hs', hless⟩ := hnext s s' hs hbody
      exact .next hbody (ih hs' (by omega))
    | inr r => exact .stop hbody

theorem exits_fold {α β : Type} {body : σ → σ ⊕ β} {f : β → α → β} (state : σ → β)
    (left : σ → List α) (hstop : ∀ s, left s = [] → body s = .inr (state s))
    (hnext : ∀ s a l, left s = a :: l →
      ∃ s', body s = .inl s' ∧ state s' = f (state s) a ∧ left s' = l) (s : σ) :
    Exits body s ((left s).foldl f (state s)) := by
  generalize hl : left s = l
  induction l generalizing s with
  | nil => exact .stop (hstop s hl)
  | cons a l ih =>
    obtain ⟨s', hbody, hstate, hleft⟩ := hnext s a l hl
    rw [List.foldl_cons, ← hstate]
    exact .next hbody (ih s' hleft)

end Loop
