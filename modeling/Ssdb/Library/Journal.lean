import Mathlib.Data.List.Basic

namespace Journal

variable {κ ε β : Type} [DecidableEq κ] {es fs : List (κ × ε)} {k : κ} {c : ε}

def last (es : List (κ × ε)) (k : κ) : Option ε :=
  ((es.filter (fun e => e.1 = k)).getLast?).map Prod.snd

theorem last_append (es fs : List (κ × ε)) (k : κ) : last (es ++ fs) k = (last fs k).or (last es k) := by
  rw [last, List.filter_append, List.getLast?_append, last, last]
  cases (fs.filter (fun e => e.1 = k)).getLast? <;> rfl

theorem last_single (e : κ × ε) (k : κ) : last [e] k = if e.1 = k then some e.2 else none := by
  rw [last, List.filter_singleton]
  rcases em (e.1 = k) with h | h <;> simp [h]

theorem last_cons (e : κ × ε) (es : List (κ × ε)) (k : κ) :
    last (e :: es) k = (last es k).or (if e.1 = k then some e.2 else none) := by
  rw [← last_single, ← last_append]
  rfl

theorem last_eq_none_iff : last es k = none ↔ ∀ e ∈ es, e.1 ≠ k := by
  induction es with
  | nil => simp [last]
  | cons e es ih =>
    rw [last_cons, Option.or_eq_none_iff, ih]
    rcases em (e.1 = k) with h | h <;> simp [h]

theorem last_of_index {i : ℕ} (h : es[i]? = some (k, c))
    (hlater : ∀ j c', i < j → es[j]? ≠ some (k, c')) : last es k = some c := by
  induction es generalizing i with
  | nil => simp at h
  | cons e es ih =>
    rw [last_cons]
    cases i with
    | zero =>
      obtain rfl : e = (k, c) := Option.some.inj h
      have hnone : last es k = none := by
        refine last_eq_none_iff.mpr fun e he hkey => ?_
        obtain ⟨j, hj⟩ := List.mem_iff_getElem?.mp he
        exact hlater (j + 1) e.2 (Nat.succ_pos j) (by rw [List.getElem?_cons_succ, hj, ← hkey])
      simp [hnone]
    | succ i =>
      rw [List.getElem?_cons_succ] at h
      have hrest := ih h fun j c' hj => by
        have hnext := hlater (j + 1) c' (Nat.succ_lt_succ hj)
        rwa [List.getElem?_cons_succ] at hnext
      rw [hrest, Option.some_or]

def Tells (means : ε → Option β → Prop) (es : List (κ × ε)) (k : κ) (before after : Option β) :
    Prop :=
  match last es k with
  | none => after = before
  | some c => means c after

variable {means : ε → Option β → Prop} {x y z : Option β}

theorem tells_nil (x : Option β) : Tells means ([] : List (κ × ε)) k x x := rfl

theorem tells_single {e : κ × ε} (hsame : e.1 = k → means e.2 y) (hother : e.1 ≠ k → y = x) :
    Tells means [e] k x y := by
  rw [Tells, last_single]
  rcases em (e.1 = k) with h | h
  · rw [if_pos h]
    exact hsame h
  · rw [if_neg h]
    exact hother h

theorem tells_append (h1 : Tells means es k x y) (h2 : Tells means fs k y z) :
    Tells means (es ++ fs) k x z := by
  rw [Tells, last_append]
  rw [Tells] at h1 h2
  cases hf : last fs k with
  | some c =>
    rw [hf] at h2
    exact h2
  | none =>
    rw [hf] at h2
    rw [Option.none_or]
    subst h2
    exact h1

theorem Tells.unchanged (h : Tells means es k x y) (hnone : ∀ e ∈ es, e.1 ≠ k) : y = x := by
  rw [Tells, last_eq_none_iff.mpr hnone] at h
  exact h

theorem Tells.decided {i : ℕ} (h : Tells means es k x y) (hi : es[i]? = some (k, c))
    (hlater : ∀ j c', i < j → es[j]? ≠ some (k, c')) : means c y := by
  rw [Tells, last_of_index hi hlater] at h
  exact h

end Journal
