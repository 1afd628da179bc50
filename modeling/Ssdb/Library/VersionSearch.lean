import Ssdb.Library.Versions
import Ssdb.Library.Walker
import Mathlib.Order.WithBot

namespace Versions
variable {α β κ γ : Type} [LinearOrder κ] {key : α → κ} {reading : α × β → Option (Option γ)}
  {e : α × β} {before after : List (α × β)}

theorem newest_absent {es : List (α × β)} {k : κ} (h : ∀ e ∈ es, key e.1 ≠ k) :
    newest key reading k es = none :=
  newest_eq_none_iff.mpr fun e he hk => absurd hk (h e he)

theorem newest_passed {k : κ} : newest key reading k (e :: before).reverse =
    (newest key reading k before.reverse).or (newest key reading k [e]) := by
  rw [List.reverse_cons, newest_append]

variable [LinearOrder α] {m : OrdMap α β}

theorem keys_around (hkey : Monotone key) (h : before.reverse ++ e :: after = m.entries) :
    (∀ e' ∈ before, key e'.1 ≤ key e.1) ∧ ∀ e' ∈ after, key e.1 ≤ key e'.1 := by
  obtain ⟨hbefore, hafter⟩ := Cursor.Splits.ordered h
  exact ⟨fun e' he' => hkey (hbefore e' he').le, fun e' he' => hkey (hafter e' he').le⟩

theorem newest_split {k : κ} (h : before.reverse ++ after = m.entries) :
    newest key reading k m.entries =
      (newest key reading k before.reverse).or (newest key reading k after) := by
  rw [← h, newest_append]

section Forward

structure Ahead (key : α → κ) (reading : α × β → Option (Option γ)) (m : OrdMap α β) (p : κ → Bool)
    (skip : WithBot κ) (before after : List (α × β)) : Prop where
  split : before.reverse ++ after = m.entries
  passed : ∀ k : κ, p k = true → skip < k → newest key reading k before.reverse = none
  absent : ∀ k : κ, p k = true → k ≤ skip → (newest key reading k m.entries).join = none
  beyond : ∀ k : κ, skip < k → p k = false → newest key reading k after = none
  upward : ∀ k : κ, k < skip → newest key reading k after = none

namespace Ahead
variable {p : κ → Bool} {skip : WithBot κ}

omit [LinearOrder κ] in
theorem shift (h : before.reverse ++ e :: after = m.entries) :
    (e :: before).reverse ++ after = m.entries := by
  simpa using h

theorem le_key {r : Option γ} (h : Ahead key reading m p skip before (e :: after))
    (hr : reading e = some r) : skip ≤ key e.1 := by
  refine not_lt.mp fun hlt => ?_
  have hnone := h.upward (key e.1) hlt
  simp [newest_cons_self, hr] at hnone

theorem unread (h : Ahead key reading m p skip before (e :: after)) (hr : reading e = none) :
    Ahead key reading m p skip (e :: before) after where
  split := shift h.split
  passed k hp hk := by rw [newest_passed, h.passed k hp hk, newest_cons_none hr]; rfl
  absent := h.absent
  beyond k hk hp := by
    have hnone := h.beyond k hk hp
    rwa [newest_cons_none hr] at hnone
  upward k hk := by
    have hnone := h.upward k hk
    rwa [newest_cons_none hr] at hnone

theorem hidden (h : Ahead key reading m p skip before (e :: after)) (hskip : key e.1 ≤ skip) :
    Ahead key reading m p skip (e :: before) after where
  split := shift h.split
  passed k hp hk := by
    have hne : key e.1 ≠ k := fun he => absurd (he ▸ hskip) (not_le.mpr hk)
    rw [newest_passed, h.passed k hp hk, newest_cons_ne hne]
    rfl
  absent := h.absent
  beyond k hk hp := by
    have hne : key e.1 ≠ k := fun he => absurd (he ▸ hskip) (not_le.mpr hk)
    exact newest_cons_ne hne ▸ h.beyond k hk hp
  upward k hk := by
    have hnone := h.upward k hk
    rw [newest_cons, Option.or_eq_none_iff] at hnone
    exact hnone.2

theorem deleted (hkey : Monotone key) (h : Ahead key reading m p skip before (e :: after))
    (hr : reading e = some none) : Ahead key reading m p (key e.1) (e :: before) after where
  split := shift h.split
  passed k hp hk := by
    have hlt : key e.1 < k := WithBot.coe_lt_coe.mp hk
    rw [newest_passed, h.passed k hp ((h.le_key hr).trans_lt hk), newest_cons_ne hlt.ne]
    rfl
  absent k hp hk := by
    have hle : k ≤ key e.1 := WithBot.coe_le_coe.mp hk
    rcases le_or_gt (k : WithBot κ) skip with hskip | hskip
    · exact h.absent k hp hskip
    · rw [newest_split h.split, h.passed k hp hskip, Option.none_or]
      rcases hle.eq_or_lt with rfl | hlt
      · rw [newest_cons_self, hr]
        rfl
      · rw [newest_absent fun e' he' => ?_]
        · rfl
        · rcases List.mem_cons.mp he' with rfl | he'
          · exact hlt.ne'
          · exact (hlt.trans_le ((keys_around hkey h.split).2 e' he')).ne'
  beyond k hk hp := by
    have hlt : key e.1 < k := WithBot.coe_lt_coe.mp hk
    exact newest_cons_ne hlt.ne ▸ h.beyond k ((h.le_key hr).trans_lt hk) hp
  upward k hk := by
    have hlt : k < key e.1 := WithBot.coe_lt_coe.mp hk
    exact newest_absent fun e' he' => (hlt.trans_le ((keys_around hkey h.split).2 e' he')).ne'

theorem found {v : γ} (hkey : Monotone key) (h : Ahead key reading m p skip before (e :: after))
    (hr : reading e = some (some v)) (hskip : skip < key e.1) :
    (visible reading hkey m).least p = some (key e.1, v) ∧
      newest key reading (key e.1) before.reverse = none := by
  have hp : p (key e.1) = true := by
    by_contra hnot
    have hnone := h.beyond (key e.1) hskip (by simpa using hnot)
    simp [newest_cons_self, hr] at hnone
  refine ⟨OrdMap.least_eq_some_iff.mpr ⟨mem_listed.mpr ?_, hp, fun x hx hpx => ?_⟩,
    h.passed _ hp hskip⟩
  · rw [newest_split h.split, h.passed _ hp hskip, newest_cons_self, hr]
    rfl
  · have hvisible := mem_listed.mp hx
    have hbeyond : skip < x.1 := by
      refine not_le.mp fun hle => ?_
      have hnone := h.absent x.1 hpx hle
      simp [hvisible] at hnone
    rw [newest_split h.split, h.passed _ hpx hbeyond, Option.none_or] at hvisible
    obtain ⟨e', he', hk, -⟩ := newest_mem hvisible
    rcases List.mem_cons.mp he' with rfl | he'
    · exact hk.le
    · exact hk ▸ (keys_around hkey h.split).2 e' he'

theorem ended (hkey : Monotone key) (h : Ahead key reading m p skip before []) :
    (visible reading hkey m).least p = none := by
  rw [OrdMap.least_eq_none_iff]
  intro x hx
  have hvisible := mem_listed.mp hx
  by_contra hnot
  have hp : p x.1 = true := by simpa using hnot
  have hbeyond : skip < x.1 := by
    refine not_le.mp fun hle => ?_
    have hnone := h.absent x.1 hp hle
    simp [hvisible] at hnone
  simp [newest_split h.split, h.passed _ hp hbeyond] at hvisible

end Ahead
end Forward

section Backward

structure Behind (key : α → κ) (reading : α × β → Option (Option γ)) (m : OrdMap α β) (p : κ → Bool)
    (low : WithTop κ) (last : Option γ) (before after : List (α × β)) : Prop where
  split : before.reverse ++ after = m.entries
  downward : ∀ k k' : κ, k ≤ k' → p k' = true → p k = true
  within : ∀ k : κ, p k = false → newest key reading k before.reverse = none
  below : ∀ k : κ, p k = true → k < low → newest key reading k after = none
  above : ∀ k : κ, p k = true → low < k → (newest key reading k m.entries).join = none
  said : ∀ k : κ, low = k → p k = true ∧ newest key reading k after = some last
  nothing : low = ⊤ → last = none

namespace Behind
variable {p : κ → Bool} {low : WithTop κ} {last : Option γ}

omit [LinearOrder κ] in
theorem unshift (h : (e :: before).reverse ++ after = m.entries) :
    before.reverse ++ e :: after = m.entries := by
  simpa using h

theorem unread (h : Behind key reading m p low last (e :: before) after) (hr : reading e = none) :
    Behind key reading m p low last before (e :: after) where
  split := unshift h.split
  downward := h.downward
  within k hp := by
    have hnone := h.within k hp
    rw [newest_passed, Option.or_eq_none_iff] at hnone
    exact hnone.1
  below k hp hk := by rw [newest_cons_none hr]; exact h.below k hp hk
  above := h.above
  said k hk := by rw [newest_cons_none hr]; exact h.said k hk
  nothing := h.nothing

theorem newest_below {k : κ} (hkey : Monotone key) (h : before.reverse ++ e :: after = m.entries)
    (hk : key e.1 < k) : newest key reading k before.reverse = none :=
  newest_absent fun e' he' =>
    (((keys_around hkey h).1 e' (List.mem_reverse.mp he')).trans_lt hk).ne

theorem key_le_low (hkey : Monotone key) (h : Behind key reading m p low last (e :: before) after) :
    key e.1 ≤ low := by
  cases low with
  | top => exact le_top
  | coe k =>
    obtain ⟨-, hsaid⟩ := h.said k rfl
    obtain ⟨e', he', rfl, -⟩ := newest_mem hsaid
    exact WithTop.coe_le_coe.mpr ((keys_around hkey (unshift h.split)).2 e' he')

theorem read {r : Option γ} (hkey : Monotone key) (h : Behind key reading m p low last (e :: before) after)
    (hr : reading e = some r) (hgo : last = none ∨ ¬ key e.1 < low) :
    Behind key reading m p (key e.1) r before (e :: after) where
  split := unshift h.split
  downward := h.downward
  within k hp := by
    have hnone := h.within k hp
    rw [newest_passed, Option.or_eq_none_iff] at hnone
    exact hnone.1
  below k hp hk := by
    have hlt : k < key e.1 := WithTop.coe_lt_coe.mp hk
    rw [newest_cons_ne hlt.ne']
    exact h.below k hp (hk.trans_le (h.key_le_low hkey))
  above k hp hk := by
    have hlt : key e.1 < k := WithTop.coe_lt_coe.mp hk
    rcases lt_trichotomy (k : WithTop κ) low with hlow | hlow | hlow
    · rw [newest_split (unshift h.split), newest_below hkey (unshift h.split) hlt,
        newest_cons_ne hlt.ne, h.below k hp hlow]
      rfl
    · have hnone : last = none := hgo.resolve_right (not_not.mpr (hlow ▸ hk))
      rw [newest_split (unshift h.split), newest_below hkey (unshift h.split) hlt,
        newest_cons_ne hlt.ne, (h.said k hlow.symm).2, hnone]
      rfl
    · exact h.above k hp hlow
  said k hk := by
    obtain rfl : key e.1 = k := WithTop.coe_injective hk
    refine ⟨?_, by rw [newest_cons_self, hr]; rfl⟩
    by_contra hp
    have hnone := h.within (key e.1) (by simpa using hp)
    rw [newest_passed, Option.or_eq_none_iff, newest_cons_self, hr] at hnone
    exact absurd hnone.2 (by simp)
  nothing hk := absurd hk (WithTop.coe_ne_top)

theorem found {k : κ} {v : γ} (hkey : Monotone key) (h : Behind key reading m p k (some v) before after)
    (hdone : ∀ e ∈ before.head?, key e.1 < k) :
    (visible reading hkey m).greatest p = some (k, v) ∧ (∀ k', k ≤ k' →
      newest key reading k' before.reverse = none) ∧ ∀ k' < k, newest key reading k' after = none := by
  obtain ⟨hp, hsaid⟩ := h.said k rfl
  have hleft (k' : κ) (hk : k ≤ k') : newest key reading k' before.reverse = none := by
    cases before with
    | nil => rfl
    | cons e before =>
      have hlt := hdone e rfl
      rw [newest_passed, newest_below hkey (unshift h.split) (hlt.trans_le hk),
        newest_cons_ne (hlt.trans_le hk).ne]
      rfl
  refine ⟨?_, hleft, fun k' hk => h.below k' (h.downward k' k hk.le hp) (WithTop.coe_lt_coe.mpr hk)⟩
  rw [OrdMap.greatest_eq_some_iff]
  refine ⟨mem_listed.mpr ?_, hp, fun x hx hpx => ?_⟩
  · rw [newest_split h.split, hleft k le_rfl, Option.none_or]
    exact hsaid
  · refine not_lt.mp fun hlt => ?_
    have hnone := h.above x.1 hpx (WithTop.coe_lt_coe.mpr hlt)
    simp [mem_listed.mp hx] at hnone

theorem ended (hkey : Monotone key) (h : Behind key reading m p low none [] after) :
    (visible reading hkey m).greatest p = none := by
  rw [OrdMap.greatest_eq_none_iff]
  intro x hx
  have hvisible := mem_listed.mp hx
  by_contra hnot
  have hp : p x.1 = true := by simpa using hnot
  rcases lt_trichotomy (x.1 : WithTop κ) low with hlow | hlow | hlow
  · simp [newest_split h.split, h.below x.1 hp hlow] at hvisible
  · simp [newest_split h.split, (h.said x.1 hlow.symm).2] at hvisible
  · have hnone := h.above x.1 hp hlow
    simp [hvisible] at hnone

end Behind
end Backward

end Versions
