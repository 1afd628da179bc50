import Mathlib.Data.List.Sort
import Mathlib.Tactic

namespace Paging
variable {σ α : Type}

inductive Pages (page : σ → List α) (next : α → σ) : σ → List (List α) → Prop where
  | stop {s : σ} : page s = [] → Pages page next s []
  | more {s : σ} {es : List α} {a : α} {ps : List (List α)} :
      page s = es ++ [a] → Pages page next (next a) ps → Pages page next s ((es ++ [a]) :: ps)

theorem pages_unique {page : σ → List α} {next : α → σ} {s : σ} {ps qs : List (List α)}
    (hp : Pages page next s ps) (hq : Pages page next s qs) : ps = qs := by
  induction hp generalizing qs with
  | stop hempty =>
    cases hq with
    | stop => rfl
    | more hpage => simp [hempty] at hpage
  | more hpage _ ih =>
    cases hq with
    | stop hempty => simp [hempty] at hpage
    | more hpage' hrest =>
      obtain ⟨rfl, hlast⟩ := List.append_inj' (hpage.symm.trans hpage') rfl
      obtain rfl := List.singleton_inj.mp hlast
      rw [ih hrest]

def Joins (page : σ → List α) (next : α → σ) (s : σ) (whole : List α) : Prop :=
  (∃ ps, Pages page next s ps) ∧ ∀ ps, Pages page next s ps → ps.flatten = whole

structure Continues (rest : σ → List α) (next : α → σ) : Prop where
  after : ∀ {s : σ} {xs ys : List α} {a : α}, rest s = xs ++ a :: ys → rest (next a) = ys

theorem exists_pages {rest : σ → List α} {next : α → σ} (h : Continues rest next) {L : ℕ}
    (hL : 0 < L) (s : σ) :
    ∃ ps, Pages (fun s => (rest s).take L) next s ps ∧ ps.flatten = rest s := by
  induction hlen : (rest s).length using Nat.strong_induction_on generalizing s with
  | _ n ih =>
    rcases List.eq_nil_or_concat ((rest s).take L) with hempty | ⟨es, a, hpage⟩
    · have hnil : rest s = [] := (List.take_eq_nil_iff.mp hempty).resolve_left hL.ne'
      exact ⟨[], .stop hempty, hnil.symm⟩
    · rw [List.concat_eq_append] at hpage
      have hsplit : rest s = es ++ a :: (rest s).drop L := by
        have htake := (List.take_append_drop L (rest s)).symm
        rw [hpage, List.append_assoc] at htake
        exact htake
      have hafter := h.after hsplit
      have hless : (rest (next a)).length < n := by
        have hcount := congrArg List.length hsplit
        rw [List.length_append, List.length_cons] at hcount
        rw [hafter]
        omega
      obtain ⟨ps, hps, hflat⟩ := ih _ hless (next a) rfl
      refine ⟨(es ++ [a]) :: ps, .more hpage hps, ?_⟩
      rw [List.flatten_cons, hflat, hafter, List.append_assoc]
      exact hsplit.symm

theorem joins {rest : σ → List α} {next : α → σ} (h : Continues rest next) {L limit : ℕ}
    (hL : 0 < L) {s : σ} (hlimit : (rest s).length ≤ limit) :
    Joins (fun s => (rest s).take L) next s ((rest s).take limit) := by
  obtain ⟨ps, hps, hflat⟩ := exists_pages h hL s
  rw [List.take_of_length_le hlimit]
  exact ⟨⟨ps, hps⟩, fun qs hqs => pages_unique hps hqs ▸ hflat⟩

theorem filter_after {r : α → α → Prop} (hasymm : ∀ x y, r x y → ¬r y x) {l xs ys : List α} {a : α}
    {p p' : α → Bool} (hs : l.Pairwise r)
    (hp : ∀ x ∈ l, p' x = true ↔ p x = true ∧ r a x) (hsplit : l.filter p = xs ++ a :: ys) :
    l.filter p' = ys := by
  classical
  have hnarrow : l.filter p' = (xs ++ a :: ys).filter (fun x => r a x) := by
    rw [← hsplit, List.filter_filter]
    refine List.filter_congr fun x hx => ?_
    rw [Bool.eq_iff_iff, hp x hx, Bool.and_eq_true, decide_eq_true_iff, and_comm]
  have horder : (xs ++ a :: ys).Pairwise r := hsplit ▸ hs.filter p
  obtain ⟨-, hlater, hbefore⟩ := List.pairwise_append.mp horder
  have hnone : (xs ++ [a]).filter (fun x => r a x) = [] := by
    refine List.filter_eq_nil_iff.mpr fun x hx => ?_
    rw [decide_eq_true_iff]
    rcases List.mem_append.mp hx with hx | hx
    · exact hasymm x a (hbefore x hx a (by simp))
    · rw [List.mem_singleton.mp hx]
      exact fun h => hasymm a a h h
  have hall : ys.filter (fun x => r a x) = ys :=
    List.filter_eq_self.mpr fun x hx => decide_eq_true ((List.pairwise_cons.mp hlater).1 x hx)
  rw [hnarrow, List.append_cons, List.filter_append, hnone, hall, List.nil_append]

end Paging
