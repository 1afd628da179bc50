import Ssdb.Library.Cursor
import Ssdb.Library.Lexicographic

namespace OrdMap
variable {α β : Type} [LinearOrder α]

def strip (q : List α) (e : List α × β) : List α × β := (e.1.drop q.length, e.2)

def extend (q : List α) (e : List α × β) : List α × β := (q ++ e.1, e.2)

omit [LinearOrder α] in
theorem strip_extend (q : List α) (e : List α × β) : strip q (extend q e) = e := by
  simp [strip, extend]

omit [LinearOrder α] in
theorem extend_strip {q : List α} {e : List α × β} (h : q <+: e.1) : extend q (strip q e) = e := by
  obtain ⟨k, hk⟩ := h
  obtain ⟨key, v⟩ := e
  obtain rfl : q ++ k = key := hk
  exact congrArg (extend q) (strip_extend q (k, v))

theorem strip_lt {q : List α} {e f : List α × β} (he : q <+: e.1) (hf : q <+: f.1) :
    (strip q e).1 < (strip q f).1 ↔ e.1 < f.1 := by
  obtain ⟨k, hk⟩ := he
  obtain ⟨l, hl⟩ := hf
  simp [strip, ← hk, ← hl, Lexicographic.append_lt_append_iff]

def under (q : List α) (m : OrdMap (List α) β) : OrdMap (List α) β where
  entries := (m.entries.filter (fun e => q <+: e.1)).map (strip q)
  sorted := by
    rw [List.pairwise_map]
    refine (m.sorted.filter _).imp_of_mem fun he hf hlt => ?_
    exact (strip_lt (of_decide_eq_true (List.mem_filter.mp he).2)
      (of_decide_eq_true (List.mem_filter.mp hf).2)).mpr hlt

theorem get_under (q : List α) (m : OrdMap (List α) β) (k : List α) :
    (m.under q).get k = m.get (q ++ k) := by
  refine Option.ext fun v => ?_
  rw [← mem_entries_iff, ← mem_entries_iff]
  constructor
  · intro h
    obtain ⟨e, he, hk⟩ := List.mem_map.mp h
    obtain ⟨he, hq⟩ := List.mem_filter.mp he
    have heq : (q ++ k, v) = e := by
      rw [← extend_strip (of_decide_eq_true hq), hk]
      rfl
    exact heq ▸ he
  · intro h
    refine List.mem_map.mpr ⟨extend q (k, v), List.mem_filter.mpr ⟨h, ?_⟩, strip_extend q _⟩
    exact decide_eq_true (List.prefix_append q k)

theorem under_ext {q : List α} {m m' : OrdMap (List α) β}
    (h : ∀ k, m'.get (q ++ k) = m.get (q ++ k)) : m'.under q = m.under q :=
  ext_get fun k => by rw [get_under, get_under, h]

theorem size_under (q : List α) (m : OrdMap (List α) β) : (m.under q).size ≤ m.size := by
  rw [size, under, List.length_map]
  exact List.length_filter_le _ _

theorem filter_under {q : List α} {m : OrdMap (List α) β} {p p' : List α × β → Bool}
    (hp : ∀ e, p (extend q e) = p' e) :
    (m.entries.filter p).filter (fun e => q <+: e.1) =
      ((m.under q).entries.filter p').map (extend q) := by
  have hlist : ∀ l : List (List α × β), (l.filter p).filter (fun e => q <+: e.1) =
      (((l.filter (fun e => q <+: e.1)).map (strip q)).filter p').map (extend q) := by
    intro l
    induction l with
    | nil => rfl
    | cons e l ih =>
      rw [List.filter_filter] at ih ⊢
      rcases Decidable.em (q <+: e.1) with hq | hq
      · have hpe : p e = p' (strip q e) := by rw [← hp, extend_strip hq]
        have hkeep := extend_strip hq
        cases hs : p' (strip q e) with
        | true => simp [hq, hpe, hs, hkeep, ih]
        | false => simp [hq, hpe, hs, ih]
      · simp [hq, ih]
  exact hlist m.entries

variable {q start : List α} {m : OrdMap (List α) β} {p : List α × β → Bool}

theorem takeWhile_upward (hp : ∀ e, p e = true → q ++ start ≤ e.1) :
    (m.entries.filter p).takeWhile (fun e => q <+: e.1) =
      (m.entries.filter p).filter (fun e => q <+: e.1) := by
  refine Cursor.takeWhile_eq_filter (m.sorted.filter p) fun x hx y _ hxy hy => ?_
  obtain ⟨k, hk⟩ := of_decide_eq_true hy
  obtain ⟨l, hl⟩ := Lexicographic.prefix_of_between (hp x (List.mem_filter.mp hx).2) (hk ▸ hxy.le)
  exact decide_eq_true ⟨l, hl.symm⟩

theorem takeWhile_downward (hp : ∀ e, p e = true → e.1 ≤ q ++ start) :
    (m.entries.filter p).reverse.takeWhile (fun e => q <+: e.1) =
      ((m.entries.filter p).filter (fun e => q <+: e.1)).reverse := by
  have hs : (m.entries.filter p).reverse.Pairwise (fun x y => y.1 < x.1) :=
    List.pairwise_reverse.mpr (m.sorted.filter p)
  refine (Cursor.takeWhile_eq_filter hs ?_).trans List.filter_reverse
  intro x hx y _ hxy hy
  obtain ⟨k, hk⟩ := of_decide_eq_true hy
  have hbelow := hp x (List.mem_filter.mp (List.mem_reverse.mp hx)).2
  obtain ⟨l, hl⟩ := Lexicographic.prefix_of_between (hk ▸ hxy.le) hbelow
  exact decide_eq_true ⟨l, hl.symm⟩

end OrdMap
