import Ssdb.Library.Walker

inductive MergingIterator.Direction where
  | kForward
  | kReverse
deriving DecidableEq, Repr

structure MergingIterator (σ : Type) where
  children : List σ
  index : Option ℕ
  direction : MergingIterator.Direction

namespace MergingIterator
variable {σ α β : Type} [LinearOrder α] (it : Walker σ α β)

def best (better : α → α → Bool) : Option (ℕ × α) → List (σ × ℕ) → Option (ℕ × α)
  | found, [] => found
  | found, (child, i) :: rest =>
    match it.current child with
    | none => best better found rest
    | some e =>
      match found with
      | none => best better (some (i, e.1)) rest
      | some (_, key) =>
        if better e.1 key then best better (some (i, e.1)) rest else best better found rest

def findSmallest (s : MergingIterator σ) : MergingIterator σ :=
  { s with index := (best it (fun a b => a < b) none s.children.zipIdx).map Prod.fst }

def findLargest (s : MergingIterator σ) : MergingIterator σ :=
  { s with index := (best it (fun a b => b < a) none s.children.zipIdx.reverse).map Prod.fst }

def current (s : MergingIterator σ) : Option (α × β) :=
  s.index.bind fun i => s.children[i]?.bind it.current

def seekToFirst (s : MergingIterator σ) : MergingIterator σ :=
  { findSmallest it { s with children := s.children.map it.seekToFirst } with direction := .kForward }

def seekToLast (s : MergingIterator σ) : MergingIterator σ :=
  { findLargest it { s with children := s.children.map it.seekToLast } with direction := .kReverse }

def seek (target : α) (s : MergingIterator σ) : MergingIterator σ :=
  { findSmallest it { s with children := s.children.map (it.seek target) } with direction := .kForward }

def seekAfter (key : α) (child : σ) : σ :=
  let child := it.seek key child
  match it.current child with
  | some e => if e.1 = key then it.next child else child
  | none => child

def seekBefore (key : α) (child : σ) : σ :=
  let child := it.seek key child
  if it.valid child then it.prev child else it.seekToLast child

def next (s : MergingIterator σ) : MergingIterator σ :=
  match s.index, current it s with
  | some i, some e =>
    let children :=
      if s.direction ≠ .kForward then
        s.children.mapIdx fun j child => if j ≠ i then seekAfter it e.1 child else child
      else s.children
    findSmallest it { s with children := children.modify i it.next, direction := .kForward }
  | _, _ => s

def prev (s : MergingIterator σ) : MergingIterator σ :=
  match s.index, current it s with
  | some i, some e =>
    let children :=
      if s.direction ≠ .kReverse then
        s.children.mapIdx fun j child => if j ≠ i then seekBefore it e.1 child else child
      else s.children
    findLargest it { s with children := children.modify i it.prev, direction := .kReverse }
  | _, _ => s

def new (children : List σ) : MergingIterator σ := ⟨children, none, .kForward⟩

def walker : Walker (MergingIterator σ) α β where
  current := current it
  seek := seek it
  seekToFirst := seekToFirst it
  seekToLast := seekToLast it
  next := next it
  prev := prev it

variable {it} {better : α → α → Bool}

structure Best (it : Walker σ α β) (better : α → α → Bool) (seen : List (σ × ℕ))
    (found : Option (ℕ × α)) : Prop where
  nothing : found = none → ∀ c ∈ seen, it.current c.1 = none
  place : ∀ f, found = some f → ∃ child e, (child, f.1) ∈ seen ∧ it.current child = some e ∧ e.1 = f.2
  unbeaten : ∀ f, found = some f → ∀ c ∈ seen, ∀ e, it.current c.1 = some e → better e.1 f.2 = false

omit [LinearOrder α] in
theorem Best.step {seen : List (σ × ℕ)} {found : Option (ℕ × α)} (h : Best it better seen found)
    {c : σ × ℕ} (hkeep : ∀ e, it.current c.1 = some e → ∃ f, found = some f ∧ better e.1 f.2 = false) :
    Best it better (seen ++ [c]) found where
  nothing hf := by
    refine List.forall_mem_append.mpr ⟨h.nothing hf, List.forall_mem_singleton.mpr ?_⟩
    refine Option.eq_none_iff_forall_ne_some.mpr fun e he => ?_
    obtain ⟨f, hsome, -⟩ := hkeep e he
    exact absurd (hf.symm.trans hsome) (by simp)
  place f hf := by
    obtain ⟨child, e, hmem, he⟩ := h.place f hf
    exact ⟨child, e, List.mem_append_left _ hmem, he⟩
  unbeaten f hf := by
    refine List.forall_mem_append.mpr ⟨h.unbeaten f hf, List.forall_mem_singleton.mpr fun e he => ?_⟩
    obtain ⟨f', hsome, hworse⟩ := hkeep e he
    obtain rfl : f' = f := Option.some.inj (hsome.symm.trans hf)
    exact hworse

omit [LinearOrder α] in
theorem Best.take {seen : List (σ × ℕ)} {found : Option (ℕ × α)} (h : Best it better seen found)
    {c : σ × ℕ} {e : α × β} (he : it.current c.1 = some e) (hirrefl : better e.1 e.1 = false)
    (hbeats : ∀ f, found = some f → ∀ k, better k e.1 = true → better k f.2 = true) :
    Best it better (seen ++ [c]) (some (c.2, e.1)) where
  nothing hf := absurd hf (by simp)
  place f hf := by
    obtain rfl := Option.some.inj hf
    exact ⟨c.1, e, by simp, he, rfl⟩
  unbeaten f hf := by
    obtain rfl := Option.some.inj hf
    refine List.forall_mem_append.mpr ⟨fun x hx e' he' => ?_, List.forall_mem_singleton.mpr fun e' he' => ?_⟩
    · cases hfound : found with
      | none => exact absurd ((h.nothing hfound x hx).symm.trans he') (by simp)
      | some f =>
        have hworse := h.unbeaten f hfound x hx e' he'
        refine Bool.eq_false_iff.mpr fun hbetter => ?_
        simp [hbeats f hfound e'.1 hbetter] at hworse
    · obtain rfl : e = e' := Option.some.inj (he.symm.trans he')
      exact hirrefl

omit [LinearOrder α] in
theorem best_spec (hirrefl : ∀ a, better a a = false)
    (htrans : ∀ a b c, better a b = true → better b c = true → better a c = true)
    {seen : List (σ × ℕ)} {found : Option (ℕ × α)} (h : Best it better seen found) (cs : List (σ × ℕ)) :
    Best it better (seen ++ cs) (best it better found cs) := by
  induction cs generalizing seen found with
  | nil =>
    rw [best, List.append_nil]
    exact h
  | cons c cs ih =>
    obtain ⟨child, i⟩ := c
    have happend : seen ++ (child, i) :: cs = (seen ++ [(child, i)]) ++ cs := by simp
    rw [best, happend]
    cases hc : it.current child with
    | none => exact ih (h.step fun e he => absurd (hc.symm.trans he) (by simp))
    | some e =>
      cases found with
      | none => exact ih (h.take hc (hirrefl e.1) fun f hf => absurd hf (by simp))
      | some f =>
        dsimp only
        split_ifs with hbetter
        · refine ih (h.take hc (hirrefl e.1) fun f' hf k hk => ?_)
          obtain rfl := Option.some.inj hf
          exact htrans k e.1 _ hk hbetter
        · refine ih (h.step fun e' he' => ⟨f, rfl, ?_⟩)
          obtain rfl : e = e' := Option.some.inj (hc.symm.trans he')
          exact Bool.eq_false_iff.mpr hbetter

structure Merges (ms : List (OrdMap α β)) (m : OrdMap α β) : Prop where
  mem : ∀ e, e ∈ m.entries ↔ ∃ m' ∈ ms, e ∈ m'.entries
  disjoint : ms.Pairwise fun a b => ∀ e ∈ a.entries, ∀ e' ∈ b.entries, e.1 ≠ e'.1

namespace Merges
variable {ms : List (OrdMap α β)} {m : OrdMap α β} {p : α → Bool}

theorem same (h : Merges ms m) {i j : ℕ} {a b : OrdMap α β} {e e' : α × β} (hi : ms[i]? = some a)
    (hj : ms[j]? = some b) (he : e ∈ a.entries) (he' : e' ∈ b.entries) (hkey : e.1 = e'.1) : i = j := by
  obtain ⟨hi', rfl⟩ := List.getElem?_eq_some_iff.mp hi
  obtain ⟨hj', rfl⟩ := List.getElem?_eq_some_iff.mp hj
  have hpairs := List.pairwise_iff_getElem.mp h.disjoint
  rcases lt_trichotomy i j with hlt | heq | hgt
  · exact absurd hkey (hpairs i j hi' hj' hlt e he e' he')
  · exact heq
  · exact absurd hkey.symm (hpairs j i hj' hi' hgt e' he' e he)

end Merges

variable {I : OrdMap α β → σ → Prop} {ms : List (OrdMap α β)} {m : OrdMap α β} {cs : List σ}
  {s : MergingIterator σ} {p : α → Bool}

def Stand (it : Walker σ α β) (I : OrdMap α β → σ → Prop) (ms : List (OrdMap α β)) (cs : List σ)
    (f : OrdMap α β → Option (α × β)) : Prop :=
  ∀ (j : ℕ) c m', cs[j]? = some c → ms[j]? = some m' → I m' c ∧ it.current c = f m'

theorem best_current {f : OrdMap α β → Option (α × β)} (le : α → α → Prop)
    (hsome : ∀ m e, f m = some e ↔
      e ∈ m.entries ∧ p e.1 = true ∧ ∀ e' ∈ m.entries, p e'.1 = true → le e.1 e'.1)
    (hnone : ∀ m, f m = none ↔ ∀ e ∈ m.entries, p e.1 = false)
    (hbetter : ∀ a b, better a b = false ↔ le b a) (hle : ∀ a b, ¬ le a b → le b a)
    (htrans : ∀ a b c, le a b → le b c → le a c) (hm : Merges ms m) (hlength : cs.length = ms.length)
    (hstand : Stand it I ms cs f) {order : List (σ × ℕ)}
    (horder : ∀ c, c ∈ order ↔ cs[c.2]? = some c.1) :
    (((best it better none order).map Prod.fst).bind fun i => cs[i]?.bind it.current) = f m := by
  have hstart : Best it better [] none :=
    ⟨fun _ c hc => absurd hc (by simp), fun _ hf => absurd hf (by simp), fun _ hf => absurd hf (by simp)⟩
  have hrefl (a : α) : le a a := by
    by_contra hnot
    exact hnot (hle a a hnot)
  have htrans' (a b c : α) (hab : better a b = true) (hbc : better b c = true) : better a c = true := by
    by_contra hnot
    have hca := (hbetter a c).mp (Bool.eq_false_iff.mpr hnot)
    have hcb : le c b := htrans c a b hca (hle b a fun hba => by
      simp [(hbetter a b).mpr hba] at hab)
    simp [(hbetter b c).mpr hcb] at hbc
  have hbest := best_spec (fun a => (hbetter a a).mpr (hrefl a)) htrans' hstart order
  rw [List.nil_append] at hbest
  have hchild (m' : OrdMap α β) (hm' : m' ∈ ms) : ∃ (j : ℕ) (c : σ), cs[j]? = some c ∧ it.current c = f m' := by
    obtain ⟨j, hj, rfl⟩ := List.getElem_of_mem hm'
    have hj' : j < cs.length := hlength ▸ hj
    exact ⟨j, cs[j], List.getElem?_eq_getElem hj',
      (hstand j _ _ (List.getElem?_eq_getElem hj') (List.getElem?_eq_getElem hj)).2⟩
  cases hfound : best it better none order with
  | none =>
    refine ((hnone m).mpr fun e he => ?_).symm
    obtain ⟨m', hm', he'⟩ := (hm.mem e).mp he
    obtain ⟨j, c, hc, hcurrent⟩ := hchild m' hm'
    have hstop := hbest.nothing hfound (c, j) ((horder _).mpr hc)
    exact (hnone m').mp (hcurrent.symm.trans hstop) e he'
  | some found =>
    obtain ⟨child, e, hmem, he, hkey⟩ := hbest.place found hfound
    have hc := (horder _).mp hmem
    have hj : found.1 < ms.length := hlength ▸ (List.getElem?_eq_some_iff.mp hc).1
    have hat := List.getElem?_eq_getElem hj
    obtain ⟨hin, hp, hleast⟩ := (hsome _ e).mp ((hstand _ _ _ hc hat).2.symm.trans he)
    rw [Option.map_some, Option.bind_some, hc, Option.bind_some, he]
    refine ((hsome m e).mpr ⟨(hm.mem e).mpr ⟨_, List.getElem_mem hj, hin⟩, hp, fun e' he' hp' => ?_⟩).symm
    obtain ⟨m', hm', hin'⟩ := (hm.mem e').mp he'
    obtain ⟨j, c, hc', hcurrent⟩ := hchild m' hm'
    cases hfirst : f m' with
    | none => exact absurd ((hnone m').mp hfirst e' hin') (by simp [hp'])
    | some x =>
      have hworse := hbest.unbeaten found hfound (c, j) ((horder _).mpr hc') x (hcurrent.trans hfirst)
      rw [hbetter, ← hkey] at hworse
      exact htrans _ _ _ hworse (((hsome m' x).mp hfirst).2.2 e' hin' hp')

theorem findSmallest_current (hm : Merges ms m) (hlength : s.children.length = ms.length)
    (hstand : Stand it I ms s.children fun m' => m'.least p) :
    current it (findSmallest it s) = m.least p := by
  refine best_current (· ≤ ·) (fun _ _ => OrdMap.least_eq_some_iff)
    (fun _ => OrdMap.least_eq_none_iff) (fun a b => ?_) (fun a b h => (not_le.mp h).le)
    (fun _ _ _ => le_trans) hm hlength hstand fun c => List.mem_zipIdx_iff_getElem?
  simp

theorem findLargest_current (hm : Merges ms m) (hlength : s.children.length = ms.length)
    (hstand : Stand it I ms s.children fun m' => m'.greatest p) :
    current it (findLargest it s) = m.greatest p := by
  refine best_current (· ≥ ·) (fun _ _ => OrdMap.greatest_eq_some_iff)
    (fun _ => OrdMap.greatest_eq_none_iff) (fun a b => ?_) (fun a b h => (not_le.mp h).le)
    (fun _ _ _ => ge_trans) hm hlength hstand fun c =>
      List.mem_reverse.trans List.mem_zipIdx_iff_getElem?
  simp

structure Follows (it : Walker σ α β) (I : OrdMap α β → σ → Prop) (ms : List (OrdMap α β))
    (m : OrdMap α β) (s : MergingIterator σ) : Prop where
  length : s.children.length = ms.length
  inner : ∀ (j : ℕ) c m', s.children[j]? = some c → ms[j]? = some m' → I m' c
  mem : ∀ e, current it s = some e → e ∈ m.entries
  ahead : ∀ e, current it s = some e → s.direction = .kForward →
    Stand it I ms s.children fun m' => m'.least (Move.since e.1)
  behind : ∀ e, current it s = some e → s.direction = .kReverse →
    Stand it I ms s.children fun m' => m'.greatest (Move.upTo e.1)

theorem findSmallest_spec (hm : Merges ms m) (hlength : cs.length = ms.length)
    (hp : ∀ k k', k ≤ k' → p k = true → p k' = true)
    (hstand : Stand it I ms cs fun m' => m'.least p) (i : Option ℕ) :
    Follows it I ms m (findSmallest it ⟨cs, i, .kForward⟩) ∧
      current it (findSmallest it ⟨cs, i, .kForward⟩) = m.least p := by
  have hcurrent : current it (findSmallest it ⟨cs, i, .kForward⟩) = m.least p :=
    findSmallest_current hm hlength hstand
  refine ⟨⟨hlength, fun j c m' hc hm' => (hstand j c m' hc hm').1, fun e he => ?_, fun e he _ => ?_,
    fun _ _ hd => absurd hd (by simp [findSmallest])⟩, hcurrent⟩
  · exact (OrdMap.least_eq_some_iff.mp (hcurrent.symm.trans he)).1
  · obtain ⟨-, hpe, hleast⟩ := OrdMap.least_eq_some_iff.mp (hcurrent.symm.trans he)
    intro j c m' hc hm'
    refine ⟨(hstand j c m' hc hm').1, (hstand j c m' hc hm').2.trans (OrdMap.least_congr fun x hx => ?_)⟩
    have hin : x ∈ m.entries := (hm.mem x).mpr ⟨m', List.mem_of_getElem? hm', hx⟩
    rw [Bool.eq_iff_iff, Move.since_iff]
    exact ⟨fun hpx => hleast x hin hpx, fun hle => hp _ _ hle hpe⟩

theorem findLargest_spec (hm : Merges ms m) (hlength : cs.length = ms.length)
    (hp : ∀ k k', k' ≤ k → p k = true → p k' = true)
    (hstand : Stand it I ms cs fun m' => m'.greatest p) (i : Option ℕ) :
    Follows it I ms m (findLargest it ⟨cs, i, .kReverse⟩) ∧
      current it (findLargest it ⟨cs, i, .kReverse⟩) = m.greatest p := by
  have hcurrent : current it (findLargest it ⟨cs, i, .kReverse⟩) = m.greatest p :=
    findLargest_current hm hlength hstand
  refine ⟨⟨hlength, fun j c m' hc hm' => (hstand j c m' hc hm').1, fun e he => ?_,
    fun _ _ hd => absurd hd (by simp [findLargest]), fun e he _ => ?_⟩, hcurrent⟩
  · exact (OrdMap.greatest_eq_some_iff.mp (hcurrent.symm.trans he)).1
  · obtain ⟨-, hpe, hgreatest⟩ := OrdMap.greatest_eq_some_iff.mp (hcurrent.symm.trans he)
    intro j c m' hc hm'
    refine ⟨(hstand j c m' hc hm').1,
      (hstand j c m' hc hm').2.trans (OrdMap.greatest_congr fun x hx => ?_)⟩
    have hin : x ∈ m.entries := (hm.mem x).mpr ⟨m', List.mem_of_getElem? hm', hx⟩
    rw [Bool.eq_iff_iff, Move.upTo_iff]
    exact ⟨fun hpx => hgreatest x hin hpx, fun hle => hp _ _ hle hpe⟩

section
variable {P : α → Prop} (hw : ∀ m' ∈ ms, it.WalksOn P (I m') m')
include hw

theorem stand_map (mv : Move α) (hmv : ∀ p : Option (α × β), mv.Allowed p) (hseek : mv.SeeksIn P)
    (h : Follows it I ms m s)
    {f : OrdMap α β → Option (α × β)} (hf : ∀ m' p, mv.target m' p = f m') :
    Stand it I ms (s.children.map (it.move mv)) f := by
  intro j c m' hc hm'
  rw [List.getElem?_map, Option.map_eq_some_iff] at hc
  obtain ⟨c, hc, rfl⟩ := hc
  have hwalks := hw m' (List.mem_of_getElem? hm')
  have hI := h.inner j c m' hc hm'
  exact ⟨hwalks.keeps mv c hI (hmv _) hseek, (hwalks.target mv c hI (hmv _) hseek).trans (hf m' _)⟩

theorem seekAfter_spec {m' : OrdMap α β} {c : σ} (hm' : m' ∈ ms) (hI : I m' c) {k : α}
    (hk : P k) :
    I m' (seekAfter it k c) ∧ it.current (seekAfter it k c) = m'.least (Move.above k) := by
  have hwalks := hw m' hm'
  obtain ⟨hkeep, htarget⟩ := hwalks.seek_at hI hk
  rw [seekAfter]
  cases hc : it.current (it.seek k c) with
  | none =>
    rw [hc] at htarget
    refine ⟨hkeep, hc.trans (OrdMap.least_eq_none_iff.mpr fun e he => ?_).symm⟩
    have hlt := Move.since_false_iff.mp (OrdMap.least_eq_none_iff.mp htarget.symm e he)
    exact Move.above_false_iff.mpr hlt.le
  | some e =>
    dsimp only
    split_ifs with hkey
    · have hnext := hwalks.next_at hkeep hc
      rwa [hkey] at hnext
    · refine ⟨hkeep, htarget.trans (OrdMap.least_congr fun x hx => ?_)⟩
      obtain ⟨-, hge, hleast⟩ := OrdMap.least_eq_some_iff.mp (htarget.symm.trans hc)
      rw [Bool.eq_iff_iff, Move.since_iff, Move.above_iff]
      refine ⟨fun hle => ?_, le_of_lt⟩
      exact (lt_of_le_of_ne (Move.since_iff.mp hge) (Ne.symm hkey)).trans_le
        (hleast x hx (Move.since_iff.mpr hle))

theorem seekBefore_spec {m' : OrdMap α β} {c : σ} (hm' : m' ∈ ms) (hI : I m' c) {k : α}
    (hk : P k) :
    I m' (seekBefore it k c) ∧ it.current (seekBefore it k c) = m'.greatest (Move.below k) := by
  have hwalks := hw m' hm'
  obtain ⟨hkeep, htarget⟩ := hwalks.seek_at hI hk
  rw [seekBefore, Walker.valid]
  cases hc : it.current (it.seek k c) with
  | none =>
    rw [hc] at htarget
    obtain ⟨hlast, hcurrent⟩ := hwalks.seekToLast_at hkeep
    refine ⟨hlast, hcurrent.trans (OrdMap.greatest_congr fun x hx => ?_)⟩
    have hlt := Move.since_false_iff.mp (OrdMap.least_eq_none_iff.mp htarget.symm x hx)
    exact (Move.below_iff.mpr hlt).symm
  | some e =>
    obtain ⟨hprev, hcurrent⟩ := hwalks.prev_at hkeep hc
    obtain ⟨-, hge, hleast⟩ := OrdMap.least_eq_some_iff.mp (htarget.symm.trans hc)
    refine ⟨hprev, hcurrent.trans (OrdMap.greatest_congr fun x hx => ?_)⟩
    rw [Bool.eq_iff_iff, Move.below_iff, Move.below_iff]
    refine ⟨fun hlt => ?_, fun hlt => hlt.trans_le (Move.since_iff.mp hge)⟩
    exact not_le.mp fun hle => absurd (hleast x hx (Move.since_iff.mpr hle)) (not_le.mpr hlt)

end

omit [LinearOrder α] in
theorem moved_getElem {side step : σ → σ} {P : Prop} [Decidable P] {i j : ℕ} {c' : σ}
    (h : ((if P then cs.mapIdx (fun j c => if j ≠ i then side c else c) else cs).modify i step)[j]? =
      some c') :
    ∃ c, cs[j]? = some c ∧ (j = i → c' = step c) ∧ (j ≠ i → c' = if P then side c else c) := by
  rw [List.getElem?_modify] at h
  by_cases hP : P
  · rw [if_pos hP, List.getElem?_mapIdx, Option.map_eq_map, Option.map_map, Option.map_eq_some_iff] at h
    obtain ⟨c, hc, rfl⟩ := h
    refine ⟨c, hc, fun hj => ?_, fun hj => ?_⟩
    · simp [hj]
    · simp [hj, Ne.symm hj, hP]
  · rw [if_neg hP, Option.map_eq_map, Option.map_eq_some_iff] at h
    obtain ⟨c, hc, rfl⟩ := h
    refine ⟨c, hc, fun hj => ?_, fun hj => ?_⟩
    · simp [hj]
    · simp [Ne.symm hj, hP]

omit [LinearOrder α] in
theorem moved_length {side step : σ → σ} {P : Prop} [Decidable P] {i : ℕ} :
    ((if P then cs.mapIdx (fun j c => if j ≠ i then side c else c) else cs).modify i step).length =
      cs.length := by
  split_ifs <;> simp

section
variable {P : α → Prop} (hw : ∀ m' ∈ ms, it.WalksOn P (I m') m')
include hw

theorem shown_child (h : Follows it I ms m s) {e : α × β} (he : current it s = some e) :
    ∃ i c m', s.index = some i ∧ s.children[i]? = some c ∧ ms[i]? = some m' ∧ it.current c = some e ∧
      e ∈ m'.entries := by
  obtain ⟨i, hi, hbind⟩ := Option.bind_eq_some_iff.mp he
  obtain ⟨c, hc, hcurrent⟩ := Option.bind_eq_some_iff.mp hbind
  have hlt : i < ms.length := h.length ▸ (List.getElem?_eq_some_iff.mp hc).1
  have hm' := List.getElem?_eq_getElem hlt
  exact ⟨i, c, ms[i], hi, hc, hm', hcurrent,
    (hw _ (List.getElem_mem hlt)).mem c e (h.inner i c _ hc hm') hcurrent⟩

theorem next_spec (hm : Merges ms m) (hkeys : ∀ e ∈ m.entries, P e.1) (h : Follows it I ms m s) {e : α × β}
    (he : current it s = some e) :
    Follows it I ms m (next it s) ∧ current it (next it s) = m.least (Move.above e.1) := by
  obtain ⟨i, c₀, m₀, hi, hc₀, hm₀, hcurrent, hmem⟩ := shown_child hw h he
  rw [next, hi, he]
  refine findSmallest_spec hm (moved_length.trans h.length) (fun k k' hle hk => ?_) ?_ _
  · exact Move.above_iff.mpr ((Move.above_iff.mp hk).trans_le hle)
  · intro j c' m' hc' hm'
    obtain ⟨c, hc, hstep, hside⟩ := moved_getElem hc'
    have hwalks := hw m' (List.mem_of_getElem? hm')
    have hI := h.inner j c m' hc hm'
    by_cases hj : j = i
    · subst hj
      obtain rfl : c₀ = c := Option.some.inj (hc₀.symm.trans hc)
      rw [hstep rfl]
      exact hwalks.next_at hI hcurrent
    · rw [hside hj]
      split_ifs with hdir
      · exact seekAfter_spec hw (List.mem_of_getElem? hm') hI (hkeys e (h.mem e he))
      · obtain ⟨-, hstand⟩ := h.ahead e he (not_not.mp hdir) j c m' hc hm'
        refine ⟨hI, hstand.trans (OrdMap.least_congr fun x hx => ?_)⟩
        have hne : e.1 ≠ x.1 := fun hkey => hj (hm.same hm' hm₀ hx hmem hkey.symm)
        rw [Bool.eq_iff_iff, Move.since_iff, Move.above_iff]
        exact ⟨fun hle => lt_of_le_of_ne hle hne, le_of_lt⟩

theorem prev_spec (hm : Merges ms m) (hkeys : ∀ e ∈ m.entries, P e.1) (h : Follows it I ms m s) {e : α × β}
    (he : current it s = some e) :
    Follows it I ms m (prev it s) ∧ current it (prev it s) = m.greatest (Move.below e.1) := by
  obtain ⟨i, c₀, m₀, hi, hc₀, hm₀, hcurrent, hmem⟩ := shown_child hw h he
  rw [prev, hi, he]
  refine findLargest_spec hm (moved_length.trans h.length) (fun k k' hle hk => ?_) ?_ _
  · exact Move.below_iff.mpr (hle.trans_lt (Move.below_iff.mp hk))
  · intro j c' m' hc' hm'
    obtain ⟨c, hc, hstep, hside⟩ := moved_getElem hc'
    have hwalks := hw m' (List.mem_of_getElem? hm')
    have hI := h.inner j c m' hc hm'
    by_cases hj : j = i
    · subst hj
      obtain rfl : c₀ = c := Option.some.inj (hc₀.symm.trans hc)
      rw [hstep rfl]
      exact hwalks.prev_at hI hcurrent
    · rw [hside hj]
      split_ifs with hdir
      · exact seekBefore_spec hw (List.mem_of_getElem? hm') hI (hkeys e (h.mem e he))
      · obtain ⟨-, hstand⟩ := h.behind e he (not_not.mp hdir) j c m' hc hm'
        refine ⟨hI, hstand.trans (OrdMap.greatest_congr fun x hx => ?_)⟩
        have hne : x.1 ≠ e.1 := fun hkey => hj (hm.same hm' hm₀ hx hmem hkey)
        rw [Bool.eq_iff_iff, Move.upTo_iff, Move.below_iff]
        exact ⟨fun hle => lt_of_le_of_ne hle hne, le_of_lt⟩

theorem move_spec (hm : Merges ms m) (hkeys : ∀ e ∈ m.entries, P e.1) (h : Follows it I ms m s)
    (mv : Move α) (hmv : mv.Allowed (current it s)) (hseek : mv.SeeksIn P) :
    Follows it I ms m ((walker it).move mv s) ∧
      current it ((walker it).move mv s) = mv.target m (current it s) := by
  cases mv with
  | seek k =>
    exact findSmallest_spec hm ((List.length_map ..).trans h.length)
      (fun a b hle ha => Move.since_iff.mpr ((Move.since_iff.mp ha).trans hle))
      (stand_map hw (.seek k) (fun _ => trivial) hseek h fun _ _ => rfl) s.index
  | seekToFirst =>
    exact findSmallest_spec hm ((List.length_map ..).trans h.length) (fun _ _ _ _ => rfl)
      (stand_map hw .seekToFirst (fun _ => trivial) hseek h fun _ _ => rfl) s.index
  | seekToLast =>
    exact findLargest_spec hm ((List.length_map ..).trans h.length) (fun _ _ _ _ => rfl)
      (stand_map hw .seekToLast (fun _ => trivial) hseek h fun _ _ => rfl) s.index
  | next =>
    obtain ⟨e, he⟩ := Option.isSome_iff_exists.mp hmv
    rw [he]
    exact next_spec hw hm hkeys h he
  | prev =>
    obtain ⟨e, he⟩ := Option.isSome_iff_exists.mp hmv
    rw [he]
    exact prev_spec hw hm hkeys h he

theorem walks (hm : Merges ms m) (hkeys : ∀ e ∈ m.entries, P e.1) :
    (walker it).WalksOn P (Follows it I ms m) m where
  mem _ e h he := h.mem e he
  keeps mv _ h hmv hseek := (move_spec hw hm hkeys h mv hmv hseek).1
  target mv _ h hmv hseek := (move_spec hw hm hkeys h mv hmv hseek).2

end

theorem new_follows (h : List.Forall₂ I ms cs) : Follows it I ms m (new cs) := by
  have hnew (e : α × β) (he : current it (new cs) = some e) : False := by simp [current, new] at he
  refine ⟨h.length_eq.symm, fun j c m' hc hm' => ?_, fun e he => (hnew e he).elim, fun e he => (hnew e he).elim,
    fun e he => (hnew e he).elim⟩
  obtain ⟨hj, rfl⟩ := List.getElem?_eq_some_iff.mp hm'
  obtain ⟨hj', rfl⟩ := List.getElem?_eq_some_iff.mp hc
  exact h.get hj hj'

/-- Whatever moves are made, the merging iterator shows what a cursor over the merged map shows. -/
theorem follows_merged (hw : ∀ m' ∈ ms, it.Walks (I m') m') (hm : Merges ms m)
    (hlength : cs.length = ms.length)
    (hI : ∀ (j : ℕ) c m', cs[j]? = some c → ms[j]? = some m' → I m' c) (moves : List (Move α))
    (hallowed : Trace.Along (walker it).move (fun mv s => mv.Allowed (current it s)) moves (new cs)) :
    current it (Trace.run (walker it).move moves (new cs)) =
      (Trace.run (Cursor.walker m).move moves ⟨[], []⟩).current := by
  have hchildren : List.Forall₂ I ms cs := by
    refine List.forall₂_iff_get.mpr ⟨hlength.symm, fun j hj hj' => hI j _ _ ?_ ?_⟩
    · exact List.getElem?_eq_getElem hj'
    · exact List.getElem?_eq_getElem hj
  exact Walker.Walks.agree (walks hw hm fun _ _ => trivial) (Cursor.walks m) (new_follows hchildren)
    (fun hv => absurd hv (by simp [Cursor.valid, Cursor.current])) rfl hallowed

theorem follows_merged_two :
    let odd : OrdMap ℕ ℕ := ⟨[(1, 10), (3, 30)], by decide⟩
    let even : OrdMap ℕ ℕ := ⟨[(2, 20), (4, 40)], by decide⟩
    current Cursor.held (Trace.run (walker Cursor.held).move
      [.seek 2, .next, .next, .prev, .prev, .prev] (new [(odd, ⟨[], []⟩), (even, ⟨[], []⟩)])) =
        some (1, 10) := by
  intro odd even
  have hm : Merges [odd, even] ⟨[(1, 10), (2, 20), (3, 30), (4, 40)], by decide⟩ := by
    refine ⟨fun e => ?_, by decide⟩
    simp only [odd, even, List.mem_cons, List.not_mem_nil, or_false, exists_eq_or_imp,
      exists_eq_left]
    tauto
  have hI : ∀ (j : ℕ) (c : OrdMap ℕ ℕ × Cursor ℕ ℕ) (m' : OrdMap ℕ ℕ),
      [(odd, ⟨[], []⟩), (even, ⟨[], []⟩)][j]? = some c → [odd, even][j]? = some m' →
        c.1 = m' ∧ Cursor.Splits m' c.2 := by
    intro j c m' hc hm'
    have hempty (a : OrdMap ℕ ℕ) : Cursor.Splits a ⟨[], []⟩ := fun hv => absurd hv (by decide)
    rcases j with _ | _ | j
    · obtain rfl := Option.some.inj hc
      obtain rfl := Option.some.inj hm'
      exact ⟨rfl, hempty _⟩
    · obtain rfl := Option.some.inj hc
      obtain rfl := Option.some.inj hm'
      exact ⟨rfl, hempty _⟩
    · simp at hc
  exact (follows_merged (fun m' _ => Cursor.held_walks m') hm rfl hI _ (by decide)).trans (by decide)

end MergingIterator
