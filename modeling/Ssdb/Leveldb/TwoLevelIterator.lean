import Ssdb.Library.Shelves

structure TwoLevelIterator (σ τ γ : Type) where
  index_iter : σ
  /-- The iterator over a block, with the handle that it was opened by. -/
  data_iter : Option (γ × τ)

namespace TwoLevelIterator
variable {σ τ α β γ : Type} [LinearOrder α] [DecidableEq γ] (index : Walker σ α γ) (data : Walker τ α β)
  (block_function : γ → τ)

def new (index_iter : σ) : TwoLevelIterator σ τ γ := ⟨index_iter, none⟩

def current (s : TwoLevelIterator σ τ γ) : Option (α × β) := s.data_iter.bind fun d => data.current d.2

def initDataBlock (s : TwoLevelIterator σ τ γ) : TwoLevelIterator σ τ γ :=
  match index.current s.index_iter with
  | none => { s with data_iter := none }
  | some (_, handle) =>
    if s.data_iter.any fun d => handle = d.1 then s
    else { s with data_iter := some (handle, block_function handle) }

def moveData (move : τ → τ) (s : TwoLevelIterator σ τ γ) : TwoLevelIterator σ τ γ :=
  { s with data_iter := s.data_iter.map fun d => (d.1, move d.2) }

def enter (step : σ → σ) (move : τ → τ) (s : TwoLevelIterator σ τ γ) : TwoLevelIterator σ τ γ :=
  moveData move (initDataBlock index block_function { s with index_iter := step s.index_iter })

def skipEmptyDataBlocks (step : σ → σ) (start : τ → τ) :
    ℕ → TwoLevelIterator σ τ γ → TwoLevelIterator σ τ γ
  | 0, s => s
  | n + 1, s =>
    if (current data s).isSome then s
    else
      match index.current s.index_iter with
      | none => { s with data_iter := none }
      | some _ => skipEmptyDataBlocks step start n (enter index block_function step start s)

variable (n : ℕ)

def skipEmptyDataBlocksForward : TwoLevelIterator σ τ γ → TwoLevelIterator σ τ γ :=
  skipEmptyDataBlocks index data block_function index.next data.seekToFirst n

def skipEmptyDataBlocksBackward : TwoLevelIterator σ τ γ → TwoLevelIterator σ τ γ :=
  skipEmptyDataBlocks index data block_function index.prev data.seekToLast n

def seek (target : α) (s : TwoLevelIterator σ τ γ) : TwoLevelIterator σ τ γ :=
  skipEmptyDataBlocksForward index data block_function n
    (enter index block_function (index.seek target) (data.seek target) s)

def seekToFirst (s : TwoLevelIterator σ τ γ) : TwoLevelIterator σ τ γ :=
  skipEmptyDataBlocksForward index data block_function n
    (enter index block_function index.seekToFirst data.seekToFirst s)

def seekToLast (s : TwoLevelIterator σ τ γ) : TwoLevelIterator σ τ γ :=
  skipEmptyDataBlocksBackward index data block_function n
    (enter index block_function index.seekToLast data.seekToLast s)

def next (s : TwoLevelIterator σ τ γ) : TwoLevelIterator σ τ γ :=
  skipEmptyDataBlocksForward index data block_function n (moveData data.next s)

def prev (s : TwoLevelIterator σ τ γ) : TwoLevelIterator σ τ γ :=
  skipEmptyDataBlocksBackward index data block_function n (moveData data.prev s)

def walker : Walker (TwoLevelIterator σ τ γ) α β where
  current := current data
  seek := seek index data block_function n
  seekToFirst := seekToFirst index data block_function n
  seekToLast := seekToLast index data block_function n
  next := next index data block_function n
  prev := prev index data block_function n

variable {index data block_function n} {I : σ → Prop} {J : γ → τ → Prop} {M : OrdMap α γ}
  {part : γ → OrdMap α β} {m : OrdMap α β} {s : TwoLevelIterator σ τ γ} {i : α × γ} {x : τ}
  {before after rest : List (α × γ)}

structure Follows (index : Walker σ α γ) (data : Walker τ α β) (I : σ → Prop) (J : γ → τ → Prop)
    (s : TwoLevelIterator σ τ γ) : Prop where
  inner : I s.index_iter
  block : ∀ d ∈ s.data_iter, J d.1 d.2
  stand : ∀ e, current data s = some e →
    ∃ i x, index.current s.index_iter = some i ∧ s.data_iter = some (i.2, x)

omit [LinearOrder α] in
theorem initDataBlock_spec (hdata : ∀ d ∈ s.data_iter, J d.1 d.2) (hcurrent : index.current s.index_iter = some i)
    (hopen : J i.2 (block_function i.2)) :
    ∃ x, initDataBlock index block_function s = { s with data_iter := some (i.2, x) } ∧ J i.2 x := by
  rw [initDataBlock, hcurrent]
  dsimp only
  split_ifs with hsame
  · obtain ⟨d, hd, heq⟩ := Option.any_eq_true _ _ |>.mp hsame
    obtain ⟨h, x⟩ := d
    obtain rfl : i.2 = h := of_decide_eq_true heq
    exact ⟨x, by rw [← hd], hdata _ hd⟩
  · exact ⟨_, rfl, hopen⟩

omit [LinearOrder α] in
theorem enter_spec {step : σ → σ} {move : τ → τ} {e : Option (α × β)} (hdata : ∀ d ∈ s.data_iter, J d.1 d.2)
    (hstep : I (step s.index_iter)) (hcurrent : index.current (step s.index_iter) = some i)
    (hopen : J i.2 (block_function i.2)) (hmove : ∀ x, J i.2 x → J i.2 (move x) ∧ data.current (move x) = e) :
    I (enter index block_function step move s).index_iter ∧
      index.current (enter index block_function step move s).index_iter = some i ∧
      ∃ x, (enter index block_function step move s).data_iter = some (i.2, x) ∧ J i.2 x ∧ data.current x = e := by
  obtain ⟨x, hinit, hx⟩ := initDataBlock_spec (s := { s with index_iter := step s.index_iter }) hdata hcurrent hopen
  rw [enter, hinit]
  exact ⟨hstep, hcurrent, move x, rfl, hmove x hx⟩

omit [LinearOrder α] in
theorem enter_none {step : σ → σ} {move : τ → τ} (hcurrent : index.current (step s.index_iter) = none) :
    enter index block_function step move s = ⟨step s.index_iter, none⟩ := by
  rw [enter, initDataBlock, hcurrent]
  rfl

omit [LinearOrder α] in
theorem skip_none {step : σ → σ} {start : τ → τ} {y : σ} (hy : I y) (hcurrent : index.current y = none) :
    Follows index data I J (skipEmptyDataBlocks index data block_function step start (n + 1) ⟨y, none⟩) ∧
      current data (skipEmptyDataBlocks index data block_function step start (n + 1) ⟨y, none⟩) = none := by
  have hstay : skipEmptyDataBlocks index data block_function step start (n + 1) ⟨y, none⟩ = ⟨y, none⟩ := by
    rw [skipEmptyDataBlocks]
    simp [current, hcurrent]
  rw [hstay]
  exact ⟨⟨hy, fun d hd => absurd hd (by simp), fun e he => absurd he (by simp [current])⟩, rfl⟩

omit [LinearOrder α] in
theorem skip_spec {step : σ → σ} {start : τ → τ} (first : γ → Option (α × β))
    (Split : α × γ → List (α × γ) → Prop)
    (hstep : ∀ i rest y, Split i rest → I y → index.current y = some i →
      I (step y) ∧ index.current (step y) = rest.head?)
    (hrest : ∀ i j rest, Split i (j :: rest) → Split j rest)
    (hopen : ∀ i rest, Split i rest → J i.2 (block_function i.2))
    (hstart : ∀ i rest x, Split i rest → J i.2 x → J i.2 (start x) ∧ data.current (start x) = first i.2)
    (hsplit : Split i rest) (hn : rest.length + 1 < n) (hindex : I s.index_iter)
    (hcurrent : index.current s.index_iter = some i) (hdata : s.data_iter = some (i.2, x)) (hx : J i.2 x) :
    Follows index data I J (skipEmptyDataBlocks index data block_function step start n s) ∧
      current data (skipEmptyDataBlocks index data block_function step start n s) =
        (data.current x).or (rest.findSome? fun j => first j.2) := by
  have hshown : current data s = data.current x := by rw [current, hdata, Option.bind_some]
  induction rest generalizing n s i x with
  | nil =>
    obtain ⟨k, rfl⟩ : ∃ k, n = k + 2 := ⟨n - 2, by rw [List.length_nil] at hn; omega⟩
    rw [skipEmptyDataBlocks, hshown]
    cases he : data.current x with
    | some e =>
      refine ⟨⟨hindex, fun d hd => ?_, fun _ _ => ⟨i, x, hcurrent, hdata⟩⟩, hshown.trans he⟩
      obtain rfl := Option.some.inj (hdata.symm.trans hd)
      exact hx
    | none =>
      obtain ⟨hI, hnext⟩ := hstep i [] _ hsplit hindex hcurrent
      rw [hcurrent, enter_none hnext]
      exact skip_none hI hnext
  | cons j rest ih =>
    obtain ⟨k, rfl⟩ : ∃ k, n = k + 1 := ⟨n - 1, by rw [List.length_cons] at hn; omega⟩
    rw [skipEmptyDataBlocks, hshown]
    cases he : data.current x with
    | some e =>
      refine ⟨⟨hindex, fun d hd => ?_, fun _ _ => ⟨i, x, hcurrent, hdata⟩⟩, hshown.trans he⟩
      obtain rfl := Option.some.inj (hdata.symm.trans hd)
      exact hx
    | none =>
      obtain ⟨hI, hnext⟩ := hstep i (j :: rest) _ hsplit hindex hcurrent
      have hsplit' := hrest i j rest hsplit
      have hold : ∀ d ∈ s.data_iter, J d.1 d.2 := fun d hd => by
        obtain rfl := Option.some.inj (hdata.symm.trans hd)
        exact hx
      obtain ⟨hentered, hon, y, hdata', hy, hfirst⟩ := enter_spec hold hI hnext (hopen j rest hsplit')
        fun z hz => hstart j rest z hsplit' hz
      have hlength : rest.length + 1 < k := by rw [List.length_cons] at hn; omega
      have hscan := ih hsplit' hlength hentered hon hdata' hy (by rw [current, hdata', Option.bind_some])
      rw [hcurrent, List.findSome?_cons]
      refine ⟨hscan.1, hscan.2.trans ?_⟩
      rw [hfirst]
      cases first j.2 <;> rfl

section
variable {P : α → Prop} (hindex : index.WalksOn P I M)
  (hdata : ∀ i ∈ M.entries, data.WalksOn P (J i.2) (part i.2))
  (hopen : ∀ i ∈ M.entries, J i.2 (block_function i.2)) (hm : OrdMap.Shelved M part m)
include hindex hdata hopen

theorem forward_spec (hsplit : before.reverse ++ i :: after = M.entries) (hn : M.entries.length + 1 < n)
    (hI : I s.index_iter) (hcurrent : index.current s.index_iter = some i) (hx : s.data_iter = some (i.2, x))
    (hJ : J i.2 x) :
    Follows index data I J (skipEmptyDataBlocksForward index data block_function n s) ∧
      current data (skipEmptyDataBlocksForward index data block_function n s) =
        (data.current x).or (after.findSome? fun j => (part j.2).least fun _ => true) := by
  have hmem (j : α × γ) (rest : List (α × γ))
      (h : ∃ before : List (α × γ), before.reverse ++ j :: rest = M.entries) : j ∈ M.entries := by
    obtain ⟨before, h⟩ := h
    simp [← h]
  have hlength : after.length + 1 < n := by
    rw [← hsplit, List.length_append, List.length_cons] at hn
    omega
  refine skip_spec (fun h => (part h).least fun _ => true)
    (fun j rest => ∃ before : List (α × γ), before.reverse ++ j :: rest = M.entries)
    (fun j rest y h hy hj => ?_) (fun j j' rest h => ?_) (fun j rest h => hopen j (hmem j rest h))
    (fun j rest y h hy => ?_) ⟨before, hsplit⟩ hlength hI hcurrent hx hJ
  · obtain ⟨before, h⟩ := h
    exact hindex.next_split hy hj h
  · obtain ⟨before, h⟩ := h
    exact ⟨j :: before, by simpa using h⟩
  · exact (hdata j (hmem j rest h)).seekToFirst_at hy

theorem backward_spec (hsplit : before.reverse ++ i :: after = M.entries) (hn : M.entries.length + 1 < n)
    (hI : I s.index_iter) (hcurrent : index.current s.index_iter = some i) (hx : s.data_iter = some (i.2, x))
    (hJ : J i.2 x) :
    Follows index data I J (skipEmptyDataBlocksBackward index data block_function n s) ∧
      current data (skipEmptyDataBlocksBackward index data block_function n s) =
        (data.current x).or (before.findSome? fun j => (part j.2).greatest fun _ => true) := by
  have hmem (j : α × γ) (rest : List (α × γ))
      (h : ∃ after : List (α × γ), rest.reverse ++ j :: after = M.entries) : j ∈ M.entries := by
    obtain ⟨after, h⟩ := h
    simp [← h]
  have hlength : before.length + 1 < n := by
    rw [← hsplit, List.length_append, List.length_cons, List.length_reverse] at hn
    omega
  refine skip_spec (fun h => (part h).greatest fun _ => true)
    (fun j rest => ∃ after : List (α × γ), rest.reverse ++ j :: after = M.entries)
    (fun j rest y h hy hj => ?_) (fun j j' rest h => ?_) (fun j rest h => hopen j (hmem j rest h))
    (fun j rest y h hy => ?_) ⟨after, hsplit⟩ hlength hI hcurrent hx hJ
  · obtain ⟨after, h⟩ := h
    exact hindex.prev_split hy hj h
  · obtain ⟨after, h⟩ := h
    exact ⟨j :: after, by simpa using h⟩
  · exact (hdata j (hmem j rest h)).seekToLast_at hy

include hm

theorem forward_enter {p : α → Bool} {step : σ → σ} {move : τ → τ} (hn : M.entries.length + 1 < n)
    (h : Follows index data I J s) (hsplit : before.reverse ++ after = M.entries)
    (hstep : I (step s.index_iter) ∧ index.current (step s.index_iter) = after.head?)
    (hmove : ∀ i ∈ after.head?, ∀ x, J i.2 x → J i.2 (move x) ∧ data.current (move x) = (part i.2).least p)
    (hbefore : ∀ j ∈ before, ∀ e ∈ (part j.2).entries, p e.1 = false)
    (hafter : ∀ j ∈ after.tail, ∀ e ∈ (part j.2).entries, p e.1 = true) :
    Follows index data I J (skipEmptyDataBlocksForward index data block_function n
        (enter index block_function step move s)) ∧
      current data (skipEmptyDataBlocksForward index data block_function n
        (enter index block_function step move s)) = m.least p := by
  cases after with
  | nil =>
    obtain ⟨k, rfl⟩ : ∃ k, n = k + 1 := ⟨n - 1, by omega⟩
    rw [enter_none hstep.2, hm.least_from hsplit hbefore]
    exact skip_none hstep.1 hstep.2
  | cons i rest =>
    have hi : i ∈ M.entries := by simp [← hsplit]
    obtain ⟨hI, hcurrent, x, hx, hJ, hfirst⟩ := enter_spec h.block hstep.1 hstep.2 (hopen i hi) (hmove i rfl)
    rw [hm.least_at hsplit hbefore hafter, ← hfirst]
    exact forward_spec hindex hdata hopen hsplit hn hI hcurrent hx hJ

theorem backward_enter {p : α → Bool} {step : σ → σ} {move : τ → τ} (hn : M.entries.length + 1 < n)
    (h : Follows index data I J s) (hsplit : before.reverse ++ after = M.entries)
    (hstep : I (step s.index_iter) ∧ index.current (step s.index_iter) = before.head?)
    (hmove : ∀ i ∈ before.head?, ∀ x, J i.2 x → J i.2 (move x) ∧ data.current (move x) = (part i.2).greatest p)
    (hbefore : ∀ j ∈ before.tail, ∀ e ∈ (part j.2).entries, p e.1 = true)
    (hafter : ∀ j ∈ after, ∀ e ∈ (part j.2).entries, p e.1 = false) :
    Follows index data I J (skipEmptyDataBlocksBackward index data block_function n
        (enter index block_function step move s)) ∧
      current data (skipEmptyDataBlocksBackward index data block_function n
        (enter index block_function step move s)) = m.greatest p := by
  cases before with
  | nil =>
    obtain ⟨k, rfl⟩ : ∃ k, n = k + 1 := ⟨n - 1, by omega⟩
    rw [enter_none hstep.2, hm.greatest_from hsplit hafter]
    exact skip_none hstep.1 hstep.2
  | cons i rest =>
    have hi : i ∈ M.entries := by simp [← hsplit]
    have hsplit' : rest.reverse ++ i :: after = M.entries := by simpa using hsplit
    obtain ⟨hI, hcurrent, x, hx, hJ, hlast⟩ := enter_spec h.block hstep.1 hstep.2 (hopen i hi) (hmove i rfl)
    rw [hm.greatest_at hsplit' hbefore hafter, ← hlast]
    exact backward_spec hindex hdata hopen hsplit' hn hI hcurrent hx hJ

omit hopen [DecidableEq γ] in
theorem shown_at (h : Follows index data I J s) {e : α × β} (he : current data s = some e) :
    ∃ (before : List (α × γ)) (i : α × γ) (after : List (α × γ)) (x : τ),
      before.reverse ++ i :: after = M.entries ∧ index.current s.index_iter = some i ∧
      s.data_iter = some (i.2, x) ∧ J i.2 x ∧ data.current x = some e ∧ e ∈ (part i.2).entries ∧
      (∀ j ∈ before, ∀ e' ∈ (part j.2).entries, e'.1 < e.1) ∧
      ∀ j ∈ after, ∀ e' ∈ (part j.2).entries, e.1 < e'.1 := by
  obtain ⟨i, x, hcurrent, hx⟩ := h.stand e he
  have hi := hindex.mem _ i h.inner hcurrent
  have hJ := h.block _ hx
  have hshown : data.current x = some e := by rwa [current, hx, Option.bind_some] at he
  have hin := (hdata i hi).mem x e hJ hshown
  obtain ⟨front, after, hsplit⟩ := List.append_of_mem hi
  have hsplit' : front.reverse.reverse ++ i :: after = M.entries := by rw [List.reverse_reverse, hsplit]
  obtain ⟨hleft, hright⟩ := hm.sides hsplit'
  refine ⟨front.reverse, i, after, x, hsplit', hcurrent, hx, hJ, hshown, hin, ?_, ?_⟩
  · exact fun j hj e' he' => hleft j hj e' he' e hin
  · exact fun j hj e' he' => (hm.upTo i hi e hin).trans_lt (hright j hj e' he')

theorem move_spec (hn : M.entries.length + 1 < n) (h : Follows index data I J s) (mv : Move α)
    (hmv : mv.Allowed (current data s)) (hseek : mv.SeeksIn P) :
    Follows index data I J ((walker index data block_function n).move mv s) ∧
      current data ((walker index data block_function n).move mv s) = mv.target m (current data s) := by
  cases mv with
  | seek target =>
    obtain ⟨hI, before, after, hsplit, hcurrent, hbelow, hsince⟩ := hindex.seek_split h.inner hseek
    refine forward_enter hindex hdata hopen hm hn h hsplit ⟨hI, hcurrent⟩ (fun i hi x hx => ?_) ?_ ?_
    · have hi' : i ∈ M.entries := by
        rw [← hsplit]
        exact List.mem_append_right _ (List.mem_of_head? hi)
      exact (hdata i hi').seek_at hx hseek
    · intro j hj e he
      have hj' : j ∈ M.entries := by simp [← hsplit, hj]
      exact Move.since_false_iff.mpr ((hm.upTo j hj' e he).trans_lt (hbelow j hj))
    · intro j hj e he
      cases after with
      | nil => exact absurd hj (by simp)
      | cons i rest =>
        have hright := (hm.sides hsplit).2 j hj e he
        exact Move.since_iff.mpr ((hsince i (by simp)).trans hright.le)
  | seekToFirst =>
    have hsplit : ([] : List (α × γ)).reverse ++ M.entries = M.entries := rfl
    refine forward_enter (p := fun _ => true) hindex hdata hopen hm hn h hsplit (hindex.seekToFirst_split h.inner)
      (fun i hi x hx => ?_) (fun j hj => absurd hj (by simp)) fun _ _ _ _ => rfl
    exact (hdata i (List.mem_of_head? hi)).seekToFirst_at hx
  | seekToLast =>
    have hsplit : M.entries.reverse.reverse ++ [] = M.entries := by simp
    refine backward_enter (p := fun _ => true) hindex hdata hopen hm hn h hsplit (hindex.seekToLast_split h.inner)
      (fun i hi x hx => ?_) (fun _ _ _ _ => rfl) fun j hj => absurd hj (by simp)
    exact (hdata i (List.mem_reverse.mp (List.mem_of_head? hi))).seekToLast_at hx
  | next =>
    obtain ⟨e, he⟩ := Option.isSome_iff_exists.mp hmv
    obtain ⟨before, i, after, x, hsplit, hcurrent, hx, hJ, hshown, hin, hleft, hright⟩ :=
      shown_at hindex hdata hm h he
    obtain ⟨hJ', hnext⟩ := (hdata i (by simp [← hsplit])).next_at hJ hshown
    have hmoved : (moveData data.next s).data_iter = some (i.2, data.next x) := by rw [moveData, hx]; rfl
    have hscan := forward_spec (s := moveData data.next s) hindex hdata hopen hsplit hn h.inner hcurrent hmoved hJ'
    rw [he]
    refine ⟨hscan.1, hscan.2.trans ?_⟩
    rw [hnext]
    refine (hm.least_at hsplit (fun j hj e' he' => ?_) fun j hj e' he' => ?_).symm
    · exact Move.above_false_iff.mpr (hleft j hj e' he').le
    · exact Move.above_iff.mpr (hright j hj e' he')
  | prev =>
    obtain ⟨e, he⟩ := Option.isSome_iff_exists.mp hmv
    obtain ⟨before, i, after, x, hsplit, hcurrent, hx, hJ, hshown, hin, hleft, hright⟩ :=
      shown_at hindex hdata hm h he
    obtain ⟨hJ', hprev⟩ := (hdata i (by simp [← hsplit])).prev_at hJ hshown
    have hmoved : (moveData data.prev s).data_iter = some (i.2, data.prev x) := by rw [moveData, hx]; rfl
    have hscan := backward_spec (s := moveData data.prev s) hindex hdata hopen hsplit hn h.inner hcurrent hmoved hJ'
    rw [he]
    refine ⟨hscan.1, hscan.2.trans ?_⟩
    rw [hprev]
    refine (hm.greatest_at hsplit (fun j hj e' he' => ?_) fun j hj e' he' => ?_).symm
    · exact Move.below_iff.mpr (hleft j hj e' he')
    · exact Move.below_false_iff.mpr (hright j hj e' he').le

theorem walks (hn : M.entries.length + 1 < n) :
    (walker index data block_function n).WalksOn P (Follows index data I J) m where
  mem s e h he := by
    obtain ⟨before, i, after, x, hsplit, -, -, -, -, hin, -, -⟩ := shown_at hindex hdata hm h he
    exact hm.mem.mpr ⟨i, by simp [← hsplit], hin⟩
  keeps mv s h hmv hseek := (move_spec hindex hdata hopen hm hn h mv hmv hseek).1
  target mv s h hmv hseek := (move_spec hindex hdata hopen hm hn h mv hmv hseek).2

end

end TwoLevelIterator
