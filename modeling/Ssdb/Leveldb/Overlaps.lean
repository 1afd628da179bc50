import Ssdb.Leveldb.VersionSet

structure Span where
  low : Option Bytes
  high : Option Bytes

namespace Span
variable {r r' : Span} {f g : FileMetaData} {k : Bytes}

def Meets (r : Span) (f : FileMetaData) : Prop :=
  (∀ k ∈ r.low, k ≤ f.largest.user_key) ∧ ∀ k ∈ r.high, f.smallest.user_key ≤ k

def Covers (r : Span) (f : FileMetaData) : Prop :=
  (∀ k ∈ r.low, k ≤ f.smallest.user_key) ∧ ∀ k ∈ r.high, f.largest.user_key ≤ k

def Widens (r r' : Span) : Prop :=
  (∀ k' ∈ r'.low, ∃ k ∈ r.low, k' ≤ k) ∧ ∀ k' ∈ r'.high, ∃ k ∈ r.high, k ≤ k'

instance decidableMeets (r : Span) (f : FileMetaData) : Decidable (r.Meets f) :=
  inferInstanceAs (Decidable ((∀ k ∈ r.low, k ≤ f.largest.user_key) ∧
    ∀ k ∈ r.high, f.smallest.user_key ≤ k))

theorem Widens.refl (r : Span) : r.Widens r := ⟨fun k hk => ⟨k, hk, le_rfl⟩, fun k hk => ⟨k, hk, le_rfl⟩⟩

theorem Widens.trans {r'' : Span} (h : r.Widens r') (h' : r'.Widens r'') : r.Widens r'' := by
  constructor
  · intro k'' hk''
    obtain ⟨k', hk', hle'⟩ := h'.1 k'' hk''
    obtain ⟨k, hk, hle⟩ := h.1 k' hk'
    exact ⟨k, hk, hle'.trans hle⟩
  · intro k'' hk''
    obtain ⟨k', hk', hle'⟩ := h'.2 k'' hk''
    obtain ⟨k, hk, hle⟩ := h.2 k' hk'
    exact ⟨k, hk, hle.trans hle'⟩

theorem Widens.meets (h : r.Widens r') (hf : r.Meets f) : r'.Meets f := by
  constructor
  · intro k' hk'
    obtain ⟨k, hk, hle⟩ := h.1 k' hk'
    exact hle.trans (hf.1 k hk)
  · intro k' hk'
    obtain ⟨k, hk, hle⟩ := h.2 k' hk'
    exact (hf.2 k hk).trans hle

theorem apart (hf : ¬ r.Meets f) (hg : r.Covers g) : f.Before g ∨ g.Before f := by
  rcases not_and_or.mp hf with h | h
  · push Not at h
    obtain ⟨k, hk, hlt⟩ := h
    exact .inl (hlt.trans_le (hg.1 k hk))
  · push Not at h
    obtain ⟨k, hk, hlt⟩ := h
    exact .inr ((hg.2 k hk).trans_lt hlt)

def outside (r : Span) (files : List FileMetaData) : ℕ :=
  files.countP (fun f => r.low.any fun k => f.smallest.user_key < k) +
    files.countP fun f => r.high.any fun k => k < f.largest.user_key

theorem outside_le (files : List FileMetaData) : r.outside files ≤ 2 * files.length := by
  have hlow := List.countP_le_length (p := fun f : FileMetaData => r.low.any fun k => f.smallest.user_key < k)
    (l := files)
  have hhigh := List.countP_le_length (p := fun f : FileMetaData => r.high.any fun k => k < f.largest.user_key)
    (l := files)
  rw [outside]
  omega

theorem countP_lt {α : Type} {l : List α} {p q : α → Bool} {a : α} (hpq : ∀ x ∈ l, p x = true → q x = true)
    (ha : a ∈ l) (hp : p a = false) (hq : q a = true) : l.countP p < l.countP q := by
  induction l with
  | nil => simp at ha
  | cons x l ih =>
    obtain ⟨hx, hl⟩ := List.forall_mem_cons.mp hpq
    have hle : l.countP p ≤ l.countP q := List.countP_mono_left hl
    rw [List.countP_cons, List.countP_cons]
    rcases List.mem_cons.mp ha with rfl | ha
    · simp [hp, hq]
      omega
    · have hlt := ih hl ha
      cases hpx : p x with
      | true => simp [hx hpx, hlt]
      | false => cases q x <;> simp <;> omega

theorem outside_low (hk : r.low = some k) {files : List FileMetaData} (hf : f ∈ files)
    (hlt : f.smallest.user_key < k) :
    outside ⟨some f.smallest.user_key, r.high⟩ files < r.outside files := by
  have hcount := countP_lt (l := files) (a := f)
    (p := fun g : FileMetaData => (some f.smallest.user_key).any fun k => g.smallest.user_key < k)
    (q := fun g : FileMetaData => r.low.any fun k => g.smallest.user_key < k)
    (fun g _ hg => by
      simp only [Option.any_some, decide_eq_true_eq, hk] at hg ⊢
      exact hg.trans hlt) hf (by simp) (by simpa [hk] using hlt)
  simp only [outside]
  omega

theorem outside_high (hk : r.high = some k) {files : List FileMetaData} (hf : f ∈ files)
    (hlt : k < f.largest.user_key) :
    outside ⟨r.low, some f.largest.user_key⟩ files < r.outside files := by
  have hcount := countP_lt (l := files) (a := f)
    (p := fun g : FileMetaData => (some f.largest.user_key).any fun k => k < g.largest.user_key)
    (q := fun g : FileMetaData => r.high.any fun k => k < g.largest.user_key)
    (fun g _ hg => by
      simp only [Option.any_some, decide_eq_true_eq, hk] at hg ⊢
      exact hlt.trans hg) hf (by simp) (by simpa [hk] using hlt)
  simp only [outside]
  omega

end Span

section
variable {level : ℕ} {r : Span} {files inputs : List FileMetaData}

inductive Drawn (r : Span) (files : List FileMetaData) : Option Bytes × Option Bytes → Prop where
  | low (f : FileMetaData) (k : Bytes) (hf : f ∈ files) (hmeets : r.Meets f) (hk : r.low = some k)
      (hlt : f.smallest.user_key < k) : Drawn r files (some f.smallest.user_key, r.high)
  | high (f : FileMetaData) (k : Bytes) (hf : f ∈ files) (hmeets : r.Meets f) (hk : r.high = some k)
      (hlt : k < f.largest.user_key) : Drawn r files (r.low, some f.largest.user_key)

theorem Drawn.mono {files' : List FileMetaData} {ends : Option Bytes × Option Bytes} (h : Drawn r files ends)
    (hsub : files ⊆ files') : Drawn r files' ends := by
  cases h with
  | low f k hf hmeets hk hlt => exact .low f k (hsub hf) hmeets hk hlt
  | high f k hf hmeets hk hlt => exact .high f k (hsub hf) hmeets hk hlt

theorem any_iff {o : Option Bytes} {p : Bytes → Prop} [DecidablePred p] :
    (o.any fun k => decide (p k)) = true ↔ ∃ k, o = some k ∧ p k := by
  cases o <;> simp

theorem overlapPass_skip {f : FileMetaData} (h : ¬ r.Meets f) :
    overlapPass level r.low r.high (f :: files) inputs = overlapPass level r.low r.high files inputs := by
  rw [overlapPass]
  by_cases hbefore : (r.low.any fun k => BytewiseComparator.compare f.largest.user_key k < 0) = true
  · rw [if_pos hbefore]
  · have hafter : (r.high.any fun k => BytewiseComparator.compare f.smallest.user_key k > 0) = true := by
      rw [any_iff] at hbefore ⊢
      simp only [BytewiseComparator.compare_lt, gt_iff_lt, BytewiseComparator.compare_gt] at hbefore ⊢
      rcases not_and_or.mp h with hlow | hhigh
      · push Not at hlow
        exact absurd hlow hbefore
      · push Not at hhigh
        exact hhigh
    rw [if_neg hbefore, if_pos hafter]

theorem Span.Meets.low_false {f : FileMetaData} (h : r.Meets f) :
    ¬ (r.low.any fun k => BytewiseComparator.compare f.largest.user_key k < 0) = true := by
  rw [any_iff]
  rintro ⟨k, hk, hlt⟩
  exact absurd (BytewiseComparator.compare_lt.mp hlt) (not_lt.mpr (h.1 k hk))

theorem Span.Meets.high_false {f : FileMetaData} (h : r.Meets f) :
    ¬ (r.high.any fun k => BytewiseComparator.compare f.smallest.user_key k > 0) = true := by
  rw [any_iff]
  rintro ⟨k, hk, hlt⟩
  exact absurd (BytewiseComparator.compare_gt.mp hlt) (not_lt.mpr (h.2 k hk))

theorem overlapPass_take {f : FileMetaData} (h : r.Meets f) (hcovers : level = 0 → r.Covers f) :
    overlapPass level r.low r.high (f :: files) inputs =
      overlapPass level r.low r.high files (inputs ++ [f]) := by
  rw [overlapPass]
  rw [if_neg h.low_false, if_neg h.high_false]
  by_cases hlevel : level = 0
  · obtain ⟨hlow, hhigh⟩ := hcovers hlevel
    have hstart : ¬ (r.low.any fun k => BytewiseComparator.compare f.smallest.user_key k < 0) = true := by
      rw [any_iff]
      rintro ⟨k, hk, hlt⟩
      exact absurd (BytewiseComparator.compare_lt.mp hlt) (not_lt.mpr (hlow k hk))
    have hlimit : ¬ (r.high.any fun k => BytewiseComparator.compare f.largest.user_key k > 0) = true := by
      rw [any_iff]
      rintro ⟨k, hk, hlt⟩
      exact absurd (BytewiseComparator.compare_gt.mp hlt) (not_lt.mpr (hhigh k hk))
    rw [if_pos hlevel, if_neg hstart, if_neg hlimit]
  · rw [if_neg hlevel]

theorem overlapPass_draw (files inputs : List FileMetaData) {f : FileMetaData} (h : r.Meets f)
    (hcovers : ¬ r.Covers f) :
    ∃ ends, overlapPass 0 r.low r.high (f :: files) inputs = .inr ends ∧ Drawn r (f :: files) ends := by
  rw [overlapPass]
  rw [if_neg h.low_false, if_neg h.high_false, if_pos rfl]
  by_cases hstart : (r.low.any fun k => BytewiseComparator.compare f.smallest.user_key k < 0) = true
  · obtain ⟨k, hk, hlt⟩ := any_iff.mp hstart
    rw [if_pos hstart]
    exact ⟨_, rfl, .low f k (by simp) h hk (BytewiseComparator.compare_lt.mp hlt)⟩
  · have hlow : ∀ k ∈ r.low, k ≤ f.smallest.user_key := fun k hk => by
      by_contra hlt
      exact hstart (any_iff.mpr ⟨k, hk, BytewiseComparator.compare_lt.mpr (not_le.mp hlt)⟩)
    have hhigh : ¬ ∀ k ∈ r.high, f.largest.user_key ≤ k := fun hhigh => hcovers ⟨hlow, hhigh⟩
    push Not at hhigh
    obtain ⟨k, hk, hlt⟩ := hhigh
    have hlimit : (r.high.any fun k => BytewiseComparator.compare f.largest.user_key k > 0) = true :=
      any_iff.mpr ⟨k, hk, BytewiseComparator.compare_gt.mpr hlt⟩
    rw [if_neg hstart, if_pos hlimit]
    exact ⟨_, rfl, .high f k (by simp) h hk hlt⟩

theorem overlapPass_spec (level : ℕ) (r : Span) (files inputs : List FileMetaData) :
    (∃ ends, overlapPass level r.low r.high files inputs = .inr ends ∧ level = 0 ∧ Drawn r files ends) ∨
      overlapPass level r.low r.high files inputs = .inl (inputs ++ files.filter fun f => r.Meets f) ∧
        (level = 0 → ∀ f ∈ files, r.Meets f → r.Covers f) := by
  induction files generalizing inputs with
  | nil => exact .inr ⟨by simp [overlapPass], by simp⟩
  | cons f files ih =>
    by_cases hmeets : r.Meets f
    · by_cases hcovers : level = 0 → r.Covers f
      · rw [overlapPass_take hmeets hcovers]
        rcases ih (inputs ++ [f]) with ⟨ends, hends, hzero, hdrawn⟩ | ⟨hall, hrest⟩
        · exact .inl ⟨ends, hends, hzero, hdrawn.mono (List.subset_cons_self f files)⟩
        · refine .inr ⟨by simp [hall, hmeets], fun hzero => ?_⟩
          exact List.forall_mem_cons.mpr ⟨fun _ => hcovers hzero, hrest hzero⟩
      · obtain ⟨hzero, hsticks⟩ := Classical.not_imp.mp hcovers
        obtain ⟨ends, hends, hdrawn⟩ := overlapPass_draw files inputs hmeets hsticks
        exact .inl ⟨ends, hzero ▸ hends, hzero, hdrawn⟩
    · rw [overlapPass_skip hmeets]
      rcases ih inputs with ⟨ends, hends, hzero, hdrawn⟩ | ⟨hall, hrest⟩
      · exact .inl ⟨ends, hends, hzero, hdrawn.mono (List.subset_cons_self f files)⟩
      · refine .inr ⟨by simp [hall, hmeets], fun hzero => ?_⟩
        exact List.forall_mem_cons.mpr ⟨fun h => absurd h hmeets, hrest hzero⟩

end

variable {level : ℕ} {r : Span} {files : List FileMetaData}

def Avoids (a c : Bytes) (f : FileMetaData) : Prop := f.largest.user_key < a ∨ c < f.smallest.user_key

def Chained (files given : List FileMetaData) (r : Span) : Prop :=
  ∀ a c, a ≤ c → (∀ f ∈ files, r.Meets f → Avoids a c f) → (∀ f ∈ given, Avoids a c f) →
    (∃ k ∈ r.high, k < a) ∨ ∃ k ∈ r.low, c < k

theorem Drawn.widens {ends : Option Bytes × Option Bytes} (h : Drawn r files ends) :
    r.Widens ⟨ends.1, ends.2⟩ := by
  cases h with
  | low f k hf hmeets hk hlt =>
    refine ⟨fun k' hk' => ⟨k, hk, ?_⟩, fun k' hk' => ⟨k', hk', le_rfl⟩⟩
    obtain rfl : f.smallest.user_key = k' := Option.mem_some.mp hk'
    exact hlt.le
  | high f k hf hmeets hk hlt =>
    refine ⟨fun k' hk' => ⟨k', hk', le_rfl⟩, fun k' hk' => ⟨k, hk, ?_⟩⟩
    obtain rfl : f.largest.user_key = k' := Option.mem_some.mp hk'
    exact hlt.le

theorem Drawn.outside_lt {ends : Option Bytes × Option Bytes} (h : Drawn r files ends) :
    Span.outside ⟨ends.1, ends.2⟩ files < r.outside files := by
  cases h with
  | low f k hf hmeets hk hlt => exact Span.outside_low hk hf hlt
  | high f k hf hmeets hk hlt => exact Span.outside_high hk hf hlt

theorem Drawn.chained {ends : Option Bytes × Option Bytes} {given : List FileMetaData}
    (h : Drawn r files ends) (hc : Chained files given r) : Chained files given ⟨ends.1, ends.2⟩ := by
  intro a c hac hfiles hgiven
  have hwide := h.widens
  have hold := hc a c hac (fun f hf hmeets => hfiles f hf (hwide.meets hmeets)) hgiven
  cases h with
  | low f k hf hmeets hk hlt =>
    rcases hold with hhigh | ⟨k', hk', hlow⟩
    · exact .inl hhigh
    · rcases hfiles f hf (hwide.meets hmeets) with hleft | hright
      · have hle := hmeets.1 k' hk'
        exact absurd (((hle.trans_lt hleft).trans_le hac).trans hlow) (lt_irrefl _)
      · exact .inr ⟨_, rfl, hright⟩
  | high f k hf hmeets hk hlt =>
    rcases hold with ⟨k', hk', hhigh⟩ | hlow
    · rcases hfiles f hf (hwide.meets hmeets) with hleft | hright
      · exact .inl ⟨_, rfl, hleft⟩
      · have hle := hmeets.2 k' hk'
        exact absurd (((hle.trans_lt hhigh).trans_le hac).trans hright) (lt_irrefl _)
    · exact .inr hlow

structure Settled (level : ℕ) (files : List FileMetaData) (r r' : Span) : Prop where
  widens : r.Widens r'
  covers : level = 0 → ∀ f ∈ files, r'.Meets f → r'.Covers f
  same : level ≠ 0 → r' = r
  chained : ∀ given, Chained files given r → Chained files given r'

theorem overlapLoop_spec {fuel : ℕ} (hfuel : r.outside files < fuel) :
    ∃ r', Settled level files r r' ∧
      overlapLoop files level fuel r.low r.high = files.filter fun f => r'.Meets f := by
  induction fuel generalizing r with
  | zero => omega
  | succ fuel ih =>
    rw [overlapLoop]
    rcases overlapPass_spec level r files [] with
      ⟨ends, hends, hzero, hdrawn⟩ | ⟨hall, hcovers⟩
    · obtain ⟨r', hsettled, hloop⟩ := ih (r := ⟨ends.1, ends.2⟩) (by
        have hlt := hdrawn.outside_lt
        omega)
      refine ⟨r', ⟨hdrawn.widens.trans hsettled.widens, hsettled.covers, fun hne => absurd hzero hne,
        fun given hc => hsettled.chained given (hdrawn.chained hc)⟩, ?_⟩
      rw [hends]
      exact hloop
    · refine ⟨r, ⟨.refl r, hcovers, fun _ => rfl, fun _ hc => hc⟩, ?_⟩
      rw [hall, List.nil_append]

variable {v : Version}

def Span.ofKeys (begin_ end_ : Option InternalKey) : Span :=
  ⟨begin_.map InternalKey.user_key, end_.map InternalKey.user_key⟩

theorem Version.getOverlappingInputs_spec (v : Version) (level : ℕ) (begin_ end_ : Option InternalKey) :
    ∃ r', Settled level (v level) (Span.ofKeys begin_ end_) r' ∧
      v.getOverlappingInputs level begin_ end_ = (v level).filter fun f => r'.Meets f := by
  refine overlapLoop_spec (r := Span.ofKeys begin_ end_) ?_
  have hle := Span.outside_le (r := Span.ofKeys begin_ end_) (v level)
  omega

theorem Version.mem_overlapping (hlevel : level ≠ 0) {begin_ end_ : Option InternalKey} {f : FileMetaData} :
    f ∈ v.getOverlappingInputs level begin_ end_ ↔ f ∈ v level ∧ (Span.ofKeys begin_ end_).Meets f := by
  obtain ⟨r', hsettled, heq⟩ := v.getOverlappingInputs_spec level begin_ end_
  rw [heq, hsettled.same hlevel, List.mem_filter, decide_eq_true_eq]

theorem Version.overlapping_of_meets {begin_ end_ : Option InternalKey} {f : FileMetaData}
    (hf : f ∈ v level) (hmeets : (Span.ofKeys begin_ end_).Meets f) :
    f ∈ v.getOverlappingInputs level begin_ end_ := by
  obtain ⟨r', hsettled, heq⟩ := v.getOverlappingInputs_spec level begin_ end_
  rw [heq, List.mem_filter, decide_eq_true_eq]
  exact ⟨hf, hsettled.widens.meets hmeets⟩

theorem Version.overlapping_apart {begin_ end_ : Option InternalKey} {f g : FileMetaData} (hf : f ∈ v 0)
    (hout : f ∉ v.getOverlappingInputs 0 begin_ end_) (hg : g ∈ v.getOverlappingInputs 0 begin_ end_) :
    f.Before g ∨ g.Before f := by
  obtain ⟨r', hsettled, heq⟩ := v.getOverlappingInputs_spec 0 begin_ end_
  rw [heq, List.mem_filter, decide_eq_true_eq] at hout hg
  exact Span.apart (fun h => hout ⟨hf, h⟩) (hsettled.covers rfl g hg.1 hg.2)

def Contiguous (files : List FileMetaData) : Prop :=
  ∀ a c, a ≤ c → (∀ f ∈ files, Avoids a c f) →
    (∀ f ∈ files, f.largest.user_key < a) ∨ ∀ f ∈ files, c < f.smallest.user_key

structure Ranges (files : List FileMetaData) (range : InternalKey × InternalKey) : Prop where
  bounds : ∀ f ∈ files, range.1 ≤ f.smallest ∧ f.largest ≤ range.2
  low : ∃ f ∈ files, f.smallest = range.1
  high : ∃ f ∈ files, f.largest = range.2

theorem ranges_foldl (given : List FileMetaData) {range : InternalKey × InternalKey}
    (h : Ranges given range) : Ranges (given ++ files) (files.foldl
      (fun r g => (if g.smallest < r.1 then g.smallest else r.1, if r.2 < g.largest then g.largest else r.2))
      range) := by
  induction files generalizing given range with
  | nil => rwa [List.append_nil]
  | cons f files ih =>
    rw [List.foldl_cons, List.append_cons, ← min_def_lt, ← max_def_lt]
    refine ih (given ++ [f]) ⟨fun g hg => ?_, ?_, ?_⟩
    · rcases List.mem_append.mp hg with hg | hg
      · obtain ⟨hlow, hhigh⟩ := h.bounds g hg
        exact ⟨(min_le_right _ _).trans hlow, hhigh.trans (le_max_left _ _)⟩
      · obtain rfl := List.mem_singleton.mp hg
        exact ⟨min_le_left _ _, le_max_right _ _⟩
    · obtain ⟨g, hg, heq⟩ := h.low
      rcases min_choice f.smallest range.1 with hmin | hmin
      · exact ⟨f, by simp, hmin.symm⟩
      · exact ⟨g, List.mem_append_left _ hg, heq.trans hmin.symm⟩
    · obtain ⟨g, hg, heq⟩ := h.high
      rcases max_choice range.2 f.largest with hmax | hmax
      · exact ⟨g, List.mem_append_left _ hg, heq.trans hmax.symm⟩
      · exact ⟨f, by simp, hmax.symm⟩

theorem getRange_spec {range : InternalKey × InternalKey} (h : getRange files = some range) :
    Ranges files range := by
  cases files with
  | nil => simp [getRange] at h
  | cons f files =>
    obtain rfl := Option.some.inj h
    refine ranges_foldl [f] ⟨fun g hg => ?_, ⟨f, by simp, rfl⟩, ⟨f, by simp, rfl⟩⟩
    obtain rfl := List.mem_singleton.mp hg
    exact ⟨le_rfl, le_rfl⟩

theorem Ranges.meets {range : InternalKey × InternalKey} (h : Ranges files range) {f : FileMetaData}
    (hf : f ∈ files) : (Span.ofKeys (some range.1) (some range.2)).Meets f := by
  obtain ⟨hlow, hhigh⟩ := h.bounds f hf
  have hsize := f.smallest_le_largest
  constructor
  · intro k hk
    obtain rfl : range.1.user_key = k := Option.some.inj hk
    exact InternalKey.user_key_mono (hlow.trans hsize)
  · intro k hk
    obtain rfl : range.2.user_key = k := Option.some.inj hk
    exact InternalKey.user_key_mono (hsize.trans hhigh)

theorem meets_ofKeys {range : InternalKey × InternalKey} {f : FileMetaData} :
    (Span.ofKeys (some range.1) (some range.2)).Meets f ↔
      range.1.user_key ≤ f.largest.user_key ∧ f.smallest.user_key ≤ range.2.user_key := by
  simp [Span.Meets, Span.ofKeys]

theorem exists_range (files : List FileMetaData) (h : files ≠ []) : ∃ range, getRange files = some range := by
  cases files with
  | nil => exact absurd rfl h
  | cons f files => exact ⟨_, rfl⟩

theorem Ranges.mono {files' : List FileMetaData} {range range' : InternalKey × InternalKey}
    (h : Ranges files range) (h' : Ranges files' range') (hsub : files ⊆ files') :
    range'.1 ≤ range.1 ∧ range.2 ≤ range'.2 := by
  obtain ⟨first, hfirst, hlow⟩ := h.low
  obtain ⟨last, hlast, hhigh⟩ := h.high
  exact ⟨hlow ▸ (h'.bounds first (hsub hfirst)).1, hhigh ▸ (h'.bounds last (hsub hlast)).2⟩

theorem meets_mono {range range' : InternalKey × InternalKey} {f : FileMetaData}
    (h : range'.1 ≤ range.1 ∧ range.2 ≤ range'.2)
    (hf : (Span.ofKeys (some range.1) (some range.2)).Meets f) :
    (Span.ofKeys (some range'.1) (some range'.2)).Meets f := by
  rw [meets_ofKeys] at hf ⊢
  exact ⟨(InternalKey.user_key_mono h.1).trans hf.1, hf.2.trans (InternalKey.user_key_mono h.2)⟩

theorem contiguous_single (f : FileMetaData) : Contiguous [f] := by
  intro a c _ h
  simpa [Avoids] using h f (by simp)

theorem Contiguous.append (more : List FileMetaData) {given : List FileMetaData} {range : InternalKey × InternalKey}
    (h : Contiguous given) (hrange : Ranges given range)
    (hmore : ∀ f ∈ more, (Span.ofKeys (some range.1) (some range.2)).Meets f) :
    Contiguous (given ++ more) := by
  intro a c hac hall
  rcases h a c hac fun f hf => hall f (List.mem_append_left _ hf) with hleft | hright
  · refine .inl fun f hf => ?_
    rcases List.mem_append.mp hf with hgiven | hf'
    · exact hleft f hgiven
    · obtain ⟨last, hlast, hhigh⟩ := hrange.high
      have hstart := (meets_ofKeys.mp (hmore f hf')).2
      rw [← hhigh] at hstart
      rcases hall f hf with hlt | hlt
      · exact hlt
      · exact absurd (((hlt.trans_le hstart).trans (hleft last hlast)).trans_le hac) (lt_irrefl _)
  · refine .inr fun f hf => ?_
    rcases List.mem_append.mp hf with hgiven | hf'
    · exact hright f hgiven
    · obtain ⟨first, hfirst, hlow⟩ := hrange.low
      have hlimit := (meets_ofKeys.mp (hmore f hf')).1
      rw [← hlow] at hlimit
      rcases hall f hf with hlt | hlt
      · exact absurd (((hlimit.trans_lt hlt).trans_le hac).trans (hright first hfirst)) (lt_irrefl _)
      · exact hlt

theorem Contiguous.overlapping (v : Version) (level : ℕ) {given : List FileMetaData}
    {range : InternalKey × InternalKey} (h : Contiguous given) (hrange : Ranges given range) :
    Contiguous (given ++ v.getOverlappingInputs level (some range.1) (some range.2)) := by
  obtain ⟨r', hsettled, heq⟩ := v.getOverlappingInputs_spec level (some range.1) (some range.2)
  have hchain : Chained (v level) given (Span.ofKeys (some range.1) (some range.2)) := by
    intro a c hac _ hgiven
    rcases h a c hac hgiven with hleft | hright
    · obtain ⟨f, hf, hlast⟩ := hrange.high
      exact .inl ⟨_, rfl, hlast ▸ hleft f hf⟩
    · obtain ⟨f, hf, hfirst⟩ := hrange.low
      exact .inr ⟨_, rfl, hfirst ▸ hright f hf⟩
  intro a c hac hall
  have hfiles (f : FileMetaData) (hf : f ∈ v level) (hmeets : r'.Meets f) : Avoids a c f := by
    refine hall f (List.mem_append_right _ ?_)
    rw [heq, List.mem_filter, decide_eq_true_eq]
    exact ⟨hf, hmeets⟩
  rcases hsettled.chained given hchain a c hac hfiles fun f hf => hall f (List.mem_append_left _ hf) with
    ⟨k', hk', hlt⟩ | ⟨k', hk', hlt⟩
  · refine .inl fun f hf => ?_
    have hstart : f.smallest.user_key ≤ k' := by
      rcases List.mem_append.mp hf with hf | hf
      · exact (hsettled.widens.meets (hrange.meets hf)).2 k' hk'
      · rw [heq, List.mem_filter, decide_eq_true_eq] at hf
        exact hf.2.2 k' hk'
    rcases hall f hf with hleft | hright
    · exact hleft
    · exact absurd (((hright.trans_le hstart).trans hlt).trans_le hac) (lt_irrefl _)
  · refine .inr fun f hf => ?_
    have hlimit : k' ≤ f.largest.user_key := by
      rcases List.mem_append.mp hf with hf | hf
      · exact (hsettled.widens.meets (hrange.meets hf)).1 k' hk'
      · rw [heq, List.mem_filter, decide_eq_true_eq] at hf
        exact hf.2.1 k' hk'
    rcases hall f hf with hleft | hright
    · exact absurd (((hlimit.trans_lt hleft).trans_le hac).trans hlt) (lt_irrefl _)
    · exact hright

theorem Contiguous.congr {files' : List FileMetaData} (h : Contiguous files)
    (hmem : ∀ f, f ∈ files ↔ f ∈ files') : Contiguous files' := by
  intro a c hac hall
  rcases h a c hac fun f hf => hall f ((hmem f).mp hf) with hleft | hright
  · exact .inl fun f hf => hleft f ((hmem f).mpr hf)
  · exact .inr fun f hf => hright f ((hmem f).mpr hf)

namespace Compaction

structure Ready (v : Version) (c : Compaction) : Prop where
  version : c.input_version = v
  bottom : c.level + 1 < kNumLevels
  nonempty : c.inputs0 ≠ []
  sub0 : c.inputs0.Sublist (v c.level)
  sub1 : c.inputs1.Sublist (v (c.level + 1))
  apart0 : c.level = 0 → ∀ f ∈ v 0, f ∉ c.inputs0 → ∀ g ∈ c.inputs0, f.Before g ∨ g.Before f
  apart1 : ∀ f ∈ v (c.level + 1), f ∉ c.inputs1 →
    (∀ g ∈ c.inputs0, f.Before g) ∨ ∀ g ∈ c.inputs0, g.Before f
  meets1 : ∀ h ∈ c.inputs1, (∃ g ∈ c.inputs0, ¬ h.Before g) ∧ ∃ g ∈ c.inputs0, ¬ g.Before h

def inputs (c : Compaction) : List FileMetaData := c.inputs0 ++ c.inputs1

end Compaction

structure Start (v : Version) (level : ℕ) (inputs0 : List FileMetaData) : Prop where
  nonempty : inputs0 ≠ []
  sub : inputs0.Sublist (v level)
  apart : level = 0 → ∀ f ∈ v 0, f ∉ inputs0 → ∀ g ∈ inputs0, f.Before g ∨ g.Before f

theorem Version.overlapping_sublist {begin_ end_ : Option InternalKey} :
    (v.getOverlappingInputs level begin_ end_).Sublist (v level) := by
  obtain ⟨r', -, heq⟩ := v.getOverlappingInputs_spec level begin_ end_
  exact heq ▸ List.filter_sublist

theorem start_overlapping {begin_ end_ : Option InternalKey}
    (h : v.getOverlappingInputs level begin_ end_ ≠ []) :
    Start v level (v.getOverlappingInputs level begin_ end_) := by
  refine ⟨h, Version.overlapping_sublist, ?_⟩
  rintro rfl f hf hout g hg
  exact Version.overlapping_apart hf hout hg

theorem ready_of_start {inputs0 : List FileMetaData} {range : InternalKey × InternalKey}
    {grandparents : List FileMetaData} {edit : VersionEdit} (h : Start v level inputs0)
    (hbottom : level + 1 < kNumLevels) (hrange : Ranges inputs0 range) :
    Compaction.Ready v ⟨level, v, inputs0,
      v.getOverlappingInputs (level + 1) (some range.1) (some range.2), grandparents, edit⟩ := by
  obtain ⟨first, hfirst, hlow⟩ := hrange.low
  obtain ⟨last, hlast, hhigh⟩ := hrange.high
  refine ⟨rfl, hbottom, h.nonempty, h.sub, Version.overlapping_sublist, h.apart, fun f hf hout => ?_,
    fun f hf => ?_⟩
  · rw [Version.mem_overlapping (Nat.succ_ne_zero level), not_and, meets_ofKeys] at hout
    rcases not_and_or.mp (hout hf) with hlt | hlt
    · refine .inl fun g hg => (not_le.mp hlt).trans_le ?_
      exact InternalKey.user_key_mono (hrange.bounds g hg).1
    · refine .inr fun g hg => lt_of_le_of_lt ?_ (not_le.mp hlt)
      exact InternalKey.user_key_mono (hrange.bounds g hg).2
  · rw [Version.mem_overlapping (Nat.succ_ne_zero level), meets_ofKeys] at hf
    exact ⟨⟨first, hfirst, not_lt.mpr (hlow ▸ hf.2.1)⟩, ⟨last, hlast, not_lt.mpr (hhigh ▸ hf.2.2)⟩⟩

namespace Version
variable {small large : Bytes}

theorem le_earliest {k : InternalKey} (ht : k.parse ≠ none) : ¬ k < InternalKey.earliest k.user_key := by
  obtain ⟨p, hp⟩ := Option.ne_none_iff_exists'.mp ht
  rw [InternalKey.lt_iff]
  rintro (hlt | ⟨-, hlt⟩)
  · exact absurd hlt (lt_irrefl _)
  · have htag := (InternalKey.parse_some hp).2
    have hpack := InternalKey.pack_toNat (UInt64.le_refl kMaxSequence) kValueTypeForSeek
    have hmax : kMaxSequence.toNat = 2 ^ 56 - 1 := by decide
    have hseek : kValueTypeForSeek.toUInt64.toNat = 1 := by decide
    have hbound := k.tag.toNat_lt
    have htype : p.type.toUInt64.toNat ≤ 1 := by cases p.type <;> decide
    have hmore := UInt64.lt_iff_toNat_lt.mp hlt
    change (packSequenceAndType kMaxSequence kValueTypeForSeek).toNat < k.tag.toNat at hmore
    omega

theorem someFileOverlapsRange_false (h : v.Sound)
    (hnone : v.overlapInLevel level small large = false) : ∀ f ∈ v level, Avoids small large f := by
  rw [overlapInLevel, someFileOverlapsRange] at hnone
  by_cases hlevel : 0 < level
  · have hsorted := h.sorted level hlevel
    rw [if_pos (by simpa using hlevel)] at hnone
    dsimp only at hnone
    rw [findFile_getElem? hsorted] at hnone
    have hbefore {f : FileMetaData} (hf : f ∈ v level) (hlt : f.largest < InternalKey.earliest small) :
        f.largest.user_key < small := by
      refine lt_of_le_of_ne (InternalKey.user_key_mono hlt.le) ?_
      rintro rfl
      obtain ⟨w, hw⟩ := f.largest_mem
      exact le_earliest (h.typed level f hf _ hw) hlt
    cases hfind : (v level).find? fun f => ¬ f.largest < InternalKey.earliest small with
    | none => exact fun f hf => .inl (hbefore hf (by simpa using List.find?_eq_none.mp hfind f hf))
    | some g =>
      rw [hfind] at hnone
      obtain ⟨-, before, after, hsplit, hpassed⟩ := List.find?_eq_some_iff_append.mp hfind
      have hlarge : large < g.smallest.user_key := by
        simpa [beforeFile, BytewiseComparator.compare_lt] using hnone
      rw [hsplit] at hsorted
      have hnext := (List.pairwise_cons.mp (List.pairwise_append.mp hsorted).2.1).1
      intro f hf
      rw [hsplit] at hf
      rcases List.mem_append.mp hf with hf | hf
      · exact .inl (hbefore (hsplit ▸ List.mem_append_left _ hf) (by simpa using hpassed f hf))
      · rcases List.mem_cons.mp hf with rfl | hf
        · exact .inr hlarge
        · have hle := g.smallest_le_largest.trans (hnext f hf).le
          exact .inr (hlarge.trans_le (InternalKey.user_key_mono hle))
  · rw [if_neg (by simpa using hlevel), List.any_eq_false] at hnone
    intro f hf
    have hout := hnone f hf
    simp only [afterFile, beforeFile, Option.any_some, gt_iff_lt, Bool.not_eq_true', Bool.or_eq_false_iff,
      decide_eq_false_iff_not, BytewiseComparator.compare_gt, BytewiseComparator.compare_lt] at hout
    by_contra hmeets
    rw [Avoids, not_or] at hmeets
    exact hout ⟨hmeets.1, hmeets.2⟩

theorem pickLevelLoop_spec (o : DBOptions) (h : v.Sound) (small large : Bytes) (fuel level : ℕ)
    (hbelow : ∀ j ≤ level, ∀ f ∈ v j, Avoids small large f) (hlevel : level ≤ kMaxMemCompactLevel) :
    pickLevelLoop o v small large fuel level ≤ kMaxMemCompactLevel ∧
      ∀ j ≤ pickLevelLoop o v small large fuel level, ∀ f ∈ v j, Avoids small large f := by
  induction fuel generalizing level with
  | zero => exact ⟨hlevel, hbelow⟩
  | succ fuel ih =>
    rw [pickLevelLoop]
    by_cases hlt : level < kMaxMemCompactLevel
    · rw [if_pos hlt]
      cases hnext : v.overlapInLevel (level + 1) small large with
      | true => exact ⟨hlevel, hbelow⟩
      | false =>
        rw [if_neg Bool.false_ne_true]
        dsimp only
        by_cases hfull : level + 2 < kNumLevels ∧ o.maxGrandParentOverlapBytes < totalFileSize
            (v.getOverlappingInputs (level + 2) (some (InternalKey.earliest small))
              (some (InternalKey.ofParsed ⟨large, 0, .kTypeDeletion⟩)))
        · rw [if_pos hfull]
          exact ⟨hlevel, hbelow⟩
        · rw [if_neg hfull]
          refine ih (level + 1) (fun j hj => ?_) hlt
          rcases hj.lt_or_eq with hj | rfl
          · exact hbelow j (Nat.lt_succ_iff.mp hj)
          · exact someFileOverlapsRange_false h hnext
    · rw [if_neg hlt]
      exact ⟨hlevel, hbelow⟩

theorem pickLevel_spec (o : DBOptions) (h : v.Sound) (small large : Bytes) :
    v.pickLevelForMemTableOutput o small large ≤ kMaxMemCompactLevel ∧
      (v.pickLevelForMemTableOutput o small large ≠ 0 →
        ∀ j ≤ v.pickLevelForMemTableOutput o small large, ∀ f ∈ v j, Avoids small large f) := by
  rw [pickLevelForMemTableOutput]
  cases hzero : v.overlapInLevel 0 small large with
  | true => exact ⟨Nat.zero_le _, fun hne => absurd rfl hne⟩
  | false =>
    rw [if_neg Bool.false_ne_true]
    have hloop := pickLevelLoop_spec o h small large kMaxMemCompactLevel 0 (fun j hj => ?_) (Nat.zero_le _)
    · exact ⟨hloop.1, fun _ => hloop.2⟩
    · obtain rfl := Nat.le_zero.mp hj
      exact someFileOverlapsRange_false h hzero

end Version

namespace VersionSet
variable {o : DBOptions} {s s' : VersionSet} {c : Compaction}

def Fits (s : VersionSet) (level : ℕ) (inputs : List FileMetaData × List FileMetaData) : Prop :=
  ∃ range, Ranges inputs.1 range ∧
    inputs.2 = s.current.getOverlappingInputs (level + 1) (some range.1) (some range.2)

theorem expand_spec {inputs0 inputs1 : List FileMetaData} {all : InternalKey × InternalKey}
    {expanded : List FileMetaData × List FileMetaData}
    (h : s.expand o level inputs0 inputs1 all.1 all.2 = some expanded) :
    expanded.1 = s.current.getOverlappingInputs level (some all.1) (some all.2) ∧
      s.Fits level expanded := by
  rw [expand] at h
  dsimp only at h
  split_ifs at h with hgrow
  obtain ⟨new, hnew, h⟩ := Option.bind_eq_some_iff.mp h
  split_ifs at h with hsame
  obtain rfl := Option.some.inj h
  exact ⟨rfl, new, getRange_spec hnew, rfl⟩

theorem expand_contiguous {inputs0 inputs1 : List FileMetaData} {range all : InternalKey × InternalKey}
    {expanded : List FileMetaData × List FileMetaData} (hsub : inputs0 ⊆ s.current level)
    (hrange : Ranges inputs0 range)
    (hinputs1 : inputs1 = s.current.getOverlappingInputs (level + 1) (some range.1) (some range.2))
    (hall : Ranges (inputs0 ++ inputs1) all) (h : s.expand o level inputs0 inputs1 all.1 all.2 = some expanded)
    (hc : Contiguous (inputs0 ++ inputs1)) : Contiguous (expanded.1 ++ expanded.2) := by
  obtain ⟨hexpanded, range', hrange', hsecond⟩ := expand_spec h
  have hsub0 : inputs0 ⊆ expanded.1 := by
    rw [hexpanded]
    exact fun f hf => Version.overlapping_of_meets (hsub hf) (hall.meets (List.mem_append_left _ hf))
  have hsub1 : inputs1 ⊆ expanded.2 := by
    rw [hsecond, hinputs1]
    intro f hf
    rw [Version.mem_overlapping (Nat.succ_ne_zero level)] at hf ⊢
    exact ⟨hf.1, meets_mono (hrange.mono hrange' hsub0) hf.2⟩
  have hfirst := hc.overlapping s.current level hall
  rw [← hexpanded] at hfirst
  obtain ⟨all', hget⟩ := exists_range (inputs0 ++ inputs1 ++ expanded.1) (by
    obtain ⟨f, hf, -⟩ := hrange'.low
    exact List.ne_nil_of_mem (List.mem_append_right _ hf))
  have hall' := getRange_spec hget
  refine (hfirst.append expanded.2 hall' fun f hf => ?_).congr fun f => ?_
  · rw [hsecond, Version.mem_overlapping (Nat.succ_ne_zero level)] at hf
    exact meets_mono (hrange'.mono hall' (List.subset_append_right _ _)) hf.2
  · simp only [List.mem_append]
    constructor
    · rintro (((hf | hf) | hf) | hf)
      · exact .inl (hsub0 hf)
      · exact .inr (hsub1 hf)
      · exact .inl hf
      · exact .inr hf
    · rintro (hf | hf)
      · exact .inl (.inr hf)
      · exact .inr hf

theorem setupOtherInputs_spec {inputs0 : List FileMetaData} (hstart : Start s.current level inputs0)
    (hbottom : level + 1 < kNumLevels) (h : s.setupOtherInputs o level inputs0 = some (c, s')) :
    Compaction.Ready s.current c ∧ c.level = level ∧
      c.edit.deleted_files = [] ∧ c.edit.new_files = [] ∧
      s'.current = s.current ∧ s'.next_file_number = s.next_file_number ∧
      s'.last_sequence = s.last_sequence ∧ (Contiguous inputs0 → Contiguous c.inputs) := by
  rw [setupOtherInputs] at h
  obtain ⟨range, hrange, h⟩ := Option.bind_eq_some_iff.mp h
  obtain ⟨all, hall, h⟩ := Option.bind_eq_some_iff.mp h
  obtain ⟨range', hrange', h⟩ := Option.bind_eq_some_iff.mp h
  obtain ⟨all', hall', h⟩ := Option.map_eq_some_iff.mp h
  obtain ⟨rfl, rfl⟩ := Prod.mk.inj h
  replace hrange := getRange_spec hrange
  replace hall := getRange_spec hall
  have hcontiguous := fun hc : Contiguous inputs0 => hc.append
    (s.current.getOverlappingInputs (level + 1) (some range.1) (some range.2)) hrange fun f hf =>
      ((Version.mem_overlapping (Nat.succ_ne_zero level)).mp hf).2
  dsimp only at hrange' hall' ⊢
  cases hexpand : s.expand o level inputs0
      (s.current.getOverlappingInputs (level + 1) (some range.1) (some range.2)) all.1 all.2 with
  | none =>
    refine ⟨?_, rfl, rfl, rfl, rfl, rfl, rfl, hcontiguous⟩
    exact ready_of_start hstart hbottom hrange
  | some expanded =>
    obtain ⟨hexpanded, range'', hrange'', hsecond⟩ := expand_spec hexpand
    obtain ⟨first, second⟩ := expanded
    dsimp only at hexpanded hrange'' hsecond
    refine ⟨?_, rfl, rfl, rfl, rfl, rfl, rfl, fun hc => ?_⟩
    · have hne : first ≠ [] := by
        obtain ⟨f, hf, -⟩ := hrange''.low
        exact List.ne_nil_of_mem hf
      subst hexpanded hsecond
      exact ready_of_start (start_overlapping hne) hbottom hrange''
    · exact expand_contiguous hstart.sub.subset hrange rfl hall hexpand (hcontiguous hc)

theorem pickUp_spec {f : FileMetaData} (hf : f ∈ s.current level) :
    Start s.current level (s.pickUp level f) ∧ Contiguous (s.pickUp level f) := by
  rw [pickUp]
  split_ifs with hlevel
  · subst hlevel
    have hself : Ranges [f] (f.smallest, f.largest) :=
      getRange_spec rfl
    have hin : f ∈ s.current.getOverlappingInputs 0 (some f.smallest) (some f.largest) :=
      Version.overlapping_of_meets hf (hself.meets (by simp))
    refine ⟨start_overlapping (List.ne_nil_of_mem hin), ?_⟩
    refine ((contiguous_single f).overlapping s.current 0 hself).congr fun g => ?_
    rw [List.mem_append, List.mem_singleton, or_iff_right_iff_imp]
    exact fun hg => hg ▸ hin
  · refine ⟨⟨List.cons_ne_nil f [], List.singleton_sublist.mpr hf, fun h => absurd h hlevel⟩, ?_⟩
    exact contiguous_single f

theorem prefix_of_within (limit total : ℕ) (files : List FileMetaData) : within limit total files <+: files := by
  induction files generalizing total with
  | nil => exact List.prefix_rfl
  | cons f files ih =>
    rw [within]
    split_ifs with hfull
    · exact ⟨files, rfl⟩
    · exact List.cons_prefix_cons.mpr ⟨rfl, ih _⟩

theorem startInputs_spec {trigger : Trigger} {start : ℕ × List FileMetaData}
    (h : s.startInputs o trigger = some start) :
    Start s.current start.1 start.2 ∧ (trigger.automatic = true → Contiguous start.2) := by
  cases trigger with
  | size level =>
    obtain ⟨f, hf, rfl⟩ := Option.map_eq_some_iff.mp h
    have hmem : f ∈ s.current level := by
      rcases Option.or_eq_some_iff.mp hf with hf | ⟨-, hf⟩
      · exact List.mem_of_find?_eq_some hf
      · exact List.mem_of_mem_head? hf
    exact ⟨(pickUp_spec hmem).1, fun _ => (pickUp_spec hmem).2⟩
  | seek level number =>
    obtain ⟨f, hf, rfl⟩ := Option.map_eq_some_iff.mp h
    have hmem := List.mem_of_find?_eq_some hf
    exact ⟨(pickUp_spec hmem).1, fun _ => (pickUp_spec hmem).2⟩
  | manual level begin_ end_ =>
    rw [startInputs] at h
    by_cases hnil : s.current.getOverlappingInputs level begin_ end_ = []
    · simp [hnil] at h
    · rw [if_neg hnil] at h
      obtain rfl := Option.some.inj h
      refine ⟨?_, fun h => absurd h Bool.false_ne_true⟩
      by_cases hlevel : 0 < level
      · rw [if_pos hlevel]
        refine ⟨?_, (prefix_of_within _ _ _).sublist.trans Version.overlapping_sublist,
          fun hzero => absurd hzero hlevel.ne'⟩
        cases hlist : s.current.getOverlappingInputs level begin_ end_ with
        | nil => exact absurd hlist hnil
        | cons f files =>
          rw [within]
          split_ifs <;> simp
      · rw [if_neg hlevel]
        exact start_overlapping hnil

theorem pickCompaction_spec {trigger : Trigger} (h : s.pickCompaction o trigger = some (c, s')) :
    Compaction.Ready s.current c ∧ c.edit.deleted_files = [] ∧ c.edit.new_files = [] ∧
      s'.current = s.current ∧ s'.next_file_number = s.next_file_number ∧
      s'.last_sequence = s.last_sequence ∧ (trigger.automatic = true → Contiguous c.inputs) := by
  obtain ⟨start, hstart, h⟩ := Option.bind_eq_some_iff.mp h
  split_ifs at h with hbottom
  obtain ⟨hfit, hauto⟩ := startInputs_spec hstart
  obtain ⟨hready, -, hdeleted, hnew, hcurrent, hnext, hlast, hcont⟩ := setupOtherInputs_spec hfit hbottom h
  exact ⟨hready, hdeleted, hnew, hcurrent, hnext, hlast, fun ha => hcont (hauto ha)⟩

end VersionSet
