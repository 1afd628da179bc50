import Ssdb.Library.Versions

namespace Versions
variable {α β κ γ : Type} [LinearOrder α] (key : α → κ)

def Newer (es fs : List (α × β)) : Prop := ∀ e ∈ es, ∀ f ∈ fs, key e.1 = key f.1 → e.1 < f.1

def Ordered (es : List (α × β)) : Prop := es.Pairwise fun e f => key e.1 = key f.1 → e.1 < f.1

variable {key} {es fs gs : List (α × β)} {e : α × β} {k : κ}

theorem ordered_append :
    Ordered key (es ++ fs) ↔ Ordered key es ∧ Ordered key fs ∧ Newer key es fs :=
  List.pairwise_append

theorem newer_append : Newer key es (fs ++ gs) ↔ Newer key es fs ∧ Newer key es gs := by
  constructor
  · intro h
    exact ⟨fun e he f hf => h e he f (List.mem_append_left _ hf),
      fun e he f hf => h e he f (List.mem_append_right _ hf)⟩
  · rintro ⟨hl, hr⟩ e he f hf
    rcases List.mem_append.mp hf with hf | hf
    · exact hl e he f hf
    · exact hr e he f hf

theorem newer_flatMap {ι : Type} {l : List ι} {g : ι → List (α × β)} :
    Newer key es (l.flatMap g) ↔ ∀ i ∈ l, Newer key es (g i) := by
  constructor
  · exact fun h i hi e he f hf => h e he f (List.mem_flatMap.mpr ⟨i, hi, hf⟩)
  · intro h e he f hf
    obtain ⟨i, hi, hf⟩ := List.mem_flatMap.mp hf
    exact h i hi e he f hf

theorem ordered_flatMap {ι : Type} {l : List ι} {g : ι → List (α × β)} (hg : ∀ i ∈ l, Ordered key (g i))
    (hl : l.Pairwise fun i j => Newer key (g i) (g j)) : Ordered key (l.flatMap g) :=
  List.pairwise_flatMap.mpr ⟨hg, hl⟩

theorem newer_of_apart (h : ∀ e ∈ es, ∀ f ∈ fs, key e.1 ≠ key f.1) : Newer key es fs :=
  fun e he f hf hkey => absurd hkey (h e he f hf)

theorem Newer.ne (h : Newer key es fs) : ∀ e ∈ es, ∀ f ∈ fs, e.1 ≠ f.1 :=
  fun e he f hf heq => absurd (h e he f hf (congrArg key heq)) (heq ▸ lt_irrefl _)

theorem Ordered.keys_nodup (h : Ordered key es) : (es.map Prod.fst).Nodup :=
  List.pairwise_map.mpr (h.imp fun hlt heq => absurd (hlt (congrArg key heq)) (heq ▸ lt_irrefl _))

theorem ordered_entries (m : OrdMap α β) : Ordered key m.entries := by
  refine List.Pairwise.imp ?_ m.sorted
  exact fun h _ => h

theorem Ordered.eq_of_fst (h : Ordered key es) {f : α × β} (he : e ∈ es) (hf : f ∈ es)
    (heq : e.1 = f.1) : e = f := by
  induction es with
  | nil => exact absurd he (by simp)
  | cons x es ih =>
    obtain ⟨hx, hes⟩ := List.pairwise_cons.mp h
    rcases List.mem_cons.mp he with rfl | he'
    · rcases List.mem_cons.mp hf with rfl | hf'
      · rfl
      · exact absurd (hx f hf' (congrArg key heq)) (heq ▸ lt_irrefl _)
    · rcases List.mem_cons.mp hf with rfl | hf'
      · exact absurd (hx e he' (congrArg key heq.symm)) (heq ▸ lt_irrefl _)
      · exact ih hes he' hf'

variable [LinearOrder κ] (key) (reading : α × β → Option (Option γ))

structure First (es : List (α × β)) (k : κ) (e : α × β) : Prop where
  mem : e ∈ es
  named : key e.1 = k
  read : reading e ≠ none
  least : ∀ e' ∈ es, key e'.1 = k → reading e' ≠ none → e.1 ≤ e'.1

variable {reading key}

theorem Ordered.newest_first (h : Ordered key es) {r : Option γ} (hr : newest key reading k es = some r) :
    ∃ e, First key reading es k e ∧ reading e = some r := by
  induction es with
  | nil => simp at hr
  | cons x es ih =>
    obtain ⟨hx, hes⟩ := List.pairwise_cons.mp h
    by_cases hpass : key x.1 = k → reading x = none
    · have hrest : newest key reading k es = some r := by
        by_cases hk : key x.1 = k
        · rwa [newest_cons_none (hpass hk)] at hr
        · rwa [newest_cons_ne hk] at hr
      obtain ⟨e, hfirst, hread⟩ := ih hes hrest
      refine ⟨e, ⟨List.mem_cons_of_mem _ hfirst.mem, hfirst.named, hfirst.read, ?_⟩, hread⟩
      refine List.forall_mem_cons.mpr ⟨?_, hfirst.least⟩
      exact fun hk hreads => absurd (hpass hk) hreads
    · obtain ⟨hk, hread⟩ := Classical.not_imp.mp hpass
      obtain ⟨r', hr'⟩ := Option.ne_none_iff_exists'.mp hread
      have hfound : newest key reading k (x :: es) = some r' := by
        rw [← hk, newest_cons_self, hr', Option.some_or]
      obtain rfl : r' = r := Option.some.inj (hfound.symm.trans hr)
      refine ⟨x, ⟨by simp, hk, hread, List.forall_mem_cons.mpr ⟨fun _ _ => le_rfl, ?_⟩⟩, hr'⟩
      exact fun e' he' hk' _ => (hx e' he' (hk.trans hk'.symm)).le

theorem Ordered.newest_iff (h : Ordered key es) {r : Option γ} :
    newest key reading k es = some r ↔ ∃ e, First key reading es k e ∧ reading e = some r := by
  refine ⟨h.newest_first, ?_⟩
  rintro ⟨e, hfirst, hread⟩
  cases hnew : newest key reading k es with
  | none => exact absurd (newest_eq_none_iff.mp hnew e hfirst.mem hfirst.named) hfirst.read
  | some r' =>
    obtain ⟨f, hf, hread'⟩ := h.newest_first hnew
    have hef := le_antisymm (hfirst.least f hf.mem hf.named hf.read) (hf.least e hfirst.mem hfirst.named hfirst.read)
    obtain rfl := h.eq_of_fst hfirst.mem hf.mem hef
    exact hread'.symm.trans hread

theorem newest_relaid (hes : Ordered key es) (hfs : Ordered key fs)
    (h : ∀ e, key e.1 = k → (e ∈ es ↔ e ∈ fs)) :
    newest key reading k es = newest key reading k fs := by
  refine Option.ext fun r => ?_
  rw [hes.newest_iff, hfs.newest_iff]
  constructor
  · rintro ⟨e, hfirst, hread⟩
    exact ⟨e, ⟨(h e hfirst.named).mp hfirst.mem, hfirst.named, hfirst.read,
      fun e' he' hk' => hfirst.least e' ((h e' hk').mpr he') hk'⟩, hread⟩
  · rintro ⟨e, hfirst, hread⟩
    exact ⟨e, ⟨(h e hfirst.named).mpr hfirst.mem, hfirst.named, hfirst.read,
      fun e' he' hk' => hfirst.least e' ((h e' hk').mp he') hk'⟩, hread⟩

theorem newest_dropped (hes : Ordered key es) (hfs : Ordered key fs) (hsub : fs ⊆ es)
    (hdrop : ∀ e ∈ es, e ∉ fs →
      (∃ e' ∈ es, key e'.1 = key e.1 ∧ e'.1 < e.1 ∧ reading e' ≠ none) ∨
        reading e = some none ∧ ∀ e' ∈ fs, key e'.1 = key e.1 → e'.1 < e.1) :
    (newest key reading k fs).join = (newest key reading k es).join := by
  have hkept {e : α × β} (hfirst : First key reading es k e) {v : γ} (hv : reading e = some (some v)) :
      e ∈ fs := by
    by_contra hout
    rcases hdrop e hfirst.mem hout with ⟨e', he', hk', hlt, hread'⟩ | ⟨hnone, -⟩
    · exact absurd hlt (not_lt.mpr (hfirst.least e' he' (hk'.trans hfirst.named) hread'))
    · exact absurd (hnone.symm.trans hv) (by simp)
  refine Option.ext fun v => ?_
  rw [Option.join_eq_some_iff, Option.join_eq_some_iff]
  constructor
  · intro h
    obtain ⟨e, hfirst, hv⟩ := hfs.newest_first h
    cases hall : newest key reading k es with
    | none => exact absurd (newest_eq_none_iff.mp hall e (hsub hfirst.mem) hfirst.named) hfirst.read
    | some r =>
      obtain ⟨f, hf, hr⟩ := hes.newest_first hall
      have hle := hf.least e (hsub hfirst.mem) hfirst.named hfirst.read
      by_cases hin : f ∈ fs
      · have hback := hfirst.least f hin hf.named hf.read
        obtain rfl := hes.eq_of_fst hf.mem (hsub hfirst.mem) (le_antisymm hle hback)
        exact hr.symm.trans hv
      · rcases hdrop f hf.mem hin with ⟨e', he', hk', hlt, hread'⟩ | ⟨-, holder⟩
        · exact absurd hlt (not_lt.mpr (hf.least e' he' (hk'.trans hf.named) hread'))
        · exact absurd (holder e hfirst.mem (hfirst.named.trans hf.named.symm)) (not_lt.mpr hle)
  · intro h
    obtain ⟨e, hfirst, hv⟩ := hes.newest_first h
    refine hfs.newest_iff.mpr ⟨e, ⟨hkept hfirst hv, hfirst.named, hfirst.read, ?_⟩, hv⟩
    exact fun e' he' => hfirst.least e' (hsub he')

end Versions
