import Ssdb.Util.Config

namespace ConfigTree

def components (key : Bytes) : List Bytes := key.splitOnP isSeparator

def walk (t : ConfigTree) : List ℕ → List Bytes → Option (List ℕ)
  | p, [] => some p
  | p, f :: fs => (findChild t p f).bind fun q => walk t q fs

def buildAll (fs : List Bytes) (s : ConfigTree × List ℕ) : ConfigTree × List ℕ :=
  fs.foldl (fun s f => buildChild f s) s

theorem modifyHead_append_nil (fs : List Bytes) : fs.modifyHead ([] ++ ·) = fs :=
  congrFun List.modifyHead_id fs

theorem buildFrom_components (f fs : Bytes) (s : ConfigTree × List ℕ) :
    buildFrom f fs s = buildAll ((components fs).modifyHead (f ++ ·)) s := by
  induction fs generalizing f s with
  | nil => simp [buildFrom, components, buildAll]
  | cons c fs ih =>
    rw [buildFrom, components, List.splitOnP_cons_eq_if_modifyHead]
    split_ifs with hc
    · rw [ih, List.modifyHead_cons, List.append_nil, modifyHead_append_nil]
      rfl
    · rw [ih, List.modifyHead_modifyHead]
      congr 2
      funext g
      simp

theorem getFrom_components (t : ConfigTree) (f fs : Bytes) (p : List ℕ) :
    getFrom t f fs p = walk t p ((components fs).modifyHead (f ++ ·)) := by
  induction fs generalizing f p with
  | nil =>
    rw [getFrom]
    cases h : findChild t p f <;> simp [components, walk, h]
  | cons c fs ih =>
    rw [getFrom, components, List.splitOnP_cons_eq_if_modifyHead]
    split_ifs with hc
    · rw [List.modifyHead_cons, List.append_nil, walk]
      cases findChild t p f with
      | none => rfl
      | some q =>
        dsimp only
        rw [ih, Option.bind_some, modifyHead_append_nil]
        rfl
    · rw [ih, List.modifyHead_modifyHead]
      congr 2
      funext g
      simp

variable {t : ConfigTree} {key : Bytes}

theorem pathBuffer_short (h : key.length < CONFIG_MAX_LINE) : pathBuffer key = key :=
  List.take_of_length_le (by omega)

theorem get_walk (h : key.length < CONFIG_MAX_LINE) : get t key = walk t [] (components key) := by
  rw [get, pathBuffer_short h, getFrom_components, modifyHead_append_nil]

theorem buildKeyPath_all (h : key.length < CONFIG_MAX_LINE) :
    buildKeyPath t key = buildAll (components key) (t, []) := by
  rw [buildKeyPath, pathBuffer_short h, buildFrom_components, modifyHead_append_nil]

def keyAt (t : ConfigTree) (p : List ℕ) : Option Bytes := (t.labelAt p).map ConfigEntry.key

def valAt (t : ConfigTree) (p : List ℕ) : Option Bytes := (t.labelAt p).map ConfigEntry.val

theorem findFrom_some_iff {ts : List ConfigTree} {f : Bytes} {n i : ℕ} :
    findFrom ts f n = some i ↔ i < n ∧ (ts[i]?.map fun c => c.label.key) = some f ∧
      ∀ j, i < j → j < n → (ts[j]?.map fun c => c.label.key) ≠ some f := by
  induction n with
  | zero => simp [findFrom]
  | succ n ih =>
    rw [findFrom]
    split_ifs with hn
    · constructor
      · intro h
        obtain rfl := Option.some.inj h
        exact ⟨Nat.lt_succ_self _, hn, fun j h1 h2 => by omega⟩
      · rintro ⟨hi, -, hlast⟩
        rcases Nat.lt_succ_iff_lt_or_eq.mp hi with hlt | rfl
        · exact absurd hn (hlast n hlt (Nat.lt_succ_self n))
        · rfl
    · rw [ih]
      constructor
      · rintro ⟨hi, hkey, hlast⟩
        refine ⟨Nat.lt_succ_of_lt hi, hkey, fun j h1 h2 => ?_⟩
        rcases Nat.lt_succ_iff_lt_or_eq.mp h2 with hlt | rfl
        · exact hlast j h1 hlt
        · exact hn
      · rintro ⟨hi, hkey, hlast⟩
        rcases Nat.lt_succ_iff_lt_or_eq.mp hi with hlt | rfl
        · exact ⟨hlt, hkey, fun j h1 h2 => hlast j h1 (Nat.lt_succ_of_lt h2)⟩
        · exact absurd hkey hn

theorem findFrom_none_iff {ts : List ConfigTree} {f : Bytes} {n : ℕ} :
    findFrom ts f n = none ↔ ∀ i < n, (ts[i]?.map fun c => c.label.key) ≠ some f := by
  induction n with
  | zero => simp [findFrom]
  | succ n ih =>
    rw [findFrom]
    split_ifs with hn
    · simp only [false_iff]
      exact fun hall => hall n (Nat.lt_succ_self n) hn
    · rw [ih]
      constructor
      · intro hall i hi
        rcases Nat.lt_succ_iff_lt_or_eq.mp hi with hlt | rfl
        · exact hall i hlt
        · exact hn
      · exact fun hall i hi => hall i (Nat.lt_succ_of_lt hi)

theorem findChild_subtree {u : ConfigTree} {p : List ℕ} (h : t.subtree p = some u) (f : Bytes) :
    findChild t p f = (findFrom u.children f u.children.length).map (p ++ [·]) := by
  simp [findChild, h, Option.map_eq_bind]

theorem keyAt_child {u : ConfigTree} {p : List ℕ} (h : t.subtree p = some u) (i : ℕ) :
    keyAt t (p ++ [i]) = u.children[i]?.map fun c => c.label.key := by
  rw [keyAt, Rose.labelAt_append, h, Option.bind_some, Rose.labelAt_cons]
  cases u.children[i]? <;> rfl

theorem keyAt_missing {p : List ℕ} (h : t.subtree p = none) (q : List ℕ) :
    keyAt t (p ++ q) = none := by
  rw [keyAt, Rose.labelAt_append, h]
  rfl

theorem findChild_some_iff {p q : List ℕ} {f : Bytes} : findChild t p f = some q ↔
    ∃ i, q = p ++ [i] ∧ keyAt t (p ++ [i]) = some f ∧
      ∀ j, i < j → keyAt t (p ++ [j]) ≠ some f := by
  cases hu : t.subtree p with
  | none => simp [findChild, hu, keyAt_missing hu]
  | some u =>
    simp only [findChild_subtree hu, Option.map_eq_some_iff, findFrom_some_iff, keyAt_child hu]
    constructor
    · rintro ⟨i, ⟨hi, hkey, hlast⟩, rfl⟩
      refine ⟨i, rfl, hkey, fun j hj => ?_⟩
      rcases lt_or_ge j u.children.length with hlt | hge
      · exact hlast j hj hlt
      · simp [List.getElem?_eq_none hge]
    · rintro ⟨i, rfl, hkey, hlast⟩
      refine ⟨i, ⟨?_, hkey, fun j hj _ => hlast j hj⟩, rfl⟩
      by_contra hge
      rw [List.getElem?_eq_none (not_lt.mp hge)] at hkey
      simp at hkey

theorem findChild_none_iff {p : List ℕ} {f : Bytes} :
    findChild t p f = none ↔ ∀ i, keyAt t (p ++ [i]) ≠ some f := by
  cases hu : t.subtree p with
  | none => simp [findChild, hu, keyAt_missing hu]
  | some u =>
    rw [findChild_subtree hu, Option.map_eq_none_iff, findFrom_none_iff]
    simp only [keyAt_child hu]
    refine ⟨fun hall i => ?_, fun hall i _ => hall i⟩
    rcases lt_or_ge i u.children.length with hlt | hge
    · exact hall i hlt
    · simp [List.getElem?_eq_none hge]

theorem findChild_congr {t' : ConfigTree} {p : List ℕ} {f : Bytes}
    (h : ∀ i, keyAt t' (p ++ [i]) = some f ↔ keyAt t (p ++ [i]) = some f) :
    findChild t' p f = findChild t p f := by
  refine Option.ext fun q => ?_
  simp only [findChild_some_iff, ne_eq, h]

theorem walk_congr {t' : ConfigTree} {p : List ℕ}
    (h : ∀ q, p <+: q → keyAt t' q = keyAt t q) (fs : List Bytes) : walk t' p fs = walk t p fs := by
  induction fs generalizing p with
  | nil => rfl
  | cons f fs ih =>
    have hchild : findChild t' p f = findChild t p f :=
      findChild_congr fun i => by rw [h _ (List.prefix_append p [i])]
    rw [walk, walk, hchild]
    cases hq : findChild t p f with
    | none => rfl
    | some q =>
      obtain ⟨i, rfl, -⟩ := findChild_some_iff.mp hq
      exact ih fun r hr => h r ((List.prefix_append p [i]).trans hr)

theorem walk_length {p q : List ℕ} {fs : List Bytes} (h : walk t p fs = some q) :
    p <+: q ∧ q.length = p.length + fs.length := by
  induction fs generalizing p with
  | nil =>
    obtain rfl := Option.some.inj h
    exact ⟨List.prefix_refl p, rfl⟩
  | cons f fs ih =>
    obtain ⟨r, hr, hrest⟩ := Option.bind_eq_some_iff.mp h
    obtain ⟨i, rfl, -⟩ := findChild_some_iff.mp hr
    obtain ⟨hpre, hlen⟩ := ih hrest
    refine ⟨(List.prefix_append p [i]).trans hpre, ?_⟩
    rw [hlen, List.length_append, List.length_singleton, List.length_cons]
    omega

theorem walk_there {p q : List ℕ} {fs : List Bytes} (hp : t.labelAt p ≠ none)
    (h : walk t p fs = some q) : t.labelAt q ≠ none := by
  induction fs generalizing p with
  | nil =>
    obtain rfl := Option.some.inj h
    exact hp
  | cons f fs ih =>
    obtain ⟨r, hr, hrest⟩ := Option.bind_eq_some_iff.mp h
    obtain ⟨i, rfl, hkey, -⟩ := findChild_some_iff.mp hr
    refine ih (fun hnone => ?_) hrest
    rw [keyAt, hnone] at hkey
    exact absurd hkey (by simp)

theorem walk_injective {p q : List ℕ} {fs gs : List Bytes} (hf : walk t p fs = some q)
    (hg : walk t p gs = some q) : fs = gs := by
  induction fs generalizing p gs with
  | nil =>
    have h1 := (walk_length hf).2
    have h2 := (walk_length hg).2
    rw [List.length_nil] at h1
    exact (List.length_eq_zero_iff.mp (by omega)).symm
  | cons f fs ih =>
    cases gs with
    | nil =>
      have h1 := (walk_length hf).2
      have h2 := (walk_length hg).2
      rw [List.length_cons] at h1
      rw [List.length_nil] at h2
      omega
    | cons g gs =>
      obtain ⟨r, hr, hf⟩ := Option.bind_eq_some_iff.mp hf
      obtain ⟨s, hs, hg⟩ := Option.bind_eq_some_iff.mp hg
      obtain ⟨i, rfl, hi, -⟩ := findChild_some_iff.mp hr
      obtain ⟨j, rfl, hj, -⟩ := findChild_some_iff.mp hs
      have hsame : p ++ [i] = p ++ [j] :=
        (List.prefix_of_prefix_length_le (walk_length hf).1 (walk_length hg).1 (by simp)).eq_of_length
          (by simp)
      rw [← hsame] at hj hg
      rw [Option.some.inj (hi.symm.trans hj), ih hf hg]

structure Added (t : ConfigTree) (p : List ℕ) (n : ℕ) (e : ConfigEntry) (t' : ConfigTree) : Prop where
  labels : ∀ r, t'.labelAt r = if r = p ++ [n] then some e else t.labelAt r
  free : ∀ i r, n ≤ i → t.labelAt (p ++ i :: r) = none

theorem addChild_path {p : List ℕ} {u : ConfigTree} (h : t.subtree p = some u) (key val : Bytes) :
    (addChild t p key val).2 = p ++ [u.children.length] := by
  rw [addChild, h]
  rfl

theorem addChild_spec {p : List ℕ} (h : t.labelAt p ≠ none) (key val : Bytes) :
    ∃ n, (addChild t p key val).2 = p ++ [n] ∧ Added t p n ⟨key, val⟩ (addChild t p key val).1 := by
  obtain ⟨u, hu⟩ := Rose.exists_subtree h
  refine ⟨u.children.length, addChild_path hu key val, fun r => Rose.labelAt_push hu _ r,
    fun i r hi => ?_⟩
  rw [Rose.labelAt_append, hu, Option.bind_some, Rose.labelAt_cons, List.getElem?_eq_none hi]
  rfl

theorem buildChild_spec {p : List ℕ} (h : t.labelAt p ≠ none) (f : Bytes) :
    (∃ q, findChild t p f = some q ∧ buildChild f (t, p) = (t, q) ∧ t.labelAt q ≠ none) ∨
      ∃ n t', findChild t p f = none ∧ buildChild f (t, p) = (t', p ++ [n]) ∧
        Added t p n ⟨f, []⟩ t' := by
  cases hf : findChild t p f with
  | some q =>
    refine .inl ⟨q, rfl, by simp only [buildChild, hf], ?_⟩
    obtain ⟨i, rfl, hkey, -⟩ := findChild_some_iff.mp hf
    intro hnone
    rw [keyAt, hnone] at hkey
    exact absurd hkey (by simp)
  | none =>
    obtain ⟨n, hn, hadded⟩ := addChild_spec h f []
    refine .inr ⟨n, (addChild t p f []).1, rfl, ?_, hadded⟩
    rw [← hn]
    simp only [buildChild, hf]

namespace Added
variable {p : List ℕ} {n : ℕ} {e : ConfigEntry} {t' : ConfigTree}

theorem new (h : Added t p n e t') : t'.labelAt (p ++ [n]) = some e := by rw [h.labels, if_pos rfl]

theorem old (h : Added t p n e t') {r : List ℕ} (hr : r ≠ p ++ [n]) : t'.labelAt r = t.labelAt r := by
  rw [h.labels, if_neg hr]

theorem found (h : Added t p n e t') : findChild t' p e.key = some (p ++ [n]) := by
  refine findChild_some_iff.mpr ⟨n, rfl, by rw [keyAt, h.new]; rfl, fun j hj => ?_⟩
  have hne : p ++ [j] ≠ p ++ [n] := fun he => hj.ne' (by simpa using he)
  rw [keyAt, h.old hne, h.free j [] hj.le]
  simp

theorem leaf (h : Added t p n e t') (g : Bytes) : findChild t' (p ++ [n]) g = none := by
  refine findChild_none_iff.mpr fun i => ?_
  have hne : p ++ [n] ++ [i] ≠ p ++ [n] := by simp
  rw [keyAt, h.old hne, List.append_assoc, List.singleton_append, h.free n [i] le_rfl]
  simp

theorem other (h : Added t p n e t') {g : Bytes} (hg : g ≠ e.key) (gs : List Bytes) :
    walk t' p (g :: gs) = walk t p (g :: gs) := by
  have hchild : findChild t' p g = findChild t p g := by
    refine findChild_congr fun i => ?_
    rcases eq_or_ne i n with rfl | hi
    · rw [keyAt, keyAt, h.new, h.free i [] le_rfl]
      simpa using hg.symm
    · rw [keyAt, keyAt, h.old fun he => hi (by simpa using he)]
  rw [walk, walk, hchild]
  cases hr : findChild t p g with
  | none => rfl
  | some r =>
    obtain ⟨i, rfl, hkey, -⟩ := findChild_some_iff.mp hr
    refine walk_congr (fun s hs => ?_) gs
    rw [keyAt, keyAt, h.old]
    rintro rfl
    have hsame := hs.eq_of_length (by simp)
    rw [hsame, keyAt, h.free n [] le_rfl] at hkey
    exact absurd hkey (by simp)

end Added

structure Built (t : ConfigTree) (p : List ℕ) (fs : List Bytes) (t' : ConfigTree) (p' : List ℕ) :
    Prop where
  reached : walk t' p fs = some p'
  kept : ∀ r e, t.labelAt r = some e → t'.labelAt r = some e
  below : ∀ r, t'.labelAt r ≠ t.labelAt r → p <+: r ∧ r ≠ p
  resolved : ∀ gs q, walk t p gs = some q → walk t' p gs = some q
  created : ∀ gs, walk t p gs = none → ((walk t' p gs).isSome ↔ gs <+: fs)
  empty : ∀ gs q, walk t p gs = none → walk t' p gs = some q → valAt t' q = some []

theorem prefix_singleton_iff {gs : List Bytes} {f : Bytes} : gs <+: [f] ↔ gs = [] ∨ gs = [f] := by
  cases gs with
  | nil => simp
  | cons g gs => simp

namespace Built
variable {t1 t' : ConfigTree} {p p1 p' : List ℕ} {f : Bytes} {fs : List Bytes}

theorem valAt_kept (h : Built t p fs t' p') {q : List ℕ} {v : Bytes} (hq : valAt t q = some v) :
    valAt t' q = some v := by
  obtain ⟨e, he, hval⟩ := Option.map_eq_some_iff.mp hq
  rw [valAt, h.kept q e he, Option.map_some, hval]

theorem found (hf : findChild t p f = some p1) : Built t p [f] t p1 where
  reached := by
    rw [walk, hf]
    rfl
  kept _ _ he := he
  below _ hne := absurd rfl hne
  resolved _ _ he := he
  created gs hgs := by
    rw [hgs]
    refine iff_of_false (by simp) fun hpre => ?_
    rcases prefix_singleton_iff.mp hpre with rfl | rfl
    · exact absurd hgs (by simp [walk])
    · rw [walk, hf] at hgs
      exact absurd hgs (by simp [walk])
  empty _ _ hnone hq := absurd (hnone.symm.trans hq) (by simp)

theorem added {n : ℕ} (hf : findChild t p f = none) (h : Added t p n ⟨f, []⟩ t1) :
    Built t p [f] t1 (p ++ [n]) where
  reached := by
    rw [walk, h.found]
    rfl
  kept r e he := by
    rw [h.old, he]
    rintro rfl
    rw [h.free n [] le_rfl] at he
    exact absurd he (by simp)
  below r hne := by
    have hr : r = p ++ [n] := by
      by_contra hr
      exact hne (h.old hr)
    rw [hr]
    exact ⟨List.prefix_append p [n], by simp⟩
  resolved gs q hq := by
    cases gs with
    | nil => exact hq
    | cons g gs =>
      have hg : g ≠ f := by
        rintro rfl
        rw [walk, hf] at hq
        exact absurd hq (by simp)
      rw [h.other hg, hq]
  created gs hgs := by
    cases gs with
    | nil => exact absurd hgs (by simp [walk])
    | cons g gs =>
      rcases eq_or_ne g f with rfl | hg
      · rw [walk, h.found, Option.bind_some]
        cases gs with
        | nil => simp [walk]
        | cons g' gs => simp [walk, h.leaf]
      · rw [h.other hg, hgs]
        simp [hg]
  empty gs q hnone hq := by
    cases gs with
    | nil => exact absurd hnone (by simp [walk])
    | cons g gs =>
      rcases eq_or_ne g f with rfl | hg
      · rw [walk, h.found, Option.bind_some] at hq
        cases gs with
        | nil =>
          obtain rfl := Option.some.inj hq
          rw [valAt, h.new]
          rfl
        | cons g' gs =>
          rw [walk, h.leaf] at hq
          exact absurd hq (by simp)
      · rw [h.other hg, hnone] at hq
        exact absurd hq (by simp)

theorem walk_cons {i : ℕ} (h : Built t1 (p ++ [i]) fs t' p')
    (hf : findChild t1 p f = some (p ++ [i])) (g : Bytes) (gs : List Bytes) :
    walk t' p (g :: gs) = if g = f then walk t' (p ++ [i]) gs else walk t1 p (g :: gs) := by
  have hkeys {r : List ℕ} (hr : ¬(p ++ [i] <+: r ∧ r ≠ p ++ [i])) : keyAt t' r = keyAt t1 r := by
    by_contra hne
    exact hr (h.below r fun he => hne (congrArg (Option.map ConfigEntry.key) he))
  have hchild (g : Bytes) : findChild t' p g = findChild t1 p g := by
    refine findChild_congr fun j => ?_
    rw [hkeys]
    rintro ⟨hpre, hne⟩
    exact hne (hpre.eq_of_length (by simp)).symm
  rw [walk, hchild]
  split_ifs with hg
  · rw [hg, hf]
    rfl
  · rw [walk]
    cases hr : findChild t1 p g with
    | none => rfl
    | some r =>
      obtain ⟨j, rfl, hj, -⟩ := findChild_some_iff.mp hr
      obtain ⟨k, hk, hi, -⟩ := findChild_some_iff.mp hf
      obtain rfl : i = k := by simpa using hk
      refine walk_congr (fun s hs => hkeys ?_) gs
      rintro ⟨hpre, -⟩
      have hsame : p ++ [j] = p ++ [i] :=
        (List.prefix_of_prefix_length_le hs hpre (by simp)).eq_of_length (by simp)
      rw [hsame, hi] at hj
      exact hg (Option.some.inj hj).symm

theorem cons {i : ℕ} (h1 : Built t p [f] t1 (p ++ [i])) (h : Built t1 (p ++ [i]) fs t' p') :
    Built t p (f :: fs) t' p' := by
  have hf : findChild t1 p f = some (p ++ [i]) := by
    have hreached := h1.reached
    rw [walk] at hreached
    obtain ⟨q, hq, hself⟩ := Option.bind_eq_some_iff.mp hreached
    rw [hq]
    exact hself
  have hwalk := h.walk_cons hf
  have hwalk1 (gs : List Bytes) : walk t1 p (f :: gs) = walk t1 (p ++ [i]) gs := by
    rw [walk, hf]
    rfl
  refine ⟨?_, fun r e he => h.kept r e (h1.kept r e he), fun r hne => ?_, fun gs q hq => ?_,
    fun gs hgs => ?_, fun gs q hnone hq => ?_⟩
  · rw [hwalk, if_pos rfl, h.reached]
  · rcases eq_or_ne (t'.labelAt r) (t1.labelAt r) with heq | hne'
    · exact h1.below r fun he => hne (heq.trans he)
    · obtain ⟨hpre, -⟩ := h.below r hne'
      refine ⟨(List.prefix_append p [i]).trans hpre, ?_⟩
      rintro rfl
      exact absurd hpre.length_le (by simp)
  · cases gs with
    | nil => exact hq
    | cons g gs =>
      have hq1 := h1.resolved _ _ hq
      rw [hwalk]
      split_ifs with hg
      · rw [hg, hwalk1] at hq1
        exact h.resolved gs q hq1
      · exact hq1
  · cases gs with
    | nil => exact absurd hgs (by simp [walk])
    | cons g gs =>
      have hcreated := h1.created _ hgs
      rw [hwalk, List.cons_prefix_cons]
      split_ifs with hg
      · rw [and_iff_right hg]
        rw [hg, hwalk1] at hcreated
        cases hq : walk t1 (p ++ [i]) gs with
        | none => exact h.created gs hq
        | some q =>
          rw [hq, prefix_singleton_iff] at hcreated
          have hnil : gs = [] := by simpa using hcreated
          rw [h.resolved gs q hq, hnil]
          simp
      · rw [hcreated, prefix_singleton_iff]
        simp [hg]
  · cases gs with
    | nil => exact absurd hnone (by simp [walk])
    | cons g gs =>
      rw [hwalk] at hq
      split_ifs at hq with hg
      · cases hq1 : walk t1 (p ++ [i]) gs with
        | none => exact h.empty gs q hq1 hq
        | some r =>
          obtain rfl := Option.some.inj ((h.resolved gs r hq1).symm.trans hq)
          exact h.valAt_kept (h1.empty _ r hnone (by rw [hg, hwalk1, hq1]))
      · exact h.valAt_kept (h1.empty _ q hnone hq)

end Built

theorem buildAll_spec {p : List ℕ} (h : t.labelAt p ≠ none) (fs : List Bytes) :
    Built t p fs (buildAll fs (t, p)).1 (buildAll fs (t, p)).2 := by
  induction fs generalizing t p with
  | nil =>
    refine ⟨rfl, fun _ _ he => he, fun _ hne => absurd rfl hne, fun _ _ he => he, fun gs hgs => ?_,
      fun gs q hnone hq => absurd (hnone.symm.trans hq) (by simp)⟩
    have hne : gs ≠ [] := by
      rintro rfl
      exact absurd hgs (by simp [walk])
    simp [buildAll, hgs, hne]
  | cons f fs ih =>
    have hrun : buildAll (f :: fs) (t, p) = buildAll fs (buildChild f (t, p)) := rfl
    rw [hrun]
    rcases buildChild_spec h f with ⟨q, hf, hbuild, hq⟩ | ⟨n, t1, hf, hbuild, hadded⟩
    · rw [hbuild]
      obtain ⟨i, rfl, -⟩ := findChild_some_iff.mp hf
      exact (Built.found hf).cons (ih hq)
    · rw [hbuild]
      exact (Built.added hf hadded).cons (ih (by rw [hadded.new]; simp))

def Grown (t : ConfigTree) (c : List ℕ) (t' : ConfigTree) : Prop :=
  ∀ r e, t.labelAt r = some e → ∃ e', t'.labelAt r = some e' ∧ e'.key = e.key ∧
    (r ≠ c → e'.val = e.val)

section assign
variable {t' : ConfigTree} {c : List ℕ} {fs : List Bytes} (v : Bytes)

def assigned (t' : ConfigTree) (c : List ℕ) : ConfigTree :=
  t'.modify (.relabel fun e => { e with val := v }) c

theorem keyAt_assigned (r : List ℕ) : keyAt (assigned v t' c) r = keyAt t' r := by
  rw [keyAt, assigned, Rose.labelAt_relabel]
  split_ifs with hr
  · rw [Option.map_map]
    rfl
  · rfl

theorem valAt_assigned (r : List ℕ) : valAt (assigned v t' c) r =
    if r = c then (valAt t' r).map fun _ => v else valAt t' r := by
  rw [valAt, assigned, Rose.labelAt_relabel]
  split_ifs with hr
  · rw [Option.map_map, valAt, Option.map_map]
    rfl
  · rfl

theorem walk_assigned (gs : List Bytes) : walk (assigned v t' c) [] gs = walk t' [] gs :=
  walk_congr (fun q _ => keyAt_assigned v q) gs

theorem Built.grown (h : Built t [] fs t' c) : Grown t c (assigned v t' c) := by
  intro r e he
  have hkey : keyAt (assigned v t' c) r = keyAt t' r := keyAt_assigned v r
  have hval : valAt (assigned v t' c) r = if r = c then (valAt t' r).map fun _ => v else valAt t' r :=
    valAt_assigned v r
  rw [keyAt, keyAt, h.kept r e he] at hkey
  rw [valAt, valAt, h.kept r e he] at hval
  obtain ⟨e', he', hkey⟩ := Option.map_eq_some_iff.mp hkey
  refine ⟨e', he', hkey, fun hr => ?_⟩
  rw [if_neg hr, he'] at hval
  exact Option.some.inj hval

end assign

/-- What `get` finds after `set`: the value that was set, the nodes it found before, and the nodes
on the way, which are new and empty. Nothing is removed or moved. -/
theorem set_get (t : ConfigTree) {p : Bytes} (hp : p.length < CONFIG_MAX_LINE) (v : Bytes) :
    let t' := (set t p v).1
    get t' p = some (set t p v).2 ∧ valAt t' (set t p v).2 = some v ∧
      (∀ q, q.length < CONFIG_MAX_LINE → components q ≠ components p →
        (∀ c, get t q = some c → get t' q = some c ∧ valAt t' c = valAt t c) ∧
        (get t q = none → ((get t' q).isSome ↔ components q <+: components p) ∧
          ∀ c, get t' q = some c → valAt t' c = some [])) ∧
      Grown t (set t p v).2 t' := by
  have hroot : t.labelAt [] ≠ none := Option.some_ne_none _
  have hbuilt := buildAll_spec hroot (components p)
  have hset : set t p v = (assigned v (buildAll (components p) (t, [])).1
      (buildAll (components p) (t, [])).2, (buildAll (components p) (t, [])).2) := by
    rw [set, buildKeyPath_all hp]
    rfl
  rw [hset]
  generalize (buildAll (components p) (t, [])).1 = t1 at hbuilt
  generalize (buildAll (components p) (t, [])).2 = c at hbuilt
  have hget {q : Bytes} (hq : q.length < CONFIG_MAX_LINE) :
      get (assigned v t1 c) q = walk t1 [] (components q) := by
    rw [get_walk hq, walk_assigned]
  have hother {q : Bytes} (hne : components q ≠ components p) {d : List ℕ}
      (hd : walk t1 [] (components q) = some d) : valAt (assigned v t1 c) d = valAt t1 d := by
    rw [valAt_assigned, if_neg]
    rintro rfl
    exact hne (walk_injective hd hbuilt.reached)
  refine ⟨?_, ?_, fun q hq hne => ⟨fun d hd => ?_, fun hnone => ?_⟩, hbuilt.grown v⟩
  · rw [hget hp]
    exact hbuilt.reached
  · have hroot1 : t1.labelAt [] ≠ none := Option.some_ne_none _
    obtain ⟨e, he⟩ := Option.ne_none_iff_exists'.mp (walk_there hroot1 hbuilt.reached)
    rw [valAt_assigned, if_pos rfl, valAt, he]
    rfl
  · rw [get_walk hq] at hd
    have hd1 := hbuilt.resolved _ _ hd
    obtain ⟨e, he⟩ := Option.ne_none_iff_exists'.mp (walk_there hroot hd)
    refine ⟨by rw [hget hq, hd1], ?_⟩
    rw [hother hne hd1, valAt, valAt, hbuilt.kept d e he, he]
  · rw [get_walk hq] at hnone
    rw [hget hq]
    refine ⟨hbuilt.created _ hnone, fun d hd => ?_⟩
    rw [hother hne hd]
    exact hbuilt.empty _ d hnone hd

theorem set_get_twice :
    let t := (set (.leaf ⟨[], []⟩) (Strings.asBytes "a.b") (Strings.asBytes "1")).1
    let t' := (set t (Strings.asBytes "a/b.c") (Strings.asBytes "2")).1
    get t' (Strings.asBytes "a.b.c") = some [0, 0, 0] ∧ valAt t' [0, 0, 0] = some [50] ∧
      valAt t' [0, 0] = some [49] := by
  intro t t'
  have hp : (Strings.asBytes "a/b.c").length < CONFIG_MAX_LINE := by decide
  have hq : (Strings.asBytes "a.b").length < CONFIG_MAX_LINE := by decide
  have hr : (Strings.asBytes "a.b.c").length < CONFIG_MAX_LINE := by decide
  obtain ⟨hself, hval, hrest, -⟩ := set_get t hp (Strings.asBytes "2")
  have hnode : (set t (Strings.asBytes "a/b.c") (Strings.asBytes "2")).2 = [0, 0, 0] := by decide
  have hpath : components (Strings.asBytes "a.b.c") = components (Strings.asBytes "a/b.c") := by decide
  have hfound : get t (Strings.asBytes "a.b") = some [0, 0] := by decide
  have hone : valAt t [0, 0] = some [49] := by decide
  rw [get_walk hp, hnode] at hself
  rw [hnode] at hval
  obtain ⟨-, hkept⟩ := (hrest _ hq (by decide)).1 _ hfound
  refine ⟨?_, hval, hkept.trans hone⟩
  rw [get_walk hr, hpath]
  exact hself

end ConfigTree
