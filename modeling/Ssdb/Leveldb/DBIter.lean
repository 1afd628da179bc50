import Ssdb.Leveldb.Dbformat
import Ssdb.Library.VersionSearch

inductive DBIter.Direction where
  | kForward
  | kReverse
deriving DecidableEq, Repr

/-- Going forward `iter` stands on the entry that is shown; going back it stands just before all
entries of the key that is shown. -/
structure DBIter (σ : Type) where
  iter : σ
  status : Option String
  saved_key : Bytes
  saved_value : Bytes
  direction : DBIter.Direction
  valid : Bool

namespace DBIter
variable {σ : Type} (it : Walker σ InternalKey Bytes) (sequence : UInt64)

def new (iter : σ) : DBIter σ := ⟨iter, none, [], [], .kForward, false⟩

def corrupted (d : DBIter σ) : DBIter σ :=
  { d with status := some "corrupted internal key in DBIter" }

def current (d : DBIter σ) : Option (Bytes × Bytes) :=
  if d.valid then
    match d.direction with
    | .kForward => (it.current d.iter).map fun e => (e.1.user_key, e.2)
    | .kReverse => some (d.saved_key, d.saved_value)
  else none

/-- Loops until it hits an acceptable entry; `skip` is always `saved_key`. -/
def findNextUserEntry : ℕ → Bool → DBIter σ → DBIter σ
  | 0, _, d => d
  | n + 1, skipping, d =>
    match it.current d.iter with
    | none => { d with saved_key := [], valid := false }
    | some e =>
      let next := { d with iter := it.next d.iter }
      match e.1.parse with
      | none => findNextUserEntry n skipping next.corrupted
      | some ikey =>
        if ikey.sequence ≤ sequence then
          match ikey.type with
          | .kTypeDeletion => findNextUserEntry n true { next with saved_key := ikey.user_key }
          | .kTypeValue =>
            if skipping = true ∧ BytewiseComparator.compare ikey.user_key d.saved_key ≤ 0 then
              findNextUserEntry n skipping next
            else { d with valid := true, saved_key := [] }
        else findNextUserEntry n skipping next

def foundPrev (value_type : ValueType) (d : DBIter σ) : DBIter σ :=
  match value_type with
  | .kTypeDeletion =>
    { d with valid := false, saved_key := [], saved_value := [], direction := .kForward }
  | .kTypeValue => { d with valid := true }

def findPrevUserEntry : ℕ → ValueType → DBIter σ → DBIter σ
  | 0, _, d => d
  | n + 1, value_type, d =>
    match it.current d.iter with
    | none => foundPrev value_type d
    | some e =>
      let prev := { d with iter := it.prev d.iter }
      match e.1.parse with
      | none => findPrevUserEntry n value_type prev.corrupted
      | some ikey =>
        if ikey.sequence ≤ sequence then
          if value_type ≠ .kTypeDeletion ∧
              BytewiseComparator.compare ikey.user_key d.saved_key < 0 then
            foundPrev value_type d
          else
            match ikey.type with
            | .kTypeDeletion =>
              findPrevUserEntry n .kTypeDeletion { prev with saved_key := [], saved_value := [] }
            | .kTypeValue =>
              findPrevUserEntry n .kTypeValue
                { prev with saved_key := e.1.user_key, saved_value := e.2 }
        else findPrevUserEntry n value_type prev

def leaveKey : ℕ → DBIter σ → DBIter σ × Bool
  | 0, d => (d, false)
  | n + 1, d =>
    let prev := { d with iter := it.prev d.iter }
    match it.current prev.iter with
    | none => ({ prev with valid := false, saved_key := [], saved_value := [] }, false)
    | some e =>
      if BytewiseComparator.compare e.1.user_key d.saved_key < 0 then (prev, true)
      else leaveKey n prev

variable (n : ℕ)

def seek (target : Bytes) (d : DBIter σ) : DBIter σ :=
  let ikey := InternalKey.lookup target sequence
  let d := { d with
    direction := .kForward, saved_value := [], saved_key := ikey.encode, iter := it.seek ikey d.iter }
  if it.valid d.iter then findNextUserEntry it sequence n false d else { d with valid := false }

def seekToFirst (d : DBIter σ) : DBIter σ :=
  let d := { d with direction := .kForward, saved_value := [], iter := it.seekToFirst d.iter }
  if it.valid d.iter then findNextUserEntry it sequence n false d else { d with valid := false }

def seekToLast (d : DBIter σ) : DBIter σ :=
  findPrevUserEntry it sequence n .kTypeDeletion
    { d with direction := .kReverse, saved_value := [], iter := it.seekToLast d.iter }

def next (d : DBIter σ) : DBIter σ :=
  match d.direction with
  | .kReverse =>
    -- advances into the range of entries for this key
    let iter := if it.valid d.iter then it.next d.iter else it.seekToFirst d.iter
    let d := { d with direction := .kForward, iter := iter }
    if it.valid d.iter then findNextUserEntry it sequence n true d
    else { d with valid := false, saved_key := [] }
  | .kForward =>
    match it.current d.iter with
    | none => d
    | some e => findNextUserEntry it sequence n true { d with saved_key := e.1.user_key }

def prev (d : DBIter σ) : DBIter σ :=
  match d.direction with
  | .kForward =>
    match it.current d.iter with
    | none => d
    | some e =>
      let left := leaveKey it n { d with saved_key := e.1.user_key }
      if left.2 then findPrevUserEntry it sequence n .kTypeDeletion { left.1 with direction := .kReverse }
      else left.1
  | .kReverse => findPrevUserEntry it sequence n .kTypeDeletion d

def walker : Walker (DBIter σ) Bytes Bytes where
  current := current it
  seek := seek it sequence n
  seekToFirst := seekToFirst it sequence n
  seekToLast := seekToLast it sequence n
  next := next it sequence n
  prev := prev it sequence n

variable {it sequence} {P : InternalKey → Prop} {I : σ → Prop} {m : OrdMap InternalKey Bytes} {d : DBIter σ}
  {before after : List (InternalKey × Bytes)} {p : Bytes → Bool}

abbrev newest (sequence : UInt64) (k : Bytes) (es : List (InternalKey × Bytes)) : Option (Option Bytes) :=
  Versions.newest InternalKey.user_key (InternalKey.reading sequence) k es

abbrev Ahead (sequence : UInt64) (m : OrdMap InternalKey Bytes) (p : Bytes → Bool) (skip : WithBot Bytes)
    (before after : List (InternalKey × Bytes)) : Prop :=
  Versions.Ahead InternalKey.user_key (InternalKey.reading sequence) m p skip before after

abbrev Behind (sequence : UInt64) (m : OrdMap InternalKey Bytes) (p : Bytes → Bool) (low : WithTop Bytes)
    (last : Option Bytes) (before after : List (InternalKey × Bytes)) : Prop :=
  Versions.Behind InternalKey.user_key (InternalKey.reading sequence) m p low last before after

structure Shows (it : Walker σ InternalKey Bytes) (sequence : UInt64) (I : σ → Prop)
    (m : OrdMap InternalKey Bytes) (d : DBIter σ) : Prop where
  inner : I d.iter
  forward : d.valid = true → d.direction = .kForward →
    ∃ (before : List (InternalKey × Bytes)) (e : InternalKey × Bytes) (after : List _),
    before.reverse ++ e :: after = m.entries ∧ it.current d.iter = some e ∧
      InternalKey.reading sequence e = some (some e.2) ∧
      newest sequence e.1.user_key before.reverse = none
  reverse : d.valid = true → d.direction = .kReverse → ∃ before after : List (InternalKey × Bytes),
    before.reverse ++ after = m.entries ∧ it.current d.iter = before.head? ∧
      newest sequence d.saved_key m.entries = some (some d.saved_value) ∧
      (∀ k, d.saved_key ≤ k → newest sequence k before.reverse = none) ∧
      ∀ k < d.saved_key, newest sequence k after = none

theorem Shows.invalid (hI : I d.iter) (h : d.valid = false) : Shows it sequence I m d :=
  ⟨hI, fun hv => absurd hv (by simp [h]), fun hv => absurd hv (by simp [h])⟩

theorem current_invalid (h : d.valid = false) : current it d = none := by
  simp [current, h]

theorem reading_unparsed {e : InternalKey × Bytes} (h : e.1.parse = none) :
    InternalKey.reading sequence e = none := by
  rw [InternalKey.reading, h]

section
variable {e : InternalKey × Bytes} {ikey : ParsedInternalKey} (h : e.1.parse = some ikey)
include h

theorem reading_later (hseq : ¬ ikey.sequence ≤ sequence) : InternalKey.reading sequence e = none := by
  simp only [InternalKey.reading, h, if_neg hseq]

theorem reading_deletion (hseq : ikey.sequence ≤ sequence) (ht : ikey.type = .kTypeDeletion) :
    InternalKey.reading sequence e = some none := by
  simp only [InternalKey.reading, h, if_pos hseq, ht]

theorem reading_value (hseq : ikey.sequence ≤ sequence) (ht : ikey.type = .kTypeValue) :
    InternalKey.reading sequence e = some (some e.2) := by
  simp only [InternalKey.reading, h, if_pos hseq, ht]

end

def skipped (skipping : Bool) (d : DBIter σ) : WithBot Bytes :=
  if skipping then (d.saved_key : WithBot Bytes) else ⊥

theorem skip_iff {skipping : Bool} {k : Bytes} :
    (skipping = true ∧ BytewiseComparator.compare k d.saved_key ≤ 0) ↔ k ≤ skipped skipping d := by
  cases skipping with
  | false => simp [skipped]
  | true =>
    rw [skipped, if_pos rfl, WithBot.coe_le_coe, ← not_lt, BytewiseComparator.compare_gt, not_lt]
    simp

theorem findNextUserEntry_spec (hw : it.WalksOn P I m) {skipping : Bool} (hI : I d.iter)
    (hcurrent : it.current d.iter = after.head?) (hdirection : d.direction = .kForward)
    (hn : after.length < n)
    (h : Ahead sequence m p (skipped skipping d) before after) :
    Shows it sequence I m (findNextUserEntry it sequence n skipping d) ∧
      current it (findNextUserEntry it sequence n skipping d) = (snapshotView sequence m).least p := by
  induction after generalizing n skipping d before with
  | nil =>
    obtain ⟨n, rfl⟩ := Nat.exists_eq_add_of_lt hn
    rw [findNextUserEntry, hcurrent]
    exact ⟨.invalid hI rfl, (current_invalid rfl).trans (h.ended InternalKey.user_key_mono).symm⟩
  | cons e after ih =>
    obtain ⟨n, rfl⟩ := Nat.exists_eq_add_of_lt hn
    have hfuel : after.length < (e :: after).length + n := by simp; omega
    obtain ⟨hinner, hnext⟩ := hw.next_split hI hcurrent h.split
    rw [findNextUserEntry, hcurrent]
    dsimp only [List.head?_cons]
    cases hp : e.1.parse with
    | none => exact ih _ hinner hnext hdirection hfuel (h.unread (reading_unparsed hp))
    | some ikey =>
      have huser := (InternalKey.parse_some hp).1
      by_cases hseq : ikey.sequence ≤ sequence
      · cases ht : ikey.type with
        | kTypeDeletion =>
          simp only [if_pos hseq, ht]
          have hahead := h.deleted InternalKey.user_key_mono (reading_deletion hp hseq ht)
          rw [← huser] at hahead
          exact ih _ hinner hnext hdirection hfuel hahead
        | kTypeValue =>
          have hread := reading_value hp hseq ht
          simp only [if_pos hseq, ht]
          split_ifs with hskip
          · exact ih _ hinner hnext hdirection hfuel (h.hidden (huser ▸ skip_iff.mp hskip))
          · have hbeyond : skipped skipping d < e.1.user_key :=
              not_le.mp fun hle => hskip (skip_iff.mpr (huser ▸ hle))
            obtain ⟨hleast, hnone⟩ := h.found InternalKey.user_key_mono hread hbeyond
            refine ⟨⟨hI, fun _ _ => ⟨before, e, after, h.split, hcurrent, hread, hnone⟩,
              fun _ hd => absurd (hdirection.symm.trans hd) (by decide)⟩, ?_⟩
            rw [current, if_pos rfl]
            simp only [hdirection, hcurrent]
            exact hleast.symm
      · simp only [if_neg hseq]
        exact ih _ hinner hnext hdirection hfuel (h.unread (reading_later hp hseq))

def saved (value_type : ValueType) (d : DBIter σ) : Option Bytes :=
  match value_type with
  | .kTypeDeletion => none
  | .kTypeValue => some d.saved_value

theorem foundPrev_spec (hI : I d.iter) (hcurrent : it.current d.iter = before.head?)
    (hdirection : d.direction = .kReverse)
    (h : Behind sequence m p d.saved_key (some d.saved_value)
      before after)
    (hdone : ∀ e ∈ before.head?, e.1.user_key < d.saved_key) :
    Shows it sequence I m (foundPrev .kTypeValue d) ∧
      current it (foundPrev .kTypeValue d) = (snapshotView sequence m).greatest p := by
  obtain ⟨hgreatest, hleft, hright⟩ := h.found InternalKey.user_key_mono hdone
  have hvalue : newest sequence d.saved_key m.entries = some (some d.saved_value) := by
    rw [newest, Versions.newest_split h.split, hleft _ le_rfl, Option.none_or]
    exact (h.said _ rfl).2
  refine ⟨⟨hI, fun _ hd => absurd (hdirection.symm.trans hd) (by decide),
    fun _ _ => ⟨before, after, h.split, hcurrent, hvalue, hleft, hright⟩⟩, ?_⟩
  rw [current, foundPrev, if_pos rfl]
  simp only [hdirection]
  exact hgreatest.symm

theorem findPrevUserEntry_spec (hw : it.WalksOn P I m) {value_type : ValueType} {low : WithTop Bytes}
    (hI : I d.iter) (hcurrent : it.current d.iter = before.head?) (hdirection : d.direction = .kReverse)
    (hn : before.length < n) (hlow : value_type = .kTypeValue → low = d.saved_key)
    (h : Behind sequence m p low (saved value_type d) before after) :
    Shows it sequence I m (findPrevUserEntry it sequence n value_type d) ∧
      current it (findPrevUserEntry it sequence n value_type d) =
        (snapshotView sequence m).greatest p := by
  induction before generalizing n value_type d low after with
  | nil =>
    obtain ⟨n, rfl⟩ := Nat.exists_eq_add_of_lt hn
    rw [findPrevUserEntry, hcurrent]
    cases value_type with
    | kTypeDeletion =>
      exact ⟨.invalid hI rfl, (current_invalid rfl).trans (h.ended InternalKey.user_key_mono).symm⟩
    | kTypeValue =>
      rw [hlow rfl] at h
      exact foundPrev_spec hI hcurrent hdirection h (by simp)
  | cons e before ih =>
    obtain ⟨n, rfl⟩ := Nat.exists_eq_add_of_lt hn
    have hfuel : before.length < (e :: before).length + n := by simp; omega
    obtain ⟨hinner, hprev⟩ := hw.prev_split hI hcurrent (Versions.Behind.unshift h.split)
    rw [findPrevUserEntry, hcurrent]
    dsimp only [List.head?_cons]
    cases hp : e.1.parse with
    | none => exact ih _ hinner hprev hdirection hfuel hlow (h.unread (reading_unparsed hp))
    | some ikey =>
      have huser := (InternalKey.parse_some hp).1
      by_cases hseq : ikey.sequence ≤ sequence
      · simp only [if_pos hseq]
        split_ifs with hbreak
        · cases value_type with
          | kTypeDeletion => exact absurd rfl hbreak.1
          | kTypeValue =>
            rw [hlow rfl] at h
            refine foundPrev_spec hI hcurrent hdirection h fun e' he' => ?_
            obtain rfl := Option.some.inj he'
            exact huser ▸ BytewiseComparator.compare_lt.mp hbreak.2
        · have hgo : saved value_type d = none ∨ ¬ (e.1.user_key : WithTop Bytes) < low := by
            cases value_type with
            | kTypeDeletion => exact .inl rfl
            | kTypeValue =>
              refine .inr fun hlt => hbreak ⟨by decide, ?_⟩
              rw [hlow rfl, WithTop.coe_lt_coe] at hlt
              exact BytewiseComparator.compare_lt.mpr (huser.symm ▸ hlt)
          cases ht : ikey.type with
          | kTypeDeletion =>
            exact ih _ hinner hprev hdirection hfuel (fun h => absurd h (by decide))
              (h.read InternalKey.user_key_mono (reading_deletion hp hseq ht) hgo)
          | kTypeValue =>
            exact ih _ hinner hprev hdirection hfuel (fun _ => rfl)
              (h.read InternalKey.user_key_mono (reading_value hp hseq ht) hgo)
      · simp only [if_neg hseq]
        exact ih _ hinner hprev hdirection hfuel hlow (h.unread (reading_later hp hseq))

theorem leaveKey_spec (hw : it.WalksOn P I m) {e : InternalKey × Bytes} (hI : I d.iter)
    (hcurrent : it.current d.iter = some e) (hsplit : before.reverse ++ e :: after = m.entries)
    (hn : before.length < n) (hafter : ∀ e' ∈ e :: after, d.saved_key ≤ e'.1.user_key) :
    I (leaveKey it n d).1.iter ∧ ∃ before' after', before'.reverse ++ after' = m.entries ∧
      it.current (leaveKey it n d).1.iter = before'.head? ∧ before'.length ≤ before.length ∧
      (∀ e' ∈ after', d.saved_key ≤ e'.1.user_key) ∧
      ((leaveKey it n d).2 = true → (leaveKey it n d).1 = { d with iter := (leaveKey it n d).1.iter } ∧
        ∀ e' ∈ before'.head?, e'.1.user_key < d.saved_key) ∧
      ((leaveKey it n d).2 = false → (leaveKey it n d).1.valid = false ∧ before' = []) := by
  induction before generalizing n d e after with
  | nil =>
    obtain ⟨n, rfl⟩ := Nat.exists_eq_add_of_lt hn
    obtain ⟨hinner, hprev⟩ := hw.prev_split hI hcurrent hsplit
    rw [leaveKey]
    dsimp only
    rw [hprev]
    exact ⟨hinner, [], e :: after, hsplit, hprev, le_rfl, hafter, fun h => absurd h (by simp),
      fun _ => ⟨rfl, rfl⟩⟩
  | cons e' before ih =>
    obtain ⟨n, rfl⟩ := Nat.exists_eq_add_of_lt hn
    obtain ⟨hinner, hprev⟩ := hw.prev_split hI hcurrent hsplit
    have hmoved := Versions.Behind.unshift hsplit
    rw [leaveKey]
    dsimp only
    rw [hprev]
    dsimp only [List.head?_cons]
    split_ifs with hless
    · refine ⟨hinner, e' :: before, e :: after, hsplit, hprev, le_rfl, hafter, fun _ => ⟨rfl, ?_⟩,
        fun h => absurd h (by simp)⟩
      intro x hx
      obtain rfl := Option.some.inj hx
      exact BytewiseComparator.compare_lt.mp hless
    · have hge : d.saved_key ≤ e'.1.user_key :=
        not_lt.mp fun hlt => hless (BytewiseComparator.compare_lt.mpr hlt)
      have hrest : ∀ x ∈ e' :: e :: after, d.saved_key ≤ x.1.user_key :=
        List.forall_mem_cons.mpr ⟨hge, hafter⟩
      have hfuel : before.length < (e' :: before).length + n := by simp; omega
      obtain ⟨hI', before', after', hsplit', hcurrent', hlength, hkeys, hstopped, hended⟩ :=
        ih (d := { d with iter := it.prev d.iter }) _ hinner hprev hmoved hfuel hrest
      exact ⟨hI', before', after', hsplit', hcurrent', hlength.trans (by simp), hkeys, hstopped, hended⟩

theorem start_spec (hw : it.WalksOn P I m) {skipping : Bool} {d' : DBIter σ} (hI : I d.iter)
    (hcurrent : it.current d.iter = after.head?) (hdirection : d.direction = .kForward)
    (hn : m.entries.length < n) (hiter : d'.iter = d.iter) (hinvalid : d'.valid = false)
    (h : Ahead sequence m p (skipped skipping d) before after) :
    let r := if it.valid d.iter then findNextUserEntry it sequence n skipping d else d'
    Shows it sequence I m r ∧ current it r = (snapshotView sequence m).least p := by
  have hlength : after.length ≤ m.entries.length := by simp [← h.split]
  cases after with
  | nil =>
    have hv : it.valid d.iter = false := by simp [Walker.valid, hcurrent]
    rw [hv]
    exact ⟨.invalid (hiter ▸ hI) hinvalid,
      (current_invalid hinvalid).trans (h.ended InternalKey.user_key_mono).symm⟩
  | cons e after =>
    have hv : it.valid d.iter = true := by simp [Walker.valid, hcurrent]
    rw [hv]
    exact findNextUserEntry_spec n hw hI hcurrent hdirection (hlength.trans_lt hn) h

theorem behind_start (hsplit : before.reverse ++ after = m.entries)
    (hdown : ∀ k k' : Bytes, k ≤ k' → p k' = true → p k = true)
    (hwithin : ∀ k, p k = false → newest sequence k before.reverse = none)
    (hbelow : ∀ k, p k = true → newest sequence k after = none) :
    Behind sequence m p ⊤ none before after :=
  ⟨hsplit, hdown, hwithin, fun k hp _ => hbelow k hp, fun k _ hk => absurd hk (by simp),
    fun k hk => absurd hk (by simp), fun _ => rfl⟩

section
variable (hw : it.WalksOn P I m) (hn : m.entries.length < n) (h : Shows it sequence I m d)
include hw hn h

theorem seek_spec (hseq : sequence ≤ kMaxSequence) {target : Bytes}
    (htarget : P (InternalKey.lookup target sequence)) :
    Shows it sequence I m (seek it sequence n target d) ∧
      current it (seek it sequence n target d) =
        (snapshotView sequence m).least (Move.since target) := by
  obtain ⟨hI, before, after, hsplit, hcurrent, hbefore, hafter⟩ :=
    hw.seek_split h.inner htarget
  refine start_spec n hw hI hcurrent rfl hn rfl rfl ⟨hsplit, ?_, ?_, ?_, ?_⟩
  · intro k hk _
    refine Versions.newest_eq_none_iff.mpr fun e he huser => ?_
    by_contra hread
    have hlookup := InternalKey.lookup_le hseq hread
    have hlt := hbefore e (List.mem_reverse.mp he)
    have hle : e.1.user_key ≤ target := InternalKey.user_key_mono hlt.le
    have heq : e.1.user_key = target := le_antisymm hle (huser ▸ Move.since_iff.mp hk)
    exact absurd (heq ▸ hlookup) (not_le.mpr hlt)
  · exact fun k _ hk => absurd hk (by simp [skipped])
  · intro k _ hk
    refine Versions.newest_absent fun e he huser => ?_
    have hge : target ≤ e.1.user_key := InternalKey.user_key_mono (hafter e he)
    exact absurd (huser ▸ hge) (not_le.mpr (Move.since_false_iff.mp hk))
  · exact fun k hk => absurd hk (by simp [skipped])

theorem seekToFirst_spec :
    Shows it sequence I m (seekToFirst it sequence n d) ∧
      current it (seekToFirst it sequence n d) = (snapshotView sequence m).least fun _ => true := by
  obtain ⟨hI, hcurrent⟩ := hw.seekToFirst_split h.inner
  have hahead : Ahead sequence m (fun _ => true) ⊥ [] m.entries :=
    ⟨rfl, fun _ _ _ => rfl, fun k _ hk => absurd hk (by simp), fun k _ hk => absurd hk (by simp),
      fun k hk => absurd hk (by simp)⟩
  exact start_spec n hw hI hcurrent rfl hn rfl rfl hahead

theorem seekToLast_spec :
    Shows it sequence I m (seekToLast it sequence n d) ∧
      current it (seekToLast it sequence n d) =
        (snapshotView sequence m).greatest fun _ => true := by
  obtain ⟨hI, hcurrent⟩ := hw.seekToLast_split h.inner
  have hbehind : Behind sequence m (fun _ => true) ⊤ none m.entries.reverse [] :=
    behind_start (by simp) (fun _ _ _ _ => rfl) (fun k hk => absurd hk (by simp)) fun _ _ => rfl
  exact findPrevUserEntry_spec n hw hI hcurrent rfl (by simpa using hn)
    (fun ht => absurd ht (by decide)) hbehind

omit hw hn h in
theorem next_forward {e : InternalKey × Bytes} (hdir : d.direction = .kForward)
    (hcurrent : it.current d.iter = some e) : next it sequence n d =
      findNextUserEntry it sequence n true { d with saved_key := e.1.user_key } := by
  simp only [next, hdir, hcurrent]

omit hw hn h in
theorem prev_forward {e : InternalKey × Bytes} (hdir : d.direction = .kForward)
    (hcurrent : it.current d.iter = some e) : prev it sequence n d =
      let left := leaveKey it n { d with saved_key := e.1.user_key }
      if left.2 then findPrevUserEntry it sequence n .kTypeDeletion { left.1 with direction := .kReverse }
      else left.1 := by
  simp only [prev, hdir, hcurrent]

theorem next_spec {e : Bytes × Bytes} (he : current it d = some e) :
    Shows it sequence I m (next it sequence n d) ∧
      current it (next it sequence n d) = (snapshotView sequence m).least (Move.above e.1) := by
  have hvalid : d.valid = true := by
    by_contra hnot
    simp [current_invalid (Bool.eq_false_iff.mpr hnot)] at he
  rw [current, if_pos hvalid] at he
  cases hdir : d.direction with
  | kForward =>
    obtain ⟨before, e', after, hsplit, hcurrent, -, -⟩ := h.forward hvalid hdir
    simp only [hdir, hcurrent, Option.map_some, Option.some.injEq] at he
    obtain rfl := he
    have hlength : (e' :: after).length ≤ m.entries.length := by simp [← hsplit]
    obtain ⟨hbefore, hafter⟩ := Versions.keys_around InternalKey.user_key_mono hsplit
    have hahead : Ahead sequence m (Move.above e'.1.user_key) e'.1.user_key before (e' :: after) := by
      refine ⟨hsplit, fun k hk _ => ?_, fun k hk hle => ?_, fun k hlt hk => ?_, fun k hlt => ?_⟩
      · refine Versions.newest_absent fun x hx => ?_
        exact ((hbefore x (List.mem_reverse.mp hx)).trans_lt (Move.above_iff.mp hk)).ne
      · exact absurd (WithBot.coe_le_coe.mp hle) (not_le.mpr (Move.above_iff.mp hk))
      · exact absurd (WithBot.coe_lt_coe.mp hlt) (not_lt.mpr (Move.above_false_iff.mp hk))
      · refine Versions.newest_absent fun x hx => ?_
        have hk := WithBot.coe_lt_coe.mp hlt
        rcases List.mem_cons.mp hx with rfl | hx
        · exact hk.ne'
        · exact (hk.trans_le (hafter x hx)).ne'
    have hhead : it.current d.iter = (e' :: after).head? := hcurrent
    rw [next_forward n hdir hcurrent]
    exact findNextUserEntry_spec n hw h.inner hhead hdir (hlength.trans_lt hn) hahead
  | kReverse =>
    obtain ⟨before, after, hsplit, hcurrent, -, hleft, hright⟩ := h.reverse hvalid hdir
    simp only [hdir, Option.some.injEq] at he
    obtain rfl := he
    have hahead : Ahead sequence m (Move.above d.saved_key) d.saved_key before after := by
      refine ⟨hsplit, fun k hk _ => hleft k (Move.above_iff.mp hk).le, fun k hk hle => ?_,
        fun k hlt hk => ?_, fun k hlt => hright k (WithBot.coe_lt_coe.mp hlt)⟩
      · exact absurd (WithBot.coe_le_coe.mp hle) (not_le.mpr (Move.above_iff.mp hk))
      · exact absurd (WithBot.coe_lt_coe.mp hlt) (not_lt.mpr (Move.above_false_iff.mp hk))
    -- the iterator goes back to where the entries of the key begin
    have hback : I (if it.valid d.iter then it.next d.iter else it.seekToFirst d.iter) ∧
        it.current (if it.valid d.iter then it.next d.iter else it.seekToFirst d.iter) =
          after.head? := by
      cases before with
      | nil =>
        have hv : it.valid d.iter = false := by simp [Walker.valid, hcurrent]
        obtain ⟨hI, hfirst⟩ := hw.seekToFirst_split h.inner
        rw [hv, if_neg (by simp)]
        rw [← hsplit] at hfirst
        exact ⟨hI, hfirst⟩
      | cons x before =>
        have hv : it.valid d.iter = true := by simp [Walker.valid, hcurrent]
        rw [hv, if_pos rfl]
        exact hw.next_split h.inner hcurrent (Versions.Behind.unshift hsplit)
    rw [next, hdir]
    exact start_spec n hw hback.1 hback.2 rfl hn rfl rfl hahead

theorem prev_spec {e : Bytes × Bytes} (he : current it d = some e) :
    Shows it sequence I m (prev it sequence n d) ∧
      current it (prev it sequence n d) = (snapshotView sequence m).greatest (Move.below e.1) := by
  have hvalid : d.valid = true := by
    by_contra hnot
    simp [current_invalid (Bool.eq_false_iff.mpr hnot)] at he
  have hdown (u k k' : Bytes) (hle : k ≤ k') (hk : Move.below u k' = true) : Move.below u k = true :=
    Move.below_iff.mpr (hle.trans_lt (Move.below_iff.mp hk))
  rw [current, if_pos hvalid] at he
  cases hdir : d.direction with
  | kForward =>
    obtain ⟨before, e', after, hsplit, hcurrent, -, -⟩ := h.forward hvalid hdir
    simp only [hdir, hcurrent, Option.map_some, Option.some.injEq] at he
    obtain rfl := he
    have hlength : before.length ≤ m.entries.length := by simp [← hsplit]
    obtain ⟨-, hafter⟩ := Versions.keys_around InternalKey.user_key_mono hsplit
    obtain ⟨hI, before', after', hsplit', hcurrent', hle, hkeys, hstopped, hended⟩ :=
      leaveKey_spec (d := { d with saved_key := e'.1.user_key }) n hw h.inner hcurrent hsplit
        (hlength.trans_lt hn) (List.forall_mem_cons.mpr ⟨le_rfl, hafter⟩)
    have hbelow (k : Bytes) (hk : Move.below e'.1.user_key k = true) :
        newest sequence k after' = none :=
      Versions.newest_absent fun x hx => ((Move.below_iff.mp hk).trans_le (hkeys x hx)).ne'
    rw [prev_forward n hdir hcurrent]
    dsimp only
    split_ifs with hleft
    · obtain ⟨heq, hless⟩ := hstopped hleft
      have hbehind : Behind sequence m (Move.below e'.1.user_key) ⊤ none before' after' := by
        refine behind_start hsplit' (hdown _) (fun k hk => ?_) hbelow
        have hk : e'.1.user_key ≤ k := Move.below_false_iff.mp hk
        cases before' with
        | nil => rfl
        | cons x before' =>
          have hx : x.1.user_key < k := (hless x rfl).trans_le hk
          rw [newest, Versions.newest_passed, Versions.newest_cons_ne hx.ne,
            Versions.Behind.newest_below InternalKey.user_key_mono (Versions.Behind.unshift hsplit') hx]
          rfl
      exact findPrevUserEntry_spec n hw hI hcurrent' rfl ((hle.trans hlength).trans_lt hn)
        (fun ht => absurd ht (by decide)) hbehind
    · obtain ⟨hinvalid, rfl⟩ := hended (Bool.eq_false_iff.mpr hleft)
      have hbehind : Behind sequence m (Move.below e'.1.user_key) ⊤ none [] after' :=
        behind_start hsplit' (hdown _) (fun _ _ => rfl) hbelow
      exact ⟨.invalid hI hinvalid,
        (current_invalid hinvalid).trans (hbehind.ended InternalKey.user_key_mono).symm⟩
  | kReverse =>
    obtain ⟨before, after, hsplit, hcurrent, -, hleft, hright⟩ := h.reverse hvalid hdir
    simp only [hdir, Option.some.injEq] at he
    obtain rfl := he
    have hlength : before.length ≤ m.entries.length := by simp [← hsplit]
    have hbehind : Behind sequence m (Move.below d.saved_key) ⊤ none before after :=
      behind_start hsplit (hdown _) (fun k hk => hleft k (Move.below_false_iff.mp hk))
        fun k hk => hright k (Move.below_iff.mp hk)
    rw [prev, hdir]
    exact findPrevUserEntry_spec n hw h.inner hcurrent hdir (hlength.trans_lt hn)
      (fun ht => absurd ht (by decide)) hbehind

end

theorem shown_mem (h : Shows it sequence I m d) {e : Bytes × Bytes} (he : current it d = some e) :
    e ∈ (snapshotView sequence m).entries := by
  have hvalid : d.valid = true := by
    by_contra hnot
    simp [current_invalid (Bool.eq_false_iff.mpr hnot)] at he
  rw [current, if_pos hvalid] at he
  refine Versions.mem_listed.mpr ?_
  cases hdir : d.direction with
  | kForward =>
    obtain ⟨before, e', after, hsplit, hcurrent, hread, hnone⟩ := h.forward hvalid hdir
    simp only [hdir, hcurrent, Option.map_some, Option.some.injEq] at he
    obtain rfl := he
    rw [newest] at hnone
    rw [Versions.newest_split hsplit, hnone, Versions.newest_cons_self, hread]
    rfl
  | kReverse =>
    obtain ⟨before, after, -, -, hnewest, -, -⟩ := h.reverse hvalid hdir
    simp only [hdir, Option.some.injEq] at he
    obtain rfl := he
    exact hnewest

theorem move_spec (hw : it.WalksOn P I m) (hseq : sequence ≤ kMaxSequence) (hn : m.entries.length < n)
    (h : Shows it sequence I m d) (mv : Move Bytes) (hmv : mv.Allowed (current it d))
    (hseek : mv.SeeksIn fun k => P (InternalKey.lookup k sequence)) :
    Shows it sequence I m ((walker it sequence n).move mv d) ∧
      current it ((walker it sequence n).move mv d) =
        mv.target (snapshotView sequence m) (current it d) := by
  cases mv with
  | seek target => exact seek_spec n hw hn h hseq hseek
  | seekToFirst => exact seekToFirst_spec n hw hn h
  | seekToLast => exact seekToLast_spec n hw hn h
  | next =>
    obtain ⟨e, he⟩ := Option.isSome_iff_exists.mp hmv
    rw [he]
    exact next_spec n hw hn h he
  | prev =>
    obtain ⟨e, he⟩ := Option.isSome_iff_exists.mp hmv
    rw [he]
    exact prev_spec n hw hn h he

theorem walks (hw : it.WalksOn P I m) (hseq : sequence ≤ kMaxSequence) (hn : m.entries.length < n) :
    (walker it sequence n).WalksOn (fun k => P (InternalKey.lookup k sequence))
      (Shows it sequence I m) (snapshotView sequence m) where
  mem _ _ h he := shown_mem h he
  keeps mv _ h hmv hseek := (move_spec n hw hseq hn h mv hmv hseek).1
  target mv _ h hmv hseek := (move_spec n hw hseq hn h mv hmv hseek).2

/-- Whatever moves are made, the iterator shows what a cursor over the records of the store at the
snapshot shows. -/
theorem follows_snapshot (hw : it.Walks I m) (hseq : sequence ≤ kMaxSequence)
    (hn : m.entries.length < n) {iter : σ} (hI : I iter) (moves : List (Move Bytes))
    (hallowed : Trace.Along (walker it sequence n).move (fun mv d => mv.Allowed (current it d)) moves
      (new iter)) :
    current it (Trace.run (walker it sequence n).move moves (new iter)) =
      (Trace.run (Cursor.walker (snapshotView sequence m)).move moves ⟨[], []⟩).current :=
  Walker.Walks.agree (walks n hw hseq hn) (Cursor.walks _) (.invalid hI rfl) (fun hv => absurd hv (by decide)) rfl
    hallowed

theorem follows_snapshot_versions :
    let it := Cursor.walker (OrdMap.ofList
      [(⟨[97], 0x301⟩, [1]), (⟨[97], 0x500⟩, []), (⟨[98], 0x201⟩, [2]), (⟨[99], 0x400⟩, []),
        (⟨[99], 0x101⟩, [3])])
    current it (Trace.run (walker it 4 6).move [.seekToFirst, .next, .prev, .seek [97, 0]]
      (new ⟨[], []⟩)) = some ([98], [2]) := by
  intro it
  have hallowed : Trace.Along (walker it 4 6).move (fun mv d => mv.Allowed (current it d))
    [.seekToFirst, .next, .prev, .seek [97, 0]] (new ⟨[], []⟩) := by decide
  exact (follows_snapshot 6 (Cursor.walks _) (by decide) (by decide) (fun hv => absurd hv (by decide)) _
    hallowed).trans (by decide)

end DBIter
