import Ssdb.Library.OrdMap
import Ssdb.Util.Escape

open Strings

structure IpFilter where
  allowAll : Bool
  denyAll : Bool
  deny : OrdMap Bytes Unit
  allow : OrdMap Bytes Unit

namespace IpFilter

def new : IpFilter := ⟨true, false, OrdMap.empty, OrdMap.empty⟩

def isFullIp (ipPrefix : Bytes) : Bool :=
  (ipPrefix.take (int ipPrefix.length).toNat).count (charByte '.') == 3

def mark (ipPrefix : Bytes) : Bytes :=
  ipPrefix ++ [if isFullIp ipPrefix then charByte '=' else charByte '@']

def everything (ipPrefix : Bytes) : Bool := ipPrefix = asBytes "all" ∨ ipPrefix = asBytes "*"

/-- The comparison with the one entry looked at; nothing when `len` points outside it. -/
def hits (entry ip : Bytes) : Option Bool :=
  let len := int (entry.length - 1)
  if len < 0 then none
  else if entry.getD len.toNat 0 = charByte '=' then some (entry.take len.toNat = ip)
  else if ip.length > len.toNat then some (ip.take len.toNat = entry.take len.toNat)
  else some false

def checkHit (m : OrdMap Bytes Unit) (ip : Bytes) : Option Bool :=
  match m.upperBound ip with
  | none => some false
  | some entry => hits entry ip

def addAllow (F : IpFilter) (ipPrefix : Bytes) : IpFilter :=
  if everything ipPrefix then { F with allowAll := true }
  else { F with allowAll := false, allow := F.allow.insert (mark ipPrefix) () }

def delAllow (F : IpFilter) (ipPrefix : Bytes) : IpFilter :=
  if everything ipPrefix then { F with allowAll := false }
  else { F with allow := F.allow.erase (mark ipPrefix) }

def addDeny (F : IpFilter) (ipPrefix : Bytes) : IpFilter :=
  if everything ipPrefix then { F with denyAll := true }
  else { F with deny := F.deny.insert (mark ipPrefix) () }

def delDeny (F : IpFilter) (ipPrefix : Bytes) : IpFilter :=
  if everything ipPrefix then { F with denyAll := false }
  else { F with deny := F.deny.erase (mark ipPrefix) }

def checkPass (F : IpFilter) (ip : Bytes) : Option Bool := do
  if ← checkHit F.deny ip then return false
  if ← checkHit F.allow ip then return true
  if F.denyAll then return false
  return F.allowAll

end IpFilter

inductive IpCall where
  | addAllow (ipPrefix : Bytes)
  | delAllow (ipPrefix : Bytes)
  | addDeny (ipPrefix : Bytes)
  | delDeny (ipPrefix : Bytes)

namespace IpCall

def ipPrefix : IpCall → Bytes
  | addAllow e => e
  | delAllow e => e
  | addDeny e => e
  | delDeny e => e

def apply (F : IpFilter) : IpCall → IpFilter
  | addAllow e => F.addAllow e
  | delAllow e => F.delAllow e
  | addDeny e => F.addDeny e
  | delDeny e => F.delDeny e

end IpCall

namespace IpFilter

def after (calls : List IpCall) : IpFilter := calls.foldl IpCall.apply new

end IpFilter

structure Rules where
  allowAll : Bool
  denyAll : Bool
  deny : Set Bytes
  allow : Set Bytes

namespace Rules

def new : Rules := ⟨true, false, ∅, ∅⟩

def apply (R : Rules) : IpCall → Rules
  | .addAllow e =>
    if IpFilter.everything e then { R with allowAll := true }
    else { R with allowAll := false, allow := insert e R.allow }
  | .delAllow e =>
    if IpFilter.everything e then { R with allowAll := false } else { R with allow := R.allow \ {e} }
  | .addDeny e =>
    if IpFilter.everything e then { R with denyAll := true } else { R with deny := insert e R.deny }
  | .delDeny e =>
    if IpFilter.everything e then { R with denyAll := false } else { R with deny := R.deny \ {e} }

def after (calls : List IpCall) : Rules := calls.foldl apply new

def Matches (e ip : Bytes) : Prop :=
  if e.count (charByte '.') = 3 then e = ip else e <+: ip ∧ e ≠ ip

def Hit (S : Set Bytes) (ip : Bytes) : Prop := ∃ e ∈ S, Matches e ip

open Classical in
noncomputable def pass (R : Rules) (ip : Bytes) : Bool :=
  if Hit R.deny ip then false
  else if Hit R.allow ip then true
  else if R.denyAll then false
  else R.allowAll

def Shadowed (S : Set Bytes) (ip : Bytes) : Prop :=
  Hit S ip ∧ ∃ e ∈ S, ¬ Matches e ip ∧ ip < IpFilter.mark e ∧
    ∀ f ∈ S, Matches f ip → IpFilter.mark e < IpFilter.mark f

def LetIn (R : Rules) (ip : Bytes) : Prop :=
  Shadowed R.deny ip ∧
    ((Hit R.allow ip ∧ ¬ Shadowed R.allow ip) ∨ (R.denyAll = false ∧ R.allowAll = true))

def ShutOut (R : Rules) (ip : Bytes) : Prop :=
  ¬ Hit R.deny ip ∧ Shadowed R.allow ip ∧ (R.denyAll = true ∨ R.allowAll = false)

end Rules

namespace IpFilter
open Rules

def Numeric (s : Bytes) : Prop := ∀ c ∈ s, isdigit c ∨ c = charByte '.'

theorem isFullIp_iff {e : Bytes} (h : e.length < 2 ^ 31) :
    isFullIp e = true ↔ e.count (charByte '.') = 3 := by
  rw [isFullIp, take_int e h, beq_iff_eq]

theorem mark_injective {e f : Bytes} (h : mark e = mark f) : e = f := by
  rw [mark, mark] at h
  exact (List.append_inj' h (by simp only [List.length_singleton])).1

theorem hits_mark {e : Bytes} (h : e.length < 2 ^ 31) (ip : Bytes) :
    ∃ hit, hits (mark e) ip = some hit ∧ (hit = true ↔ Matches e ip) := by
  have hlen : int ((mark e).length - 1) = e.length := by
    rw [mark, List.length_append, List.length_singleton, Nat.add_sub_cancel, int_size h]
  have hlast : (mark e).getD e.length 0 =
      if isFullIp e then charByte '=' else charByte '@' := by
    rw [mark, List.getD_eq_getElem?_getD, List.getElem?_append_right le_rfl, Nat.sub_self]
    rfl
  have htake : (mark e).take e.length = e := by rw [mark, List.take_left]
  rw [hits]
  simp only [hlen, Int.toNat_natCast, hlast, htake]
  rw [if_neg (by omega)]
  by_cases hf : isFullIp e = true
  · have h3 := (isFullIp_iff h).mp hf
    exact ⟨_, by rw [if_pos hf, if_pos rfl], by simp [Matches, h3]⟩
  · have h3 := mt (isFullIp_iff h).mpr hf
    have hne : charByte '@' ≠ charByte '=' := by decide
    rw [if_neg hf, if_neg hne]
    simp only [Matches, if_neg h3]
    split_ifs with hl
    · refine ⟨_, rfl, ?_⟩
      rw [decide_eq_true_eq, List.prefix_iff_eq_take]
      constructor
      · exact fun ht => ⟨ht.symm, fun he => by rw [he] at hl; omega⟩
      · exact fun ht => ht.1.symm
    · refine ⟨_, rfl, ?_⟩
      simp only [Bool.false_eq_true, false_iff, not_and, not_not]
      exact fun hp => hp.eq_of_length (le_antisymm hp.length_le (by omega))

theorem lt_mark {e ip : Bytes} (hip : Numeric ip) (h : Matches e ip) : ip < mark e := by
  have hpre : e <+: ip := by
    rw [Matches] at h
    split_ifs at h
    · exact h ▸ List.prefix_rfl
    · exact h.1
  obtain ⟨rest, rfl⟩ := hpre
  rw [mark, Lexicographic.append_lt_append_iff]
  cases rest with
  | nil => simp
  | cons c rest =>
    have hc := hip c (by simp)
    refine List.cons_lt_cons_iff.mpr (.inl (lt_of_lt_of_le (b := charByte '=') ?_ ?_))
    · rcases hc with hc | rfl
      · simp only [isdigit, decide_eq_true_eq] at hc
        exact Fin.lt_def.mpr (lt_of_le_of_lt hc.2 (by decide))
      · decide
    · split_ifs <;> decide

structure Tracks (m : OrdMap Bytes Unit) (S : Set Bytes) : Prop where
  keys : ∀ k, k ∈ m.keys ↔ ∃ e ∈ S, mark e = k
  fits : ∀ e ∈ S, e.length < 2 ^ 31

theorem checkHit_iff {m : OrdMap Bytes Unit} {S : Set Bytes} (h : Tracks m S) {ip : Bytes}
    (hip : Numeric ip) :
    ∃ hit, checkHit m ip = some hit ∧ (hit = true ↔ Hit S ip ∧ ¬ Shadowed S ip) := by
  rw [checkHit]
  cases hub : m.upperBound ip with
  | none =>
    refine ⟨false, rfl, ?_⟩
    simp only [Bool.false_eq_true, false_iff, not_and]
    rintro ⟨e, he, hmatch⟩
    exact absurd (lt_mark hip hmatch)
      (OrdMap.upperBound_none hub _ ((h.keys _).mpr ⟨e, he, rfl⟩))
  | some k =>
    obtain ⟨hk, hless, hleast⟩ := OrdMap.upperBound_some hub
    obtain ⟨e, he, rfl⟩ := (h.keys k).mp hk
    obtain ⟨hit, hhits, hmatch⟩ := hits_mark (h.fits e he) ip
    refine ⟨hit, hhits, hmatch.trans ⟨fun hm => ⟨⟨e, he, hm⟩, ?_⟩, fun hm => ?_⟩⟩
    · rintro ⟨-, e', he', -, hless', hbefore⟩
      have hfirst := hleast _ ((h.keys _).mpr ⟨e', he', rfl⟩) hless'
      exact absurd (hbefore e he hm) (not_lt.mpr hfirst)
    · by_contra hnot
      refine hm.2 ⟨hm.1, e, he, hnot, hless, fun f hf hfm => ?_⟩
      have hfirst := hleast _ ((h.keys _).mpr ⟨f, hf, rfl⟩) (lt_mark hip hfm)
      refine lt_of_le_of_ne hfirst fun heq => hnot ?_
      rw [mark_injective heq]
      exact hfm

theorem tracks_empty : Tracks OrdMap.empty ∅ where
  keys k := by simp [OrdMap.keys, OrdMap.empty]
  fits e he := absurd he (by simp)

theorem Tracks.insert {m : OrdMap Bytes Unit} {S : Set Bytes} (h : Tracks m S) {e : Bytes}
    (he : e.length < 2 ^ 31) : Tracks (m.insert (mark e) ()) (Insert.insert e S) where
  keys k := by
    have hk := h.keys k
    rw [OrdMap.mem_keys_iff] at hk ⊢
    rw [OrdMap.get_insert]
    simp only [Set.mem_insert_iff, exists_eq_or_imp, ← hk]
    split_ifs with heq
    · simp [heq]
    · simp [Ne.symm heq]
  fits f hf := by
    rcases hf with rfl | hf
    · exact he
    · exact h.fits f hf

theorem Tracks.erase {m : OrdMap Bytes Unit} {S : Set Bytes} (h : Tracks m S) (e : Bytes) :
    Tracks (m.erase (mark e)) (S \ {e}) where
  keys k := by
    have hk := h.keys k
    rw [OrdMap.mem_keys_iff] at hk ⊢
    rw [OrdMap.get_erase]
    split_ifs with heq
    · simp only [ne_eq, not_true_eq_false, false_iff, not_exists, not_and]
      exact fun f hf hmark => hf.2 (mark_injective (hmark.trans heq))
    · rw [hk]
      constructor
      · rintro ⟨f, hf, rfl⟩
        exact ⟨f, ⟨hf, fun hfe => heq (by rw [Set.mem_singleton_iff.mp hfe])⟩, rfl⟩
      · rintro ⟨f, hf, hmark⟩
        exact ⟨f, hf.1, hmark⟩
  fits f hf := h.fits f hf.1

structure Keeps (F : IpFilter) (R : Rules) : Prop where
  allowAll : F.allowAll = R.allowAll
  denyAll : F.denyAll = R.denyAll
  deny : Tracks F.deny R.deny
  allow : Tracks F.allow R.allow

theorem Keeps.apply {F : IpFilter} {R : Rules} (h : Keeps F R) (c : IpCall)
    (hc : c.ipPrefix.length < 2 ^ 31) : Keeps (c.apply F) (R.apply c) := by
  cases c with
  | addAllow e =>
    simp only [IpCall.apply, Rules.apply, addAllow]
    split_ifs
    · exact ⟨rfl, h.denyAll, h.deny, h.allow⟩
    · exact ⟨rfl, h.denyAll, h.deny, h.allow.insert hc⟩
  | delAllow e =>
    simp only [IpCall.apply, Rules.apply, delAllow]
    split_ifs
    · exact ⟨rfl, h.denyAll, h.deny, h.allow⟩
    · exact ⟨h.allowAll, h.denyAll, h.deny, h.allow.erase e⟩
  | addDeny e =>
    simp only [IpCall.apply, Rules.apply, addDeny]
    split_ifs
    · exact ⟨h.allowAll, rfl, h.deny, h.allow⟩
    · exact ⟨h.allowAll, h.denyAll, h.deny.insert hc, h.allow⟩
  | delDeny e =>
    simp only [IpCall.apply, Rules.apply, delDeny]
    split_ifs
    · exact ⟨h.allowAll, rfl, h.deny, h.allow⟩
    · exact ⟨h.allowAll, h.denyAll, h.deny.erase e, h.allow⟩

theorem keeps_foldl {calls : List IpCall} (hcalls : ∀ c ∈ calls, c.ipPrefix.length < 2 ^ 31)
    {F : IpFilter} {R : Rules} (h : Keeps F R) :
    Keeps (calls.foldl IpCall.apply F) (calls.foldl Rules.apply R) := by
  induction calls generalizing F R with
  | nil => exact h
  | cons c calls ih =>
    exact ih (fun c' hc' => hcalls c' (by simp [hc'])) (h.apply c (hcalls c (by simp)))

theorem keeps_after {calls : List IpCall} (hcalls : ∀ c ∈ calls, c.ipPrefix.length < 2 ^ 31) :
    Keeps (after calls) (Rules.after calls) :=
  keeps_foldl hcalls ⟨rfl, rfl, tracks_empty, tracks_empty⟩

theorem pass_iff (R : Rules) (ip : Bytes) : R.pass ip = true ↔
    ¬ Hit R.deny ip ∧ (Hit R.allow ip ∨ (R.denyAll = false ∧ R.allowAll = true)) := by
  unfold Rules.pass
  split_ifs with hd ha hall
  · simp [hd]
  · simp [hd, ha]
  · simp [hd, ha, hall]
  · simp [hd, ha, hall]

theorem checkPass_eq {F : IpFilter} {ip : Bytes} {denied allowed : Bool}
    (hd : checkHit F.deny ip = some denied) (ha : checkHit F.allow ip = some allowed) :
    F.checkPass ip = some (!denied && (allowed || (!F.denyAll && F.allowAll))) := by
  rw [checkPass, hd, ha]
  cases denied <;> cases allowed <;> cases F.denyAll <;> rfl

/-- The filter answers by its rules exactly when no shadowed rule would have changed the answer. -/
theorem checkPass_iff {calls : List IpCall} (hcalls : ∀ c ∈ calls, c.ipPrefix.length < 2 ^ 31)
    {ip : Bytes} (hip : Numeric ip) :
    (after calls).checkPass ip = some ((Rules.after calls).pass ip) ↔
      ¬ LetIn (Rules.after calls) ip ∧ ¬ ShutOut (Rules.after calls) ip := by
  have h := keeps_after hcalls
  generalize after calls = F at h ⊢
  generalize Rules.after calls = R at h ⊢
  obtain ⟨denied, hdeq, hd⟩ := checkHit_iff h.deny hip
  obtain ⟨allowed, haeq, ha⟩ := checkHit_iff h.allow hip
  rw [checkPass_eq hdeq haeq, h.denyAll, h.allowAll, Option.some.injEq, LetIn, ShutOut]
  have hsd : Shadowed R.deny ip → Hit R.deny ip := And.left
  have hsa : Shadowed R.allow ip → Hit R.allow ip := And.left
  rw [Bool.eq_iff_iff, pass_iff]
  simp only [Bool.and_eq_true, Bool.or_eq_true, Bool.not_eq_true', ← Bool.not_eq_true, hd, ha]
  by_cases hD : Hit R.deny ip
  · -- the rules keep the address out; only a shadowed deny rule can let it in
    simp only [hD, not_true_eq_false, false_and, not_false_eq_true, and_true, true_and, iff_false,
      not_and, not_or, not_not]
  · have hSD := mt hsd hD
    simp only [hD, hSD, false_and, not_false_eq_true, true_and]
    by_cases hA : Hit R.allow ip
    · simp only [hA, true_and, true_or, iff_true]
      cases R.denyAll <;> cases R.allowAll <;> simp
    · simp only [hA, mt hsa hA, false_and, false_or, not_false_eq_true]

theorem checkPass_iff_prefix :
    (after [.addAllow (asBytes "10.0"), .delAllow (asBytes "10.0.7")]).checkPass
        (asBytes "10.0.7.1") = some ((Rules.after [.addAllow (asBytes "10.0"),
          .delAllow (asBytes "10.0.7")]).pass (asBytes "10.0.7.1")) ↔
      ¬ LetIn (Rules.after [.addAllow (asBytes "10.0"), .delAllow (asBytes "10.0.7")])
          (asBytes "10.0.7.1") ∧
        ¬ ShutOut (Rules.after [.addAllow (asBytes "10.0"), .delAllow (asBytes "10.0.7")])
          (asBytes "10.0.7.1") :=
  checkPass_iff (by decide) (by unfold Numeric; decide +kernel)

theorem checkPass_shadowed :
    (after [.addDeny (asBytes "1.2.3.4"), .addDeny (asBytes "1.2.3.45")]).checkPass
        (asBytes "1.2.3.4") ≠
      some ((Rules.after [.addDeny (asBytes "1.2.3.4"), .addDeny (asBytes "1.2.3.45")]).pass
        (asBytes "1.2.3.4")) := by
  have hcode : (after [.addDeny (asBytes "1.2.3.4"), .addDeny (asBytes "1.2.3.45")]).checkPass
      (asBytes "1.2.3.4") = some true := by decide +kernel
  have hdeny : asBytes "1.2.3.4" ∈
      (Rules.after [.addDeny (asBytes "1.2.3.4"), .addDeny (asBytes "1.2.3.45")]).deny := by
    change asBytes "1.2.3.4" ∈ insert (asBytes "1.2.3.45") (insert (asBytes "1.2.3.4") ∅)
    simp
  have hmatch : Matches (asBytes "1.2.3.4") (asBytes "1.2.3.4") := by
    rw [Matches, if_pos (by decide)]
  have hrule : (Rules.after [.addDeny (asBytes "1.2.3.4"), .addDeny (asBytes "1.2.3.45")]).pass
      (asBytes "1.2.3.4") = false := by
    rw [← Bool.not_eq_true, pass_iff]
    exact fun h => h.1 ⟨_, hdeny, hmatch⟩
  rw [hcode, hrule]
  decide

end IpFilter
