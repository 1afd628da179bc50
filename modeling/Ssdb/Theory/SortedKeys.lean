import Ssdb.Api.Extension
import Ssdb.Theory.HashSize

namespace SSDB
open SSDBImpl HashTable

def record (e : List Char × Bytes) : Bytes × Bytes := (utf8 e.1, e.2)

def hasData (e : List Char × Bytes) : Bool := e.2 ≠ []

section rounds
variable {α : Type} {visit : Bytes → Bytes → α → Option α} {add : α → List Char × Bytes → α}
  {fields : List (List Char × Bytes)} {it : HIterator} {found : α}

def seen (visit : Bytes → Bytes → α → Option α) (e : Bytes × Bytes) (found : α) : Option α :=
  if e.1.length ≠ 0 ∧ e.2.length ≠ 0 then visit e.1 e.2 found else some found

theorem seen_record (hvisit : ∀ e ∈ fields, ∀ found, visit (utf8 e.1) e.2 found = some (add found e))
    {e : List Char × Bytes} (he : e ∈ fields) (hkey : utf8 e.1 ≠ []) (found : α) :
    seen visit (record e) found = some (if e.2 ≠ [] then add found e else found) := by
  have hlen : (utf8 e.1).length ≠ 0 := fun h => hkey (List.length_eq_zero_iff.mp h)
  simp only [seen, record, hlen, ne_eq, List.length_eq_zero_iff, not_false_eq_true, true_and,
    hvisit e he]
  split_ifs <;> rfl

theorem rounds_exit (hvisit : ∀ e ∈ fields, ∀ found, visit (utf8 e.1) e.2 found = some (add found e))
    (hkeys : ∀ e ∈ fields, utf8 e.1 ≠ []) (hrest : it.rest = fields.map record) {found' : α}
    (hseen : seen visit (it.key, it.val) found = some found') :
    Loop.Exits (fieldRound visit) (it, found)
      (some ((fields.filter hasData).foldl add found')) := by
  induction fields generalizing it found found' with
  | nil =>
    rcases it.next_rest with ⟨-, it', hnext⟩ | ⟨a, l, it', hcons, -⟩
    · refine .stop ?_
      rw [seen] at hseen
      simp only [fieldRound, hseen, hnext]
      rfl
    · exact absurd (hcons.symm.trans hrest) (by simp)
  | cons e fields ih =>
    rcases it.next_rest with ⟨hnil, -⟩ | ⟨a, l, it', hcons, hnext, hitem, hleft⟩
    · exact absurd (hnil.symm.trans hrest) (by simp)
    · obtain ⟨rfl, rfl⟩ := List.cons.inj (hcons.symm.trans hrest)
      have hround : fieldRound visit (it, found) = .inl (it', found') := by
        rw [seen] at hseen
        simp only [fieldRound, hseen, hnext]
      have hseen' : seen visit (it'.key, it'.val) found' =
          some (if e.2 ≠ [] then add found' e else found') := by
        rw [hitem]
        exact seen_record hvisit (List.mem_cons_self ..) (hkeys e (List.mem_cons_self ..)) found'
      have hexits := ih (fun e he => hvisit e (List.mem_cons_of_mem _ he))
        (fun e he => hkeys e (List.mem_cons_of_mem _ he)) hleft hseen'
      refine .next hround ?_
      rcases eq_or_ne e.2 [] with hdata | hdata
      · rw [if_neg (not_not.mpr hdata)] at hexits
        rwa [List.filter_cons_of_neg (by simp [hasData, hdata])]
      · rw [if_pos hdata] at hexits
        rwa [List.filter_cons_of_pos (p := hasData) (decide_eq_true hdata), List.foldl_cons]

end rounds

theorem putKey_text (atEnd : Bool) {e : List Char × Bytes} (h : '\x00' ∉ e.1)
    (array : List (List Char)) : putKey atEnd (utf8 e.1) e.2 array =
      some (if atEnd then array ++ [e.1] else e.1 :: array) := by
  rw [putKey, stringWithUTF8String_utf8 h]
  rfl

theorem putData_text {e : List Char × Bytes} (h : '\x00' ∉ e.1) (dic : OrdMap (List Char) Bytes) :
    putData (utf8 e.1) e.2 dic = some (dic.insert e.1 e.2) := by
  rw [putData, stringWithUTF8String_utf8 h]

theorem foldl_putKey (atEnd : Bool) (fields : List (List Char × Bytes)) (array : List (List Char)) :
    fields.foldl (fun array e => if atEnd then array ++ [e.1] else e.1 :: array) array =
      if atEnd then array ++ fields.map Prod.fst else (fields.map Prod.fst).reverse ++ array := by
  induction fields generalizing array with
  | nil => cases atEnd <;> simp
  | cons e fields ih =>
    rw [List.foldl_cons, ih]
    cases atEnd <;> simp

inductive TableCall
  | hSet (table aValue : Bytes) (aKey : List Char)
  | hDel (table : Bytes) (aKey : List Char)
deriving DecidableEq, Repr

def TableCall.exec (w : SSDBImpl) : TableCall → SSDBImpl
  | .hSet table aValue aKey => (SSDB.hSet table aValue (utf8 aKey) w).2
  | .hDel table aKey => (SSDB.hDel table (utf8 aKey) w).2

def stored (cs : List TableCall) (w : SSDBImpl) : SSDBImpl := cs.foldl TableCall.exec w

def Texts (H : HashTable) : Prop := ∀ n k, (H n).get k ≠ none → ∃ text, '\x00' ∉ text ∧ k = utf8 text

structure Written (w : SSDBImpl) (H : HashTable) : Prop where
  holds : Holds True w H
  texts : Texts H
  faults : w.faults = Faults.none

theorem cString_text (aKey : List Char) : ∃ text, '\x00' ∉ text ∧ cString (utf8 aKey) = utf8 text := by
  refine ⟨aKey.takeWhile (fun c => c ≠ '\x00'), fun hmem => ?_, cString_utf8 aKey⟩
  exact of_decide_eq_true (List.mem_takeWhile_imp (p := fun c => decide (c ≠ '\x00')) hmem) rfl

theorem texts_set {H : HashTable} (hH : Texts H) (n aValue : Bytes) (aKey : List Char) :
    Texts (H.set n (cString (utf8 aKey)) aValue) := by
  intro m k hk
  rw [HashTable.set] at hk
  split_ifs at hk with ha
  · rw [get_put] at hk
    split_ifs at hk with hmk
    · rw [hmk.2]
      exact cString_text aKey
    · exact hH m k hk
  · exact hH m k hk

theorem texts_remove {H : HashTable} (hH : Texts H) (n l : Bytes) : Texts (H.remove n l) := by
  intro m k hk
  rw [get_remove] at hk
  split_ifs at hk
  · exact absurd rfl hk
  · exact hH m k hk

theorem exec_written (c : TableCall) {w : SSDBImpl} {H : HashTable} (h : Written w H) :
    ∃ H', Written (c.exec w) H' := by
  have hget : w.faults.get = [] := by
    rw [h.faults]
    rfl
  cases c with
  | hSet table aValue aKey =>
    refine ⟨_, hset_holds aValue h.holds h.faults, texts_set h.texts _ _ _, ?_⟩
    change (hset (cString table) (cString (utf8 aKey)) aValue BinlogType.SYNC w).2.faults = _
    rw [hset_plan _ _ _ _ hget]
    exact (Plan.run_answered w _ h.faults).2
  | hDel table aKey =>
    refine ⟨_, hdel_holds h.holds h.faults, texts_remove h.texts _ _, ?_⟩
    change (hdel (cString table) (cString (utf8 aKey)) BinlogType.SYNC w).2.faults = _
    rw [hdel_plan _ _ _ hget]
    exact (Plan.run_answered w _ h.faults).2

theorem stored_written (cs : List TableCall) {w : SSDBImpl} {H : HashTable} (h : Written w H) :
    ∃ H', Written (stored cs w) H' := by
  induction cs generalizing w H with
  | nil => exact ⟨H, h⟩
  | cons c cs ih =>
    obtain ⟨H', h'⟩ := exec_written c h
    exact ih h'

theorem fresh_written (enabled : Bool) (capacity : Int32) :
    Written (fresh enabled capacity) (fun _ => OrdMap.empty) where
  holds := fresh_holds enabled capacity
  texts _ _ h := absurd rfl h
  faults := rfl

structure Lists (H : HashTable) (n : Bytes) (fields : List (List Char × Bytes)) : Prop where
  entries : (H n).entries = fields.map record
  plain : ∀ e ∈ fields, '\x00' ∉ e.1

theorem exists_record {es : List (Bytes × Bytes)}
    (h : ∀ e ∈ es, ∃ text, '\x00' ∉ text ∧ e.1 = utf8 text) :
    ∃ fields : List (List Char × Bytes), es = fields.map record ∧ ∀ e ∈ fields, '\x00' ∉ e.1 := by
  induction es with
  | nil => exact ⟨[], rfl, by simp⟩
  | cons e es ih =>
    obtain ⟨text, hplain, htext⟩ := h e (List.mem_cons_self ..)
    obtain ⟨fields, hfields, hrest⟩ := ih fun e' he' => h e' (List.mem_cons_of_mem _ he')
    refine ⟨(text, e.2) :: fields, ?_, List.forall_mem_cons.mpr ⟨hplain, hrest⟩⟩
    rw [List.map_cons, ← hfields, record, ← htext]

theorem Texts.lists {H : HashTable} (hH : Texts H) (n : Bytes) : ∃ fields, Lists H n fields := by
  have htexts : ∀ e ∈ (H n).entries, ∃ text, '\x00' ∉ text ∧ e.1 = utf8 text := by
    intro e he
    have hget := (OrdMap.mem_entries_iff (H n) e.1 e.2).mp he
    exact hH n e.1 (by rw [hget]; exact Option.some_ne_none _)
  obtain ⟨fields, hfields, hplain⟩ := exists_record htexts
  exact ⟨fields, hfields, hplain⟩

def picked (fields : List (List Char × Bytes)) (up : Bool) (c : ℕ) : List (List Char) :=
  ((if up then fields.take c else fields.reverse.take c).filter hasData).map Prod.fst

section listing
variable {w : SSDBImpl} {H : HashTable} {n table : Bytes} {fields part : List (List Char × Bytes)}

theorem Lists.sorted (h : Lists H n fields) : fields.Pairwise (fun p q => utf8 p.1 < utf8 q.1) := by
  have hentries := (H n).sorted
  rw [h.entries, List.pairwise_map] at hentries
  exact hentries

theorem Lists.nodup (h : Lists H n fields) : (fields.map Prod.fst).Nodup :=
  List.pairwise_map.mpr (h.sorted.imp fun hlt heq => (congrArg utf8 heq ▸ hlt).false)

theorem Lists.key (hF : Fields w.ldb.data H) (h : Lists H n fields) {e : List Char × Bytes}
    (he : e ∈ fields) : utf8 e.1 ≠ [] := by
  have hmem : record e ∈ (H n).entries := by
    rw [h.entries]
    exact List.mem_map_of_mem he
  exact fields_nonempty hF hmem

theorem hscan_record (hF : Fields w.ldb.data H) (h : Lists H n fields) (limit : UInt64) :
    (hscan n [] [] limit w).1.rest = (fields.take limit.toNat).map record := by
  rw [hscan_rest hF, h.entries, List.map_take]

theorem hrscan_record (hF : Fields w.ldb.data H) (h : Lists H n fields) (limit : UInt64) :
    (hrscan n [] [] limit w).1.rest = (fields.reverse.take limit.toNat).map record := by
  have hall : (H n).entries.filter (LevelDB.betweenDown [255] []) = (H n).entries := by
    refine List.filter_eq_self.mpr fun e he => ?_
    rw [h.entries] at he
    obtain ⟨e', -, rfl⟩ := List.mem_map.mp he
    exact decide_eq_true ⟨utf8_lt e'.1, .inl rfl⟩
  rw [hrscan_fields hF, if_pos rfl, hall, h.entries, List.map_take, List.map_reverse]

theorem putKey_exits (hF : Fields w.ldb.data H) (h : Lists H n fields) (hpart : part ⊆ fields)
    {it : HIterator} (hrest : it.rest = part.map record) (hkey : it.key = []) (atEnd : Bool) :
    Loop.Exits (fieldRound (putKey atEnd)) (it, [])
      (some (if atEnd then (part.filter hasData).map Prod.fst
        else ((part.filter hasData).map Prod.fst).reverse)) := by
  have hseen : seen (putKey atEnd) (it.key, it.val) [] = some [] := by
    rw [seen, hkey]
    rfl
  have hexits := rounds_exit (fun e he => putKey_text atEnd (h.plain e (hpart he)))
    (fun e he => h.key hF (hpart he)) hrest hseen
  rw [foldl_putKey] at hexits
  simpa using hexits

theorem count_toNat {count : Int64} (h : 0 ≤ count.toInt) :
    count.toUInt64.toNat = count.toInt.toNat := by
  have hword := Endian.toInt_toUInt64 count
  have hlt := count.toUInt64.toNat_lt
  omega

theorem picked_exits (hF : Fields w.ldb.data H) (h : Lists H (cString table) fields)
    {count : Int64} (hcount : 0 ≤ count.toInt) (up atEnd : Bool) :
    Loop.Exits (fieldRound (putKey atEnd))
      ((if up then hscan (cString table) [] [] count.toUInt64 w
        else hrscan (cString table) [] [] count.toUInt64 w).1, [])
      (some (if atEnd then picked fields up count.toInt.toNat
        else (picked fields up count.toInt.toNat).reverse)) := by
  cases up with
  | true =>
    have hrest := hscan_record hF h count.toUInt64
    rw [count_toNat hcount] at hrest
    exact putKey_exits hF h (List.take_subset _ _) hrest rfl atEnd
  | false =>
    have hrest := hrscan_record hF h count.toUInt64
    rw [count_toNat hcount] at hrest
    have hpart : fields.reverse.take count.toInt.toNat ⊆ fields := fun e he =>
      List.mem_reverse.mp (List.take_subset _ _ he)
    exact putKey_exits hF h hpart hrest rfl atEnd

theorem ascending_returns (hF : Fields w.ldb.data H) (h : Lists H (cString table) fields)
    {count : Int64} (hcount : 0 ≤ count.toInt) (ascending : Bool) :
    hGetStringSortedKeyAscending table count ascending w
      (some (if ascending then picked fields true count.toInt.toNat
        else (picked fields false count.toInt.toNat).reverse)) := by
  cases ascending with
  | true => exact picked_exits hF h hcount true true
  | false => exact picked_exits hF h hcount false false

theorem descending_returns (hF : Fields w.ldb.data H) (h : Lists H (cString table) fields)
    {count : Int64} (hcount : 0 ≤ count.toInt) (descending : Bool) :
    hGetStringSortedKeyDescending table count descending w
      (some (if descending then picked fields false count.toInt.toNat
        else (picked fields true count.toInt.toNat).reverse)) := by
  cases descending with
  | true => exact picked_exits hF h hcount false true
  | false => exact picked_exits hF h hcount true false

theorem allData_returns (hF : Fields w.ldb.data H) (h : Lists H (cString table) fields)
    (hlen : fields.length < 2 ^ 63) :
    hGetAllData table w (some (.ofList (fields.filter hasData))) := by
  have hlimit : UInt64.toNat (-1) = 2 ^ 64 - 1 := by decide
  have hrest := hscan_record hF h (-1)
  rw [hlimit, List.take_of_length_le (by omega)] at hrest
  have hseen : seen putData ((hscan (cString table) [] [] (-1) w).1.key,
      (hscan (cString table) [] [] (-1) w).1.val) OrdMap.empty = some OrdMap.empty := rfl
  exact rounds_exit (fun e he => putData_text (h.plain e he)) (fun e he => h.key hF he) hrest hseen

theorem filter_hasData_iff (part : List (List Char × Bytes)) :
    (part.filter hasData).map Prod.fst = part.map Prod.fst ↔ ∀ e ∈ part, e.2 ≠ [] := by
  constructor
  · intro h e he
    have hlen := congrArg List.length h
    rw [List.length_map, List.length_map] at hlen
    exact of_decide_eq_true (List.length_filter_eq_length_iff.mp hlen e he)
  · intro h
    have hall : part.filter hasData = part :=
      List.filter_eq_self.mpr fun e he => decide_eq_true (h e he)
    rw [hall]

theorem picked_reverse (fields : List (List Char × Bytes)) (c : ℕ) :
    (picked fields false c).reverse =
      ((fields.drop (fields.length - c)).filter hasData).map Prod.fst := by
  simp only [picked, Bool.false_eq_true, if_false, List.take_reverse, List.filter_reverse,
    List.map_reverse, List.reverse_reverse]

structure Holdings (table : Bytes) (w : SSDBImpl) (fields : List (List Char × Bytes)) : Prop where
  sorted : fields.Pairwise (fun p q => utf8 p.1 < utf8 q.1)
  field : ∀ key data, (hget (cString table) key w).1 = (1, some data) ↔
    ∃ text, key = utf8 text ∧ (text, data) ∈ fields
  size : (hSize table w).1.toInt = fields.length

structure Listed (table : Bytes) (count : Int64) (w : SSDBImpl)
    (fields : List (List Char × Bytes)) : Prop where
  first : hGetStringSortedKeyAscending table count true w
    (some ((fields.take count.toInt.toNat).map Prod.fst))
  last : hGetStringSortedKeyAscending table count false w
    (some ((fields.drop (fields.length - count.toInt.toNat)).map Prod.fst))
  mirrored : ∀ descending, ∃ names,
    hGetStringSortedKeyAscending table count (!descending) w (some names) ∧
      hGetStringSortedKeyDescending table count descending w (some names.reverse)
  all : ∃ dic, hGetAllData table w (some dic) ∧ dic.size = fields.length ∧
    ∀ key data, dic.get key = some data ↔ (key, data) ∈ fields

theorem listed_iff {count : Int64} {ascending : Bool} (h : hGetStringSortedKeyAscending table count
      ascending w (some ((part.filter hasData).map Prod.fst))) :
    hGetStringSortedKeyAscending table count ascending w (some (part.map Prod.fst)) ↔
      ∀ e ∈ part, e.2 ≠ [] := by
  rw [← filter_hasData_iff]
  constructor
  · intro hlisted
    exact Option.some.inj (Loop.Exits.unique h hlisted)
  · intro hnames
    rw [← hnames]
    exact h

theorem first_iff (hF : Fields w.ldb.data H) (h : Lists H (cString table) fields) {count : Int64}
    (hcount : 0 ≤ count.toInt) : hGetStringSortedKeyAscending table count true w
      (some ((fields.take count.toInt.toNat).map Prod.fst)) ↔
        ∀ e ∈ fields.take count.toInt.toNat, e.2 ≠ [] :=
  listed_iff (ascending_returns hF h hcount true)

theorem last_iff (hF : Fields w.ldb.data H) (h : Lists H (cString table) fields) {count : Int64}
    (hcount : 0 ≤ count.toInt) : hGetStringSortedKeyAscending table count false w
      (some ((fields.drop (fields.length - count.toInt.toNat)).map Prod.fst)) ↔
        ∀ e ∈ fields.drop (fields.length - count.toInt.toNat), e.2 ≠ [] := by
  have hreturns := ascending_returns hF h hcount false
  simp only [Bool.false_eq_true, if_false, picked_reverse] at hreturns
  exact listed_iff hreturns

theorem mirrored (hF : Fields w.ldb.data H) (h : Lists H (cString table) fields) {count : Int64}
    (hcount : 0 ≤ count.toInt) (descending : Bool) : ∃ names,
      hGetStringSortedKeyAscending table count (!descending) w (some names) ∧
        hGetStringSortedKeyDescending table count descending w (some names.reverse) := by
  have hup := ascending_returns hF h hcount (!descending)
  have hdown := descending_returns hF h hcount descending
  refine ⟨_, hup, ?_⟩
  cases descending with
  | true => simpa using hdown
  | false => simpa using hdown

theorem allData_iff (hF : Fields w.ldb.data H) (h : Lists H (cString table) fields)
    (hlen : fields.length < 2 ^ 63) : (∃ dic, hGetAllData table w (some dic) ∧
      dic.size = fields.length ∧ ∀ key data, dic.get key = some data ↔ (key, data) ∈ fields) ↔
        ∀ e ∈ fields, e.2 ≠ [] := by
  have hreturns := allData_returns hF h hlen
  have hnodup : ((fields.filter hasData).map Prod.fst).Nodup :=
    h.nodup.sublist (List.filter_sublist.map Prod.fst)
  constructor
  · rintro ⟨dic, hdic, -, hget⟩ e he
    obtain rfl := Option.some.inj (Loop.Exits.unique hreturns hdic)
    have hmem := (OrdMap.get_ofList hnodup e.1 e.2).mp ((hget e.1 e.2).mpr he)
    exact of_decide_eq_true (List.mem_filter.mp hmem).2
  · intro hdata
    have hall : fields.filter hasData = fields :=
      List.filter_eq_self.mpr fun e he => decide_eq_true (hdata e he)
    rw [hall] at hreturns hnodup
    exact ⟨_, hreturns, OrdMap.size_ofList hnodup, OrdMap.get_ofList hnodup⟩

theorem Written.holdings (h : Written w H) (hl : Lists H (cString table) fields)
    (hseq : w.ldb.sequence ≤ kMaxSequenceNumber) : Holdings table w fields where
  sorted := hl.sorted
  field key data := by
    have hentry : (H (cString table)).get key = some data ↔
        ∃ text, key = utf8 text ∧ (text, data) ∈ fields := by
      rw [← OrdMap.mem_entries_iff, hl.entries, List.mem_map]
      constructor
      · rintro ⟨e, he, hrecord⟩
        obtain ⟨rfl, rfl⟩ := Prod.mk.inj hrecord
        exact ⟨e.1, rfl, he⟩
      · rintro ⟨text, rfl, he⟩
        exact ⟨_, he, rfl⟩
    rw [← hentry, hget_reply h.holds.fields h.faults]
    cases (H (cString table)).get key <;> simp
  size := by
    have hsize : (H (cString table)).size = fields.length := by
      rw [OrdMap.size, hl.entries, List.length_map]
    have hb := h.holds.bound hseq (cString table)
    rw [← hsize]
    exact hsize_reply (h.holds.sizes trivial hseq) h.faults (by omega)

/-- Of a table filled through the wrappers every listing and the dictionary are exact if and only
if every field has data; a sorted listing is if and only if the fields within its limit have. -/
theorem sorted_keys_iff (enabled : Bool) (capacity : Int32) (cs : List TableCall) (table : Bytes) :
    let w := stored cs (fresh enabled capacity)
    w.ldb.sequence ≤ kMaxSequenceNumber → ∃ fields, Holdings table w fields ∧
      ∀ count : Int64, 0 ≤ count.toInt →
        (Listed table count w fields ↔ ∀ e ∈ fields, e.2 ≠ []) ∧
          (hGetStringSortedKeyAscending table count true w
              (some ((fields.take count.toInt.toNat).map Prod.fst)) ↔
            ∀ e ∈ fields.take count.toInt.toNat, e.2 ≠ []) ∧
          (hGetStringSortedKeyAscending table count false w
              (some ((fields.drop (fields.length - count.toInt.toNat)).map Prod.fst)) ↔
            ∀ e ∈ fields.drop (fields.length - count.toInt.toNat), e.2 ≠ []) ∧
          ∀ descending, ∃ names,
            hGetStringSortedKeyAscending table count (!descending) w (some names) ∧
              hGetStringSortedKeyDescending table count descending w (some names.reverse) := by
  intro w hseq
  obtain ⟨H, hH⟩ : ∃ H, Written w H := stored_written cs (fresh_written enabled capacity)
  obtain ⟨fields, hl⟩ := hH.texts.lists (cString table)
  have hF := hH.holds.fields
  have hlen : fields.length < 2 ^ 63 := by
    have hb := hH.holds.bound hseq (cString table)
    rw [OrdMap.size, hl.entries, List.length_map] at hb
    omega
  refine ⟨fields, hH.holdings hl hseq, fun count hcount => ⟨⟨fun hlisted => ?_, fun hdata => ?_⟩,
    first_iff hF hl hcount, last_iff hF hl hcount, mirrored hF hl hcount⟩⟩
  · exact (allData_iff hF hl hlen).mp hlisted.all
  · exact ⟨(first_iff hF hl hcount).mpr fun e he => hdata e (List.mem_of_mem_take he),
      (last_iff hF hl hcount).mpr fun e he => hdata e (List.mem_of_mem_drop he),
      mirrored hF hl hcount, (allData_iff hF hl hlen).mpr hdata⟩

theorem sorted_keys_iff_two :
    let w := stored [.hSet [116] [49] ['b'], .hSet [116] [50] ['a']] (fresh true 1000)
    ∃ fields, Holdings [116] w fields ∧ (Listed [116] 1 w fields ↔ ∀ e ∈ fields, e.2 ≠ []) := by
  intro w
  obtain ⟨fields, hfields, hlisted⟩ := sorted_keys_iff true 1000
    [.hSet [116] [49] ['b'], .hSet [116] [50] ['a']] [116] (by decide +kernel)
  exact ⟨fields, hfields, (hlisted 1 (by decide)).1⟩

theorem empty_field_unlisted :
    let w := stored [.hSet [116] [] ['a']] (fresh true 1000)
    Holdings [116] w [(['a'], [])] ∧ hGetStringSortedKeyAscending [116] 1 true w (some []) ∧
      ¬Listed [116] 1 w [(['a'], [])] := by
  intro w
  obtain ⟨H, hH⟩ : ∃ H, Written w H :=
    stored_written [.hSet [116] [] ['a']] (fresh_written true 1000)
  have hname : cString [116] = [116] := by decide
  obtain ⟨fields, hl⟩ := hH.texts.lists (cString [116])
  have hfields := hH.holdings hl (by decide +kernel)
  have hone : fields = [(['a'], [])] := by
    have hread : (hget (cString [116]) (utf8 ['a']) w).1 = (1, some []) := by decide +kernel
    obtain ⟨text, htext, hmem⟩ := (hfields.field (utf8 ['a']) []).mp hread
    obtain rfl := utf8_injective htext
    have hsize : (hSize [116] w).1.toInt = 1 := by decide +kernel
    rw [hfields.size] at hsize
    obtain ⟨e, rfl⟩ := List.length_eq_one_iff.mp (by omega : fields.length = 1)
    rw [List.mem_singleton.mp hmem]
  rw [hone] at hl hfields
  have hcount : 0 ≤ (1 : Int64).toInt := by decide
  have hempty := ascending_returns hH.holds.fields hl hcount true
  refine ⟨hfields, hempty, fun hlisted => ?_⟩
  exact absurd (Option.some.inj (Loop.Exits.unique hempty hlisted.first)) (by decide)

end listing

end SSDB
