import Mathlib.Data.Set.Card
import Ssdb.Util.Escape
import Ssdb.Util.SortedSet

/-- The two containers as they lie in memory: `sortedSet` gives each item the node that holds it,
and an iterator in `existed` is a node. -/
structure SortedNodes where
  existed : OrdMap Bytes ℕ
  sortedSet : OrdMap Item ℕ
  allocated : ℕ

namespace SortedNodes

def new : SortedNodes := ⟨OrdMap.empty, OrdMap.empty, 0⟩

variable (N : SortedNodes)

/-- `*it`, of a node that is still in the set. -/
def deref (it : ℕ) : Option Item := (N.sortedSet.entries.find? (fun e => e.2 = it)).map Prod.fst

def insertItem (item : Item) : ℕ × SortedNodes :=
  match N.sortedSet.get item with
  | some it => (it, N)
  | none => (N.allocated, ⟨N.existed, N.sortedSet.insert item N.allocated, N.allocated + 1⟩)

def eraseItem (item : Item) : SortedNodes := ⟨N.existed, N.sortedSet.erase item, N.allocated⟩

def put (item : Item) : SortedNodes :=
  let p := N.insertItem item
  ⟨p.2.existed.insert item.key p.1, p.2.sortedSet, p.2.allocated⟩

def size : Int := Strings.int N.sortedSet.size

def add (key : Bytes) (score : Int64) : Option (Int × SortedNodes) :=
  match N.existed.get key with
  | none => some (1, N.put ⟨key, score⟩)
  | some it2 => do
    let item ← N.deref it2
    if item.score = score then return (0, N)
    else return (0, (N.eraseItem item).put ⟨key, score⟩)

def del (key : Bytes) : Option (Int × SortedNodes) :=
  match N.existed.get key with
  | none => some (0, N)
  | some it => do
    let S := N.eraseItem (← N.deref it)
    return (1, ⟨S.existed.erase key, S.sortedSet, S.allocated⟩)

def front : Option Item := N.sortedSet.keys.head?

def back : Option Item := N.sortedSet.keys.getLast?

def pop (item : Item) : SortedNodes :=
  (⟨N.existed.erase item.key, N.sortedSet, N.allocated⟩ : SortedNodes).eraseItem item

def popFront : Int × SortedNodes :=
  match N.front with
  | none => (0, N)
  | some item => (1, N.pop item)

def popBack : Int × SortedNodes :=
  match N.back with
  | none => (0, N)
  | some item => (1, N.pop item)

def lookup (key : Bytes) : Option Int64 :=
  ((N.existed.get key).bind N.deref).map Item.score

end SortedNodes

inductive SetOp where
  | add (key : Bytes) (score : Int64)
  | del (key : Bytes)
  | popFront
  | popBack

namespace SortedNodes

def apply (op : SetOp) (N : SortedNodes) : Option (Int × SortedNodes) :=
  match op with
  | .add key score => N.add key score
  | .del key => N.del key
  | .popFront => some N.popFront
  | .popBack => some N.popBack

def run : List SetOp → SortedNodes → Option (List Int × SortedNodes)
  | [], N => some ([], N)
  | op :: ops, N => do
    let (reply, N) ← N.apply op
    let (replies, N) ← run ops N
    return (reply :: replies, N)

end SortedNodes

inductive SetOp.Does : SetOp → (Bytes → Option Int64) → Int → (Bytes → Option Int64) → Prop
  | addNew {m key score} (h : m key = none) :
      Does (.add key score) m 1 (Function.update m key (some score))
  | addOld {m key score} (h : m key ≠ none) :
      Does (.add key score) m 0 (Function.update m key (some score))
  | delOld {m key} (h : m key ≠ none) : Does (.del key) m 1 (Function.update m key none)
  | delNone {m key} (h : m key = none) : Does (.del key) m 0 m
  | popFront {m} {i : Item} (h : m i.key = some i.score)
      (hleast : ∀ j : Item, m j.key = some j.score → i ≤ j) :
      Does .popFront m 1 (Function.update m i.key none)
  | popFrontNone {m} (h : ∀ key, m key = none) : Does .popFront m 0 m
  | popBack {m} {i : Item} (h : m i.key = some i.score)
      (hgreatest : ∀ j : Item, m j.key = some j.score → j ≤ i) :
      Does .popBack m 1 (Function.update m i.key none)
  | popBackNone {m} (h : ∀ key, m key = none) : Does .popBack m 0 m

inductive SetOp.Run : List SetOp → (Bytes → Option Int64) → List Int → (Bytes → Option Int64) → Prop
  | nil {m} : Run [] m [] m
  | cons {op ops m reply m' replies m''} (hop : op.Does m reply m') (hops : Run ops m' replies m'') :
      Run (op :: ops) m (reply :: replies) m''

namespace SortedSet
variable {S : SortedSet}

def apply (op : SetOp) (S : SortedSet) : Int × SortedSet :=
  match op with
  | .add key score => S.add key score
  | .del key => S.del key
  | .popFront => S.popFront
  | .popBack => S.popBack

theorem lookup_eq_none {key : Bytes} : S.lookup key = none ↔ S.existed.get key = none := by
  rw [lookup, Option.map_eq_none_iff]

theorem add_reply (S : SortedSet) (key : Bytes) (score : Int64) :
    (S.add key score).1 = if S.lookup key = none then 1 else 0 := by
  simp only [lookup_eq_none]
  rw [add]
  split
  · rename_i h
    rw [if_pos h]
  · rename_i item h
    have hold : S.existed.get key ≠ none := by simp [h]
    rw [if_neg hold]
    split_ifs <;> rfl

theorem del_reply (S : SortedSet) (key : Bytes) :
    (S.del key).1 = if S.lookup key = none then 0 else 1 := by
  simp only [lookup_eq_none]
  rw [del]
  split
  · rename_i h
    rw [if_pos h]
  · rename_i item h
    have hold : S.existed.get key ≠ none := by simp [h]
    rw [if_neg hold]

theorem popFront_of_none (h : S.front = none) : S.popFront = (0, S) := by
  rw [popFront]
  split
  · rfl
  · rename_i i hi
    exact absurd (h.symm.trans hi) (by simp)

theorem popFront_of_some {i : Item} (h : S.front = some i) :
    S.popFront = (1, S.unlink i (S.linked_of_mem (List.mem_of_head? h))) := by
  rw [popFront]
  split
  · rename_i hn
    exact absurd (hn.symm.trans h) (by simp)
  · rename_i j hj
    obtain rfl : j = i := Option.some.inj (hj.symm.trans h)
    rfl

theorem popBack_of_none (h : S.back = none) : S.popBack = (0, S) := by
  rw [popBack]
  split
  · rfl
  · rename_i i hi
    exact absurd (h.symm.trans hi) (by simp)

theorem popBack_of_some {i : Item} (h : S.back = some i) :
    S.popBack = (1, S.unlink i (S.linked_of_mem (List.mem_of_getLast? h))) := by
  rw [popBack]
  split
  · rename_i hn
    exact absurd (hn.symm.trans h) (by simp)
  · rename_i j hj
    obtain rfl : j = i := Option.some.inj (hj.symm.trans h)
    rfl

theorem front_none : S.front = none ↔ ∀ key, S.lookup key = none := by
  rw [← empty_iff]
  constructor
  · intro h
    by_contra hne
    obtain ⟨i, hi⟩ := front_of_nonempty (Bool.eq_false_iff.mpr hne)
    rw [h] at hi
    exact absurd hi (by simp)
  · intro h
    cases hf : S.front with
    | none => rfl
    | some i => exact absurd (nonempty_of_front hf) (by simp [h])

theorem back_none : S.back = none ↔ ∀ key, S.lookup key = none := by
  rw [← empty_iff]
  constructor
  · intro h
    by_contra hne
    obtain ⟨i, hi⟩ := back_of_nonempty (Bool.eq_false_iff.mpr hne)
    rw [h] at hi
    exact absurd hi (by simp)
  · intro h
    cases hb : S.back with
    | none => rfl
    | some i =>
      have hl := back_mem hb
      rw [empty_iff.mp h] at hl
      exact absurd hl (by simp)

theorem apply_does (op : SetOp) (S : SortedSet) :
    op.Does S.lookup (S.apply op).1 (S.apply op).2.lookup := by
  cases op with
  | add key score =>
    have hm : (S.add key score).2.lookup = Function.update S.lookup key (some score) := by
      funext l
      rw [lookup_add, Function.update_apply]
    rw [apply, hm, add_reply]
    split_ifs with h
    · exact .addNew h
    · exact .addOld h
  | del key =>
    have hm : (S.del key).2.lookup = Function.update S.lookup key none := by
      funext l
      rw [lookup_del, Function.update_apply]
    rw [apply, hm, del_reply]
    split_ifs with h
    · rw [← h, Function.update_eq_self]
      exact .delNone h
    · exact .delOld h
  | popFront =>
    rw [apply]
    cases hf : S.front with
    | none =>
      rw [popFront_of_none hf]
      exact .popFrontNone (front_none.mp hf)
    | some i =>
      have hm : S.popFront.2.lookup = Function.update S.lookup i.key none := by
        funext l
        rw [lookup_popFront hf, Function.update_apply]
      have hreply : S.popFront.1 = 1 := by rw [popFront_of_some hf]
      rw [hm, hreply]
      exact .popFront (front_mem hf) fun j hj => front_least hf hj
  | popBack =>
    rw [apply]
    cases hb : S.back with
    | none =>
      rw [popBack_of_none hb]
      exact .popBackNone (back_none.mp hb)
    | some i =>
      have hm : S.popBack.2.lookup = Function.update S.lookup i.key none := by
        funext l
        rw [lookup_popBack hb, Function.update_apply]
      have hreply : S.popBack.1 = 1 := by rw [popBack_of_some hb]
      rw [hm, hreply]
      exact .popBack (back_mem hb) fun j hj => back_greatest hb hj

end SortedSet

namespace SortedNodes

structure Mirrors (N : SortedNodes) (S : SortedSet) : Prop where
  items : ∀ i, N.sortedSet.get i = none ↔ S.sortedSet.get i = none
  index : ∀ key, N.existed.get key = (S.existed.get key).bind N.sortedSet.get
  own : ∀ i j it, N.sortedSet.get i = some it → N.sortedSet.get j = some it → i = j
  used : ∀ i it, N.sortedSet.get i = some it → it < N.allocated

variable {N : SortedNodes} {S : SortedSet}

theorem mirrors_new : Mirrors new SortedSet.new where
  items _ := iff_of_true rfl rfl
  index _ := rfl
  own _ _ _ h := absurd h (by simp [new])
  used _ _ h := absurd h (by simp [new])

namespace Mirrors

theorem node (h : Mirrors N S) {key : Bytes} {item : Item} (hi : S.existed.get key = some item) :
    ∃ it, N.existed.get key = some it ∧ N.sortedSet.get item = some it := by
  have hthere := ((S.linked key item).mp hi).2
  obtain ⟨it, hit⟩ := Option.ne_none_iff_exists'.mp (fun hn => hthere ((h.items item).mp hn))
  exact ⟨it, by rw [h.index, hi, Option.bind_some, hit], hit⟩

theorem deref (h : Mirrors N S) {item : Item} {it : ℕ} (hit : N.sortedSet.get item = some it) :
    N.deref it = some item := by
  have hmem := (N.sortedSet.mem_entries_iff item it).mpr hit
  rw [SortedNodes.deref]
  cases hf : N.sortedSet.entries.find? (fun e => e.2 = it) with
  | none =>
    have hnone := List.find?_eq_none.mp hf (item, it) hmem
    simp at hnone
  | some e =>
    have he : e.2 = it := by simpa using List.find?_some hf
    have hget := (N.sortedSet.mem_entries_iff e.1 e.2).mp (List.mem_of_find?_eq_some hf)
    rw [Option.map_some, h.own e.1 item it (he ▸ hget) hit]

theorem lookup (h : Mirrors N S) : N.lookup = S.lookup := by
  funext key
  rw [SortedNodes.lookup, SortedSet.lookup]
  cases hi : S.existed.get key with
  | none => rw [h.index, hi, Option.bind_none, Option.bind_none]
  | some item =>
    obtain ⟨it, hex, hit⟩ := h.node hi
    rw [hex, Option.bind_some, h.deref hit]

theorem keys (h : Mirrors N S) : N.sortedSet.keys = S.items := by
  have : Std.Irrefl (fun i j : Item => i < j) := ⟨fun i => lt_irrefl i⟩
  have : Std.Antisymm (fun i j : Item => i < j) := ⟨fun i j h h' => (lt_asymm h h').elim⟩
  refine List.Pairwise.eq_of_mem_iff N.sortedSet.keys_sorted S.items_sorted fun i => ?_
  rw [SortedSet.items, OrdMap.mem_keys_iff, OrdMap.mem_keys_iff, ne_eq, ne_eq, h.items]

theorem front (h : Mirrors N S) : N.front = S.front := by
  rw [SortedNodes.front, h.keys, SortedSet.front]

theorem back (h : Mirrors N S) : N.back = S.back := by
  rw [SortedNodes.back, h.keys, SortedSet.back]

theorem pop (h : Mirrors N S) (item : Item) (hitem : S.sortedSet.get item ≠ none) :
    Mirrors (N.pop item) (S.unlink item hitem) where
  items i := by
    simp only [SortedNodes.pop, eraseItem, SortedSet.unlink, OrdMap.get_erase]
    split_ifs
    · exact iff_of_true rfl rfl
    · exact h.items i
  index key := by
    simp only [SortedNodes.pop, eraseItem, SortedSet.unlink, OrdMap.get_erase]
    split_ifs with hk
    · rfl
    · rw [h.index]
      cases hi : S.existed.get key with
      | none => rfl
      | some i =>
        have hkey := ((S.linked key i).mp hi).1
        have hne : i ≠ item := fun he => hk (by rw [← hkey, he])
        simp only [Option.bind_some, if_neg hne]
  own i j it hi hj := by
    simp only [SortedNodes.pop, eraseItem, OrdMap.get_erase] at hi hj
    split_ifs at hi hj
    exact h.own i j it hi hj
  used i it hi := by
    simp only [SortedNodes.pop, eraseItem, OrdMap.get_erase] at hi
    split_ifs at hi
    exact h.used i it hi

theorem put (h : Mirrors N S) (item : Item) (hnew : S.existed.get item.key = none) :
    Mirrors (N.put item) (S.link item hnew) := by
  have hgone : S.sortedSet.get item = none := by
    by_contra hthere
    rw [(S.linked item.key item).mpr ⟨rfl, hthere⟩] at hnew
    exact absurd hnew (by simp)
  have hput : N.put item = ⟨N.existed.insert item.key N.allocated,
      N.sortedSet.insert item N.allocated, N.allocated + 1⟩ := by
    simp only [SortedNodes.put, insertItem, (h.items item).mpr hgone]
  rw [hput]
  constructor
  · intro i
    simp only [SortedSet.link, OrdMap.get_insert]
    split_ifs
    · simp
    · exact h.items i
  · intro key
    simp only [SortedSet.link, OrdMap.get_insert]
    split_ifs with hk
    · simp
    · rw [h.index]
      cases hi : S.existed.get key with
      | none => rfl
      | some i =>
        have hkey := ((S.linked key i).mp hi).1
        have hne : i ≠ item := fun he => hk (by rw [← hkey, he])
        simp only [Option.bind_some, if_neg hne]
  · intro i j it hi hj
    simp only [OrdMap.get_insert] at hi hj
    split_ifs at hi hj with h1 h2 h2
    · rw [h1, h2]
    · exact absurd (h.used j it hj) (by simp at hi; omega)
    · exact absurd (h.used i it hi) (by simp at hj; omega)
    · exact h.own i j it hi hj
  · intro i it hi
    simp only [OrdMap.get_insert] at hi
    change it < N.allocated + 1
    split_ifs at hi
    · obtain rfl := Option.some.inj hi
      exact Nat.lt_succ_self _
    · exact (h.used i it hi).trans (Nat.lt_succ_self _)

theorem put_apart (item : Item) (key : Bytes) (score : Int64) (hkey : item.key = key) :
    (N.eraseItem item).put ⟨key, score⟩ = (N.pop item).put ⟨key, score⟩ := by
  have hover (it : ℕ) : (N.existed.erase key).insert key it = N.existed.insert key it := by
    refine OrdMap.ext_get fun k => ?_
    simp only [OrdMap.get_insert, OrdMap.get_erase]
    split_ifs <;> rfl
  simp only [SortedNodes.put, SortedNodes.pop, insertItem, eraseItem, hkey]
  cases (N.sortedSet.erase item).get ⟨key, score⟩ with
  | none => simp only [hover]
  | some it => simp only [hover]

theorem add (h : Mirrors N S) (key : Bytes) (score : Int64) :
    ∃ N', N.add key score = some ((S.add key score).1, N') ∧ Mirrors N' (S.add key score).2 := by
  rw [SortedSet.add]
  split
  · rename_i hnew
    refine ⟨N.put ⟨key, score⟩, ?_, h.put ⟨key, score⟩ hnew⟩
    have hex : N.existed.get key = none := by rw [h.index, hnew, Option.bind_none]
    simp only [SortedNodes.add, hex]
  · rename_i item hi
    obtain ⟨hkey, hthere⟩ := (S.linked key item).mp hi
    obtain ⟨it, hex, hit⟩ := h.node hi
    have hderef := h.deref hit
    split_ifs with hs
    · refine ⟨N, ?_, h⟩
      simp only [SortedNodes.add, hex, hderef, Option.bind_eq_bind, Option.bind_some, if_pos hs]
      rfl
    · refine ⟨(N.pop item).put ⟨key, score⟩, ?_, (h.pop item hthere).put ⟨key, score⟩
        (hkey ▸ S.place_gone hthere)⟩
      simp only [SortedNodes.add, hex, hderef, Option.bind_eq_bind, Option.bind_some, if_neg hs,
        put_apart item key score hkey]
      rfl

theorem del (h : Mirrors N S) (key : Bytes) :
    ∃ N', N.del key = some ((S.del key).1, N') ∧ Mirrors N' (S.del key).2 := by
  rw [SortedSet.del]
  split
  · rename_i hnone
    refine ⟨N, ?_, h⟩
    have hex : N.existed.get key = none := by rw [h.index, hnone, Option.bind_none]
    simp only [SortedNodes.del, hex]
  · rename_i item hi
    obtain ⟨rfl, hthere⟩ := (S.linked key item).mp hi
    obtain ⟨it, hex, hit⟩ := h.node hi
    refine ⟨N.pop item, ?_, h.pop item hthere⟩
    simp only [SortedNodes.del, hex, h.deref hit, Option.bind_eq_bind, Option.bind_some]
    rfl

theorem popFront (h : Mirrors N S) :
    N.popFront.1 = S.popFront.1 ∧ Mirrors N.popFront.2 S.popFront.2 := by
  rw [SortedNodes.popFront, h.front]
  cases hf : S.front with
  | none =>
    rw [SortedSet.popFront_of_none hf]
    exact ⟨rfl, h⟩
  | some item =>
    rw [SortedSet.popFront_of_some hf]
    exact ⟨rfl, h.pop item (S.linked_of_mem (List.mem_of_head? hf))⟩

theorem popBack (h : Mirrors N S) :
    N.popBack.1 = S.popBack.1 ∧ Mirrors N.popBack.2 S.popBack.2 := by
  rw [SortedNodes.popBack, h.back]
  cases hb : S.back with
  | none =>
    rw [SortedSet.popBack_of_none hb]
    exact ⟨rfl, h⟩
  | some item =>
    rw [SortedSet.popBack_of_some hb]
    exact ⟨rfl, h.pop item (S.linked_of_mem (List.mem_of_getLast? hb))⟩

theorem apply (h : Mirrors N S) (op : SetOp) :
    ∃ N', N.apply op = some ((S.apply op).1, N') ∧ Mirrors N' (S.apply op).2 := by
  cases op with
  | add key score => exact h.add key score
  | del key => exact h.del key
  | popFront => exact ⟨_, by rw [SortedNodes.apply, SortedSet.apply, ← h.popFront.1], h.popFront.2⟩
  | popBack => exact ⟨_, by rw [SortedNodes.apply, SortedSet.apply, ← h.popBack.1], h.popBack.2⟩

theorem run (h : Mirrors N S) (ops : List SetOp) : ∃ replies N' S', N.run ops = some (replies, N') ∧
    SetOp.Run ops N.lookup replies N'.lookup ∧ Mirrors N' S' := by
  induction ops generalizing N S with
  | nil => exact ⟨[], N, S, rfl, .nil, h⟩
  | cons op ops ih =>
    obtain ⟨N', hop, h'⟩ := h.apply op
    obtain ⟨replies, N'', S'', hrun, hdoes, h''⟩ := ih h'
    refine ⟨(S.apply op).1 :: replies, N'', S'', ?_, .cons ?_ hdoes, h''⟩
    · simp only [SortedNodes.run, hop, hrun, Option.bind_eq_bind, Option.bind_some]
      rfl
    · rw [h.lookup, h'.lookup]
      exact SortedSet.apply_does op S

end Mirrors

structure Sound (N : SortedNodes) : Prop where
  points : ∀ key it, N.existed.get key = some it → ∃ score, N.deref it = some ⟨key, score⟩
  indexed : ∀ i it, N.sortedSet.get i = some it → N.existed.get i.key = some it
  once : ∀ i j, N.sortedSet.get i ≠ none → N.sortedSet.get j ≠ none → i.key = j.key → i = j
  front : ∀ i, N.front = some i →
    N.lookup i.key = some i.score ∧ ∀ j : Item, N.lookup j.key = some j.score → i ≤ j
  frontNone : N.front = none ↔ ∀ key, N.lookup key = none
  back : ∀ i, N.back = some i →
    N.lookup i.key = some i.score ∧ ∀ j : Item, N.lookup j.key = some j.score → j ≤ i
  backNone : N.back = none ↔ ∀ key, N.lookup key = none
  size : N.size = Strings.int (Set.ncard {key | N.lookup key ≠ none})

theorem Mirrors.size_keys (h : Mirrors N S) :
    N.sortedSet.size = Set.ncard {key | N.lookup key ≠ none} := by
  have hinj : (S.items.map Item.key).Nodup := by
    refine (List.nodup_map_iff_inj_on (S.sortedSet.keys_nodup)).mpr fun i hi j hj hk => ?_
    have hi := (SortedSet.mem_items i).mp hi
    have hj := (SortedSet.mem_items j).mp hj
    obtain ⟨k, s⟩ := i
    obtain ⟨l, t⟩ := j
    obtain rfl : k = l := hk
    obtain rfl : s = t := Option.some.inj (hi.symm.trans hj)
    rfl
  have hset : {key | N.lookup key ≠ none} = ((S.items.map Item.key).toFinset : Set Bytes) := by
    ext key
    rw [Set.mem_ofPred_eq, h.lookup, List.coe_toFinset, Set.mem_ofPred_eq, List.mem_map,
      Option.ne_none_iff_exists']
    constructor
    · rintro ⟨score, hs⟩
      exact ⟨⟨key, score⟩, (SortedSet.mem_items _).mpr hs, rfl⟩
    · rintro ⟨i, hi, rfl⟩
      exact ⟨i.score, (SortedSet.mem_items i).mp hi⟩
  rw [hset, Set.ncard_coe_finset, List.toFinset_card_of_nodup hinj, List.length_map, ← h.keys,
    OrdMap.keys, List.length_map, OrdMap.size]

theorem Mirrors.sound (h : Mirrors N S) : Sound N where
  points key it hit := by
    rw [h.index] at hit
    obtain ⟨i, hi, hnode⟩ := Option.bind_eq_some_iff.mp hit
    obtain ⟨rfl, -⟩ := (S.linked key i).mp hi
    exact ⟨i.score, h.deref hnode⟩
  indexed i it hit := by
    have hthere : S.sortedSet.get i ≠ none := fun hn => by
      rw [(h.items i).mpr hn] at hit
      exact absurd hit (by simp)
    rw [h.index, (S.linked i.key i).mpr ⟨rfl, hthere⟩, Option.bind_some, hit]
  once i j hi hj hk := by
    have hi' := (S.linked i.key i).mpr ⟨rfl, fun hn => hi ((h.items i).mpr hn)⟩
    have hj' := (S.linked i.key j).mpr ⟨hk.symm, fun hn => hj ((h.items j).mpr hn)⟩
    exact Option.some.inj (hi'.symm.trans hj')
  front i hi := by
    rw [h.front] at hi
    rw [h.lookup]
    exact ⟨SortedSet.front_mem hi, fun j hj => SortedSet.front_least hi hj⟩
  frontNone := by
    rw [h.front, h.lookup]
    exact SortedSet.front_none
  back i hi := by
    rw [h.back] at hi
    rw [h.lookup]
    exact ⟨SortedSet.back_mem hi, fun j hj => SortedSet.back_greatest hi hj⟩
  backNone := by
    rw [h.back, h.lookup]
    exact SortedSet.back_none
  size := by rw [SortedNodes.size, h.size_keys]

/-- Any run from the empty set is a run of a map from keys to scores, and ends with the two
containers in step. -/
theorem run_refines (ops : List SetOp) : ∃ replies N, new.run ops = some (replies, N) ∧
    SetOp.Run ops (fun _ => none) replies N.lookup ∧ Sound N := by
  obtain ⟨replies, N, S, hrun, hdoes, h⟩ := mirrors_new.run ops
  exact ⟨replies, N, hrun, hdoes, h.sound⟩

def adds (keys : List Bytes) : List SetOp := keys.map (fun key => .add key 0)

theorem adds_lookup {keys : List Bytes} {m m' : Bytes → Option Int64} {replies : List Int}
    (h : SetOp.Run (adds keys) m replies m') (key : Bytes) :
    m' key ≠ none ↔ key ∈ keys ∨ m key ≠ none := by
  induction keys generalizing m replies with
  | nil =>
    cases h
    simp
  | cons k keys ih =>
    cases h with
    | cons hop hops =>
      have hm : ∀ l, Function.update m k (some 0) l ≠ none ↔ l = k ∨ m l ≠ none := fun l => by
        rw [Function.update_apply]
        split_ifs with hl
        · simp [hl]
        · simp [hl]
      cases hop with
      | addNew _ => rw [ih hops, hm, List.mem_cons, ← or_assoc, or_comm (a := key ∈ keys)]
      | addOld _ => rw [ih hops, hm, List.mem_cons, ← or_assoc, or_comm (a := key ∈ keys)]

def manyKeys : List Bytes := (List.range (2 ^ 31)).map (FixedWidth.bigEndian 256 4)

theorem manyKeys_nodup : manyKeys.Nodup := by
  refine List.Nodup.map_on (fun a ha b hb h => ?_) List.nodup_range
  have hbound : 2 ^ 31 < 256 ^ 4 := by norm_num
  have hvalue := congrArg (FixedWidth.value 256) h
  rwa [FixedWidth.value_bigEndian 256 ((List.mem_range.mp ha).trans hbound),
    FixedWidth.value_bigEndian 256 ((List.mem_range.mp hb).trans hbound)] at hvalue

theorem size_wraps : ∃ replies N, new.run (adds manyKeys) = some (replies, N) ∧
    N.size ≠ Set.ncard {key | N.lookup key ≠ none} := by
  obtain ⟨replies, N, hrun, hdoes, hsound⟩ := run_refines (adds manyKeys)
  refine ⟨replies, N, hrun, ?_⟩
  have hset : {key | N.lookup key ≠ none} = (manyKeys.toFinset : Set Bytes) := by
    ext key
    rw [Set.mem_ofPred_eq, adds_lookup hdoes, List.coe_toFinset, Set.mem_ofPred_eq]
    simp
  have hcard : Set.ncard {key | N.lookup key ≠ none} = 2 ^ 31 := by
    rw [hset, Set.ncard_coe_finset, List.toFinset_card_of_nodup manyKeys_nodup, manyKeys, List.length_map,
      List.length_range]
  rw [hsound.size, hcard]
  decide

end SortedNodes
