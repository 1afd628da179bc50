import Ssdb.Store.Binlog

inductive Direction where
  | forward | backward
deriving DecidableEq, Repr

inductive Verdict (α : Type) where
  | stop
  | skip
  | item (a : α)
deriving DecidableEq, Repr

structure Iterator where
  it : Cursor Bytes Bytes
  stop : Bytes
  limit : ℕ
  isFirst : Bool
  direction : Direction

namespace Iterator

def key (i : Iterator) : Bytes := (i.it.current.map Prod.fst).getD []

def val (i : Iterator) : Bytes := (i.it.current.map Prod.snd).getD []

def past (i : Iterator) (key : Bytes) : Bool :=
  match i.direction with
  | .forward => decide (i.stop ≠ [] ∧ i.stop < key)
  | .backward => decide (i.stop ≠ [] ∧ key < i.stop)

def step (i : Iterator) : Iterator :=
  if i.isFirst then { i with isFirst := false }
  else
    match i.direction with
    | .forward => { i with it := i.it.next }
    | .backward => { i with it := i.it.prev }

def next (i : Iterator) : Bool × Iterator :=
  if i.limit = 0 then (false, i)
  else
    let i := i.step
    match i.it.current with
    | none => (false, { i with limit := 0 })
    | some e =>
      if i.past e.1 then (false, { i with limit := 0 })
      else (true, { i with limit := i.limit - 1 })

/-- The `next` of the typed iterators: raw steps until an entry is returned. -/
def nextWith {α : Type} (f : Bytes × Bytes → Verdict α) : ℕ → Iterator → Option α × Iterator
  | 0, i => (none, i)
  | n + 1, i =>
    match i.next with
    | (false, i) => (none, i)
    | (true, i) =>
      match f (i.key, i.val) with
      | .stop => (none, i)
      | .skip => nextWith f n i
      | .item a => (some a, i)

def fuel (i : Iterator) : ℕ := i.it.size + 1

def itemsFrom {α : Type} (f : Bytes × Bytes → Verdict α) : ℕ → Iterator → List α
  | 0, _ => []
  | n + 1, i =>
    match nextWith f i.fuel i with
    | (none, _) => []
    | (some a, i) => a :: itemsFrom f n i

/-- Everything a `while(it->next())` loop meets. -/
def items {α : Type} (f : Bytes × Bytes → Verdict α) (i : Iterator) : List α :=
  itemsFrom f i.fuel i

end Iterator

namespace LevelDB

def iterator (db : LevelDB) (start stop : Bytes) (limit : ℕ) : Iterator :=
  let it := Cursor.seek db.table start
  let it := if it.current.map Prod.fst = some start then it.next else it
  ⟨it, stop, limit, true, .forward⟩

def revIterator (db : LevelDB) (start stop : Bytes) (limit : ℕ) : Iterator :=
  let it := Cursor.seek db.table start
  let it := if it.valid then it.prev else Cursor.seekToLast db.table
  ⟨it, stop, limit, true, .backward⟩

end LevelDB

def kVerdict (e : Bytes × Bytes) : Verdict (Bytes × Bytes) :=
  if e.1.head? ≠ some DataType.KV then .stop
  else
    match Keys.decodeKvKey e.1 with
    | none => .skip
    | some key => .item (key, e.2)

def hVerdict (name : Bytes) (e : Bytes × Bytes) : Verdict (Bytes × Bytes) :=
  if e.1.head? ≠ some DataType.HASH then .stop
  else
    match Keys.decodeHashKey e.1 with
    | none => .skip
    | some (n, key) => if n ≠ name then .stop else .item (key, e.2)

def zVerdict (e : Bytes × Bytes) : Verdict (Bytes × Bytes) :=
  if e.1.head? ≠ some DataType.ZSCORE then .stop
  else
    match Keys.decodeZscoreKey e.1 with
    | none => .skip
    | some (_, key, score) => .item (key, score)

def nameVerdict (type : Byte) (decode : Bytes → Option Bytes) (e : Bytes × Bytes) : Verdict Bytes :=
  if e.1.head? ≠ some type then .stop
  else
    match decode e.1 with
    | none => .skip
    | some n => .item n

structure KIterator where
  it : Iterator
  key : Bytes
  val : Bytes

namespace KIterator

def new (it : Iterator) : KIterator := ⟨it, [], []⟩

def next (k : KIterator) : Bool × KIterator :=
  match k.it.nextWith kVerdict k.it.fuel with
  | (none, it) => (false, { k with it })
  | (some (key, val), it) => (true, { it, key, val })

def rest (k : KIterator) : List (Bytes × Bytes) := k.it.items kVerdict

end KIterator

structure HIterator where
  it : Iterator
  name : Bytes
  key : Bytes
  val : Bytes

namespace HIterator

def new (it : Iterator) (name : Bytes) : HIterator := ⟨it, name, [], []⟩

def next (h : HIterator) : Bool × HIterator :=
  match h.it.nextWith (hVerdict h.name) h.it.fuel with
  | (none, it) => (false, { h with it })
  | (some (key, val), it) => (true, { h with it, key, val })

def rest (h : HIterator) : List (Bytes × Bytes) := h.it.items (hVerdict h.name)

end HIterator

structure ZIterator where
  it : Iterator
  name : Bytes
  key : Bytes
  score : Bytes

namespace ZIterator

def new (it : Iterator) (name : Bytes) : ZIterator := ⟨it, name, [], []⟩

def next (z : ZIterator) : Bool × ZIterator :=
  match z.it.nextWith zVerdict z.it.fuel with
  | (none, it) => (false, { z with it })
  | (some (key, score), it) => (true, { z with it, key, score })

def skip : ℕ → ZIterator → Bool × ZIterator
  | 0, z => (true, z)
  | offset + 1, z =>
    match z.next with
    | (false, z) => (false, z)
    | (true, z) => skip offset z

def rest (z : ZIterator) : List (Bytes × Bytes) := z.it.items zVerdict

end ZIterator
