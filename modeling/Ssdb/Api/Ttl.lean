import Ssdb.Api.Zset
import Ssdb.Util.SortedSet

def EXPIRATION_LIST_KEY : Bytes := List.replicate 5 255 ++ Strings.asBytes "|EXPIRE_LIST|KV"

def BATCH_SIZE : ℕ := 1000

def INT64_MAX : Int64 := Int64.maxValue

structure ExpirationHandler where
  ssdb : SSDBImpl
  firstTimeout : Int64
  fastKeys : SortedSet

namespace ExpirationHandler
open SSDBImpl Strings

def new (ssdb : SSDBImpl) : ExpirationHandler := ⟨ssdb, 0, SortedSet.new⟩

def expired (ttl now : Int64) : Int64 := now + ttl * 1000

def setTtl (key : Bytes) (ttl now : Int64) (h : ExpirationHandler) : Int × ExpirationHandler :=
  let expired := expired ttl now
  let (ret, ssdb) := zset EXPIRATION_LIST_KEY key (str expired) BinlogType.SYNC h.ssdb
  let h := { h with ssdb }
  if ret = -1 then (-1, h)
  else
    let h := if expired < h.firstTimeout then { h with firstTimeout := expired } else h
    if h.fastKeys.empty = false ∧ expired ≤ h.fastKeys.maxScore then
      let fastKeys := (h.fastKeys.add key expired).2
      (0, { h with fastKeys := if fastKeys.size > BATCH_SIZE then fastKeys.popBack.2 else fastKeys })
    else (0, { h with fastKeys := (h.fastKeys.del key).2 })

def delTtl (key : Bytes) (h : ExpirationHandler) : Int × ExpirationHandler :=
  if h.firstTimeout ≠ INT64_MAX then
    (0, { h with
      fastKeys := (h.fastKeys.del key).2
      ssdb := (zdel EXPIRATION_LIST_KEY key BinlogType.SYNC h.ssdb).2 })
  else (0, h)

def getTtl (key : Bytes) (now : Int64) (h : ExpirationHandler) : Int64 :=
  let ((found, score), _) := zget EXPIRATION_LIST_KEY key h.ssdb
  if found = 1 then (int64 (score.getD []) - now) / 1000 else -1

def loadedScore (score : Bytes) : Int64 :=
  if int64 score < 2000000000 then int64 score * 1000 else int64 score

def loadKey (h : ExpirationHandler) (e : Bytes × Bytes) : ExpirationHandler :=
  { h with fastKeys := (h.fastKeys.add e.1 (loadedScore e.2)).2 }

def scanKeys (num : UInt64) (h : ExpirationHandler) : ZIterator × ExpirationHandler :=
  let (it, ssdb) := zscan EXPIRATION_LIST_KEY [] [] [] num h.ssdb
  (it, { h with ssdb })

def loadExpirationKeysFromDb (num : UInt64) (h : ExpirationHandler) : ExpirationHandler :=
  let (it, h) := h.scanKeys num
  it.rest.foldl loadKey h

/-- The end of `expire_loop`, with the mutex held, and the key it deletes, if any. -/
def expireFirst (now : Int64) (h : ExpirationHandler) : Option Bytes × ExpirationHandler :=
  if h.fastKeys.empty then (none, { h with firstTimeout := INT64_MAX })
  else
    match h.fastKeys.front with
    | none => (none, h)
    | some ⟨key, score⟩ =>
      let h := { h with firstTimeout := score }
      if score ≤ now then
        let ssdb := (SSDBImpl.del key BinlogType.SYNC h.ssdb).2
        let ssdb := (zdel EXPIRATION_LIST_KEY key BinlogType.SYNC ssdb).2
        (some key, { h with ssdb, fastKeys := h.fastKeys.popFront.2 })
      else (none, h)

def expireLoop (now : Int64) (h : ExpirationHandler) : Option Bytes × ExpirationHandler :=
  let needLoad := h.fastKeys.empty
  let h := if needLoad then h.loadExpirationKeysFromDb (UInt64.ofNat BATCH_SIZE) else h
  h.expireFirst now

end ExpirationHandler

inductive TtlCall where
  | setTtl (key : Bytes) (ttl now : Int64)
  | delTtl (key : Bytes)
  | expireLoop (now : Int64)

def TtlCall.exec (c : TtlCall) (h : ExpirationHandler) : ExpirationHandler :=
  match c with
  | setTtl key ttl now => (h.setTtl key ttl now).2
  | delTtl key => (h.delTtl key).2
  | expireLoop now => (h.expireLoop now).2

/-- Where the thread is: at the head of `thread_func`'s loop, or in `expire_loop` before the test,
before the scan, in the loop over what was scanned, or before the last part. -/
inductive Phase where
  | head
  | test
  | scan
  | load (it : ZIterator)
  | last

structure Expiry where
  handler : ExpirationHandler
  now : Int64
  phase : Phase

inductive ExpiryStep where
  | clock (now : Int64)
  | setTtl (key : Bytes) (ttl : Int64)
  | delTtl (key : Bytes)
  | thread

namespace Expiry

def new (ssdb : SSDBImpl) (now : Int64) : Expiry := ⟨.new ssdb, now, .head⟩

def threadFunc (s : Expiry) : Expiry :=
  match s.phase with
  | .head => if s.handler.firstTimeout > s.now then s else { s with phase := .test }
  | .test => { s with phase := if s.handler.fastKeys.empty then .scan else .last }
  | .scan =>
    let (it, handler) := s.handler.scanKeys (UInt64.ofNat BATCH_SIZE)
    { s with handler, phase := .load it }
  | .load it =>
    match it.next with
    | (true, it) => { s with handler := s.handler.loadKey (it.key, it.score), phase := .load it }
    | (false, _) => { s with phase := .last }
  | .last => { s with handler := (s.handler.expireFirst s.now).2, phase := .head }

def step (e : ExpiryStep) (s : Expiry) : Expiry :=
  match e with
  | .clock now => { s with now }
  | .setTtl key ttl => { s with handler := (s.handler.setTtl key ttl s.now).2 }
  | .delTtl key => { s with handler := (s.handler.delTtl key).2 }
  | .thread => s.threadFunc

def deletes (s : Expiry) : Option Bytes :=
  match s.phase with
  | .last => (s.handler.expireFirst s.now).1
  | _ => none

end Expiry
