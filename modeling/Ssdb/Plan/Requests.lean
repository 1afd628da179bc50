import Ssdb.Api.Calls
import Ssdb.Plan.Queue

namespace Call
open SSDBImpl

def transactional : Call → Bool
  | set _ _ _ | setnx _ _ _ | getset _ _ _ | del _ _ | incr _ _ _ | setbit _ _ _ _ => true
  | multiSet _ _ | multiDel _ _ => true
  | hset _ _ _ _ | hdel _ _ _ | hincr _ _ _ _ => true
  | zset _ _ _ _ | zdel _ _ _ | zincr _ _ _ _ => true
  | qpushFront _ _ _ | qpushBack _ _ _ | qpopFront _ _ | qpopBack _ _ => true
  | qset _ _ _ _ | qsetBySeq _ _ _ _ | qfix _ => true
  | _ => false

def inquiry (db : LevelDB) : Call → Inquiry Bytes Fetched (Plan Reply)
  | set key val t => .done ((setPlan key val t).map Reply.code)
  | setnx key val t => (setnxAsk key val t).map (Plan.map Reply.code)
  | getset key newval t => (getsetAsk key newval t).map (Plan.map Reply.ofOut)
  | del key t => .done ((delPlan key t).map Reply.code)
  | incr key amount t => (incrAsk key amount t).map (Plan.map Reply.ofNewVal)
  | setbit key bitoffset on t => (setbitAsk key bitoffset on t).map (Plan.map Reply.code)
  | multiSet kvs t => .done ((multiSetPlan kvs t).map Reply.code)
  | multiDel keys t => .done ((multiDelPlan keys t).map Reply.code)
  | hset name key val t => (hsetAsk name key val t).map (Plan.map Reply.code)
  | hdel name key t => (hdelAsk name key t).map (Plan.map Reply.code)
  | hincr name key amount t => (hincrAsk name key amount t).map (Plan.map Reply.ofNewVal)
  | zset name key score t => (zsetAsk name key score t).map (Plan.map Reply.code)
  | zdel name key t => (zdelAsk name key t).map (Plan.map Reply.code)
  | zincr name key amount t => (zincrAsk name key amount t).map (Plan.map Reply.ofNewVal)
  | qpushFront name item t => (qpushAsk name item QFRONT_SEQ t).map (Plan.map (Reply.code ·.toInt))
  | qpushBack name item t => (qpushAsk name item QBACK_SEQ t).map (Plan.map (Reply.code ·.toInt))
  | qpopFront name t => (qpopAsk name QFRONT_SEQ t).map (Plan.map Reply.ofOut)
  | qpopBack name t => (qpopAsk name QBACK_SEQ t).map (Plan.map Reply.ofOut)
  | qset name index item t => (qsetAsk name index item t).map (Plan.map Reply.code)
  | qsetBySeq name seq item t => (qsetBySeqAsk name seq item t).map (Plan.map Reply.code)
  | qfix name => .done ((qfixPlan db name).map Reply.code)
  | _ => .done (.reject (Reply.code 0))

theorem run_play {c : Call} (hc : c.transactional = true) (w : SSDBImpl) :
    c.run w = (c.inquiry w.ldb).play w := by
  have hplan {α : Type} {f : α → Reply} {x : M α} {p : Plan α} (hx : x w = p.run w) :
      (f <$> x) w = (Inquiry.done (p.map f)).play w := by
    rw [M.map_apply, hx]
    exact (Plan.run_map w f p).symm
  have hask {α : Type} {f : α → Reply} {x : M α} {T : Inquiry Bytes Fetched (Plan α)}
      (hx : x = T.play) : (f <$> x) w = (T.map (Plan.map f)).play w := by
    rw [hx, Inquiry.play_map]
  cases c with
  | set => exact hplan (set_plan _ _ _)
  | setnx => exact hask (setnx_play _ _ _)
  | getset => exact hask (getset_play _ _ _)
  | del => exact hplan (del_plan _ _)
  | incr => exact hask (incr_play _ _ _)
  | setbit => exact hask (setbit_play _ _ _ _)
  | multiSet => exact hplan (multiSet_plan _ _)
  | multiDel => exact hplan (multiDel_plan _ _)
  | hset => exact hask (hset_play _ _ _ _)
  | hdel => exact hask (hdel_play _ _ _)
  | hincr => exact hask (hincr_play _ _ _ _)
  | zset => exact hask (zset_play _ _ _ _)
  | zdel => exact hask (zdel_play _ _ _)
  | zincr => exact hask (zincr_play _ _ _ _)
  | qpushFront | qpushBack => exact hask (qpush_play _ _ _ _)
  | qpopFront | qpopBack => exact hask (qpop_play _ _ _)
  | qset => exact hask (qset_play _ _ _ _)
  | qsetBySeq => exact hask (qsetBySeq_play _ _ _ _)
  | qfix => exact hplan (qfix_plan _)
  | _ => exact absurd hc Bool.false_ne_true

end Call
