import Ssdb.Api.Calls

/-- What `std::string` takes from the UTF-8 bytes of an `NSString`: it stops at a zero byte. -/
def cString (utf8 : Bytes) : Bytes := utf8.takeWhile (fun c => c ≠ 0)

namespace SSDB

def del (key : Bytes) : M Bool := do
  let ret ← SSDBImpl.del (cString key) BinlogType.SYNC
  return if ret = 0 then true else false

def hsize (table : Bytes) : M Int := do
  let size ← SSDBImpl.hsize (cString table)
  return size.toInt

def hclear (table : Bytes) : M Bool := do
  let ret ← SSDBImpl.hclear (cString table)
  return if ret = 0 then true else false

end SSDB
