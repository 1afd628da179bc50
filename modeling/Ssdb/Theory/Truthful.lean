import Ssdb.Api.ObjC
import Ssdb.Theory.HashClear
import Ssdb.Theory.HashRecords

namespace SSDB
open Keys SSDBImpl HashTable

def before (w : SSDBImpl) (fails : Bool) : SSDBImpl := { w with faults := ⟨[], [fails]⟩ }

def reports (x : M Bool) (fails : Bool) (w : SSDBImpl) : Prop := (x (before w fails)).1 = true

variable {w : SSDBImpl} {fails : Bool}

end SSDB
