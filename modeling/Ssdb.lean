import Ssdb.Theory.NoTrace
import Ssdb.Theory.HashSize
import Ssdb.Theory.Truthful
import Ssdb.Theory.ScoreScans
import Ssdb.Theory.QueueRefinement
import Ssdb.Theory.HashScans
import Ssdb.Theory.Isolation
import Ssdb.Theory.Pages
import Ssdb.Theory.Mirrors
import Ssdb.Theory.Enumerated
import Ssdb.Theory.ReadFaults
import Ssdb.Theory.Completeness
import Ssdb.Theory.Retention
import Ssdb.Theory.Flushing
import Ssdb.Theory.Offsets
import Ssdb.Theory.Acknowledged
import Ssdb.Theory.Increments
import Ssdb.Theory.Places
import Ssdb.Theory.Slices
import Ssdb.Theory.Rebuilt
import Ssdb.Theory.Replacing
import Ssdb.Theory.Repaired
import Ssdb.Theory.Clearing
import Ssdb.Theory.Wakeups
import Ssdb.Theory.Bits
import Ssdb.Theory.RoundTrip
import Ssdb.Util.Line
import Ssdb.Util.SortedNodes
import Ssdb.Util.IpFilter
import Ssdb.Util.Records
import Ssdb.Theory.Wrappers
import Ssdb.Theory.Cleaning
import Ssdb.Theory.AppendOnly
import Ssdb.Theory.ScoreKeys
import Ssdb.Theory.SortedKeys
import Ssdb.Util.ConfigSave
import Ssdb.Leveldb.LogRecovery
import Ssdb.Leveldb.WriteBatch
import Ssdb.Leveldb.DBIter
import Ssdb.Leveldb.Merger
import Ssdb.Leveldb.RecoverLog
import Ssdb.Leveldb.StoreIterator
