import MisakiDB.Index.Orphans
import MisakiDB.Buffer.PoolClients
import MisakiDB.Buffer.PoolWakeUps
import MisakiDB.Buffer.WorkingSet
import MisakiDB.Buffer.OverFiles
import MisakiDB.Buffer.Unread
import MisakiDB.Store.FileStore
import MisakiDB.Server.Receive
import MisakiDB.Server.Service
import MisakiDB.Data.PageMap
import MisakiDB.Data.FirstFit
import MisakiDB.DataBase.CallRuns
import MisakiDB.Data.BlobRuns
import MisakiDB.Data.DataAccessor
import MisakiDB.Data.RecordRuns
import MisakiDB.DataBase.Readers
import MisakiDB.DataBase.Overlaps
import MisakiDB.DataBase.OnFiles
import MisakiDB.Data.AllocateThreads
import MisakiDB.Index.FileClients
import MisakiDB.Index.IndexIterator
import MisakiDB.Buffer.ReplacerHistory
import MisakiDB.Index.InBounds
import MisakiDB.Index.Siblings
import MisakiDB.Index.TreeThreads
import MisakiDB.Index.PageCost
import MisakiDB.Server.WakeUps
