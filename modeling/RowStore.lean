import RowStore.Log.File
import RowStore.Main
import RowStore.Proofs.RowCodec
import RowStore.Proofs.PageImage
import RowStore.Proofs.PageSlots
import RowStore.Proofs.FilePages
import RowStore.Proofs.LockModes
import RowStore.Proofs.LockRelease
import RowStore.Proofs.CommittedRows
import RowStore.Proofs.Endings
import RowStore.Proofs.FullTables
import RowStore.Proofs.AbortedInserts
import RowStore.Proofs.FailedCommits
import RowStore.Proofs.SettledPages
import RowStore.Proofs.LockRuns
import RowStore.Proofs.EvictionOrder
import RowStore.Proofs.PoolRuns
import RowStore.Proofs.RepeatedScans
import RowStore.Proofs.LogSessions
import RowStore.Proofs.DirtyPages
import RowStore.Proofs.UnfitRows
import RowStore.Proofs.FailedInserts
import RowStore.Proofs.DeletedRows
import RowStore.Proofs.AbortOutcomes
import RowStore.Proofs.FlushOutcomes
import RowStore.Proofs.CacheMisses
import RowStore.Proofs.TableChanges
import RowStore.Proofs.LockSignals
import RowStore.Proofs.HandedBack
import RowStore.Proofs.FailedChanges
import RowStore.Proofs.SlotGeometry
import RowStore.Proofs.LogReader
import RowStore.Proofs.PageMap
import RowStore.Proofs.ScanRuns
import RowStore.Proofs.PageArrays
import RowStore.Proofs.Registrations
import RowStore.Proofs.StoredRows
