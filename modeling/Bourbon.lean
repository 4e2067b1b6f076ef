import Bourbon.Lib.Bisect
import Bourbon.Lib.ErrorCone
import Bourbon.Lib.Decimal
import Bourbon.Lib.SortedIterator
import Bourbon.Util.Slice
import Bourbon.Mod.Util
import Bourbon.Mod.Plr
import Bourbon.Mod.LearnedIndex
import Bourbon.Util.Coding
import Bourbon.Util.Varint
import Bourbon.Db.Dbformat
import Bourbon.Db.FileMetaData
import Bourbon.Db.LevelModel
import Bourbon.Lib.Pieces
import Bourbon.Table.Block
import Bourbon.Table.BlockSeek
import Bourbon.Table.Format
import Bourbon.Table.TableBuilder
import Bourbon.Table.Table
import Bourbon.Table.Uniform
import Bourbon.Db.TableCache
import Bourbon.Mod.Vlog
import Bourbon.Db.Writes
import Bourbon.Db.Geometry
import Bourbon.Mod.ModelFile
import Bourbon.Mod.ModelText
import Bourbon.Lib.RefCount
import Bourbon.Lib.Steps
import Bourbon.Db.VersionEdit
import Bourbon.Db.Sessions
import Bourbon.Db.SessionModels
import Bourbon.Db.Version
import Bourbon.Db.Compaction
import Bourbon.Db.DbImpl
import Bourbon.Db.LevelOrder
import Bourbon.Db.InputClosure
import Bourbon.Db.CompactionWork
import Bourbon.Db.Interleaving
import Bourbon.Db.Visible
import Bourbon.Db.CompactionReads
import Bourbon.Db.Lookup
import Bourbon.Db.VersionGet
import Bourbon.Db.VersionSet
import Bourbon.Db.DbGet
import Bourbon.Db.Refinement
import Bourbon.Db.Separation
import Bourbon.Table.Merger
import Bourbon.Db.DbIter
import Bourbon.Db.Scan
import Bourbon.Db.Log
import Bourbon.Db.WriteBatch
import Bourbon.Db.EditCodec
import Bourbon.Db.Manifest
import Bourbon.Db.Recovery
import Bourbon.Db.Replay
import Bourbon.Db.Durability
import Bourbon.Db.Close
import Bourbon.Db.Garbage
import Bourbon.Db.FileNumbers
import Bourbon.Db.LogFiles
import Bourbon.Db.WriteQueue
import Bourbon.Db.RepairedReads
import Bourbon.Db.Cursor
import Bourbon.Db.LevelLearning
import Bourbon.Db.ReadBounds
import Bourbon.Db.TableCacheGet
import Bourbon.Table.RoundTrip
import Bourbon.Util.CacheRuns
import Bourbon.Mod.PlrDivisions
import Bourbon.Db.ForcedFlush
import Bourbon.Db.SyncErrors
import Bourbon.Db.MemTable
