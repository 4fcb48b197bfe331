import Yubindb.Db.Background
import Yubindb.Db.BaseLevel
import Yubindb.Db.BatchGrammar
import Yubindb.Db.BlockCursor
import Yubindb.Db.BlockDamage
import Yubindb.Db.BuiltTable
import Yubindb.Db.Cache
import Yubindb.Db.CompactionInputs
import Yubindb.Db.CompactionWork
import Yubindb.Db.CurrentManifest
import Yubindb.Db.DurableOpen
import Yubindb.Db.FailedApply
import Yubindb.Db.FilterBounds
import Yubindb.Db.GrandparentOverlap
import Yubindb.Db.GroupCommit
import Yubindb.Db.InputIterator
import Yubindb.Db.InterruptedLog
import Yubindb.Db.LogReading
import Yubindb.Db.NewLog
import Yubindb.Db.PowerFailure
import Yubindb.Db.SessionLevels
import Yubindb.Db.Snapshots
import Yubindb.Db.TableErrors
import Yubindb.Db.TrivialMove
import Yubindb.Db.WriteMutex
import Yubindb.Util.ArenaRegions
import Yubindb.Util.FileBuffer
import Yubindb.Util.FileLock
import Yubindb.Util.ParseName
import Yubindb.Util.Schedule
