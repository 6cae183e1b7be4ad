import Grmdb.AggrGroups
import Grmdb.AggregateExecutor
import Grmdb.Analyze
import Grmdb.AnalyzeTables
import Grmdb.AssocMap
import Grmdb.Bitmap
import Grmdb.BufferPool
import Grmdb.ByteLayout
import Grmdb.CallGrants
import Grmdb.Catalog
import Grmdb.ChainedTree
import Grmdb.Checkpoint
import Grmdb.ClientHandler
import Grmdb.ColumnKeys
import Grmdb.CommentState
import Grmdb.CommitDurability
import Grmdb.CommitOrder
import Grmdb.CondMeaning
import Grmdb.CondRange
import Grmdb.CondsKept
import Grmdb.CreateIndex
import Grmdb.Cursor
import Grmdb.DeleteSearches
import Grmdb.Derivations
import Grmdb.DescriptorReuse
import Grmdb.DiskManager
import Grmdb.DiskPages
import Grmdb.DropTable
import Grmdb.Environments
import Grmdb.ExecutorProtocol
import Grmdb.FootprintUnlock
import Grmdb.FrameInvariant
import Grmdb.GapBounds
import Grmdb.GapCopies
import Grmdb.GapCover
import Grmdb.GapKeys
import Grmdb.GapQueue
import Grmdb.GapRange
import Grmdb.GrantPass
import Grmdb.GrantRelease
import Grmdb.Grouping
import Grmdb.HandlerInvariant
import Grmdb.HonestCursor
import Grmdb.InWay
import Grmdb.IndexAllocation
import Grmdb.IndexDelete
import Grmdb.IndexEntry
import Grmdb.IndexHandle
import Grmdb.IndexHeader
import Grmdb.IndexInsert
import Grmdb.IndexKey
import Grmdb.IndexKeys
import Grmdb.IndexMap
import Grmdb.IndexMatch
import Grmdb.IndexMerge
import Grmdb.IndexNode
import Grmdb.IndexPages
import Grmdb.IndexPins
import Grmdb.IndexScan
import Grmdb.IndexScanExact
import Grmdb.IndexScanFilter
import Grmdb.IndexScanRows
import Grmdb.IndexShape
import Grmdb.IndexShift
import Grmdb.IndexSplit
import Grmdb.IndexTree
import Grmdb.IndexValues
import Grmdb.IndexView
import Grmdb.InsertConflict
import Grmdb.InsertExecutor
import Grmdb.JoinAgreement
import Grmdb.JoinExecutors
import Grmdb.JoinFilter
import Grmdb.JoinPair
import Grmdb.JoinProgress
import Grmdb.JoinRuns
import Grmdb.JoinTree
import Grmdb.KeyCalls
import Grmdb.KeyOverloads
import Grmdb.KeySearch
import Grmdb.KeyWaits
import Grmdb.KeyedIndex
import Grmdb.LeafChain
import Grmdb.LinkedChain
import Grmdb.LockAccount
import Grmdb.LockCalls
import Grmdb.LockFootprint
import Grmdb.LockKept
import Grmdb.LockQueues
import Grmdb.LockResidue
import Grmdb.LockSteps
import Grmdb.LockSystem
import Grmdb.LockTable
import Grmdb.LockUnlock
import Grmdb.LockWaits
import Grmdb.LogAppend
import Grmdb.LogCut
import Grmdb.LogFormat
import Grmdb.LogManager
import Grmdb.LogOutcome
import Grmdb.LogRace
import Grmdb.LogRecord
import Grmdb.LogScan
import Grmdb.LongestMatch
import Grmdb.LostGrants
import Grmdb.LruOrder
import Grmdb.LsnRestart
import Grmdb.MapM
import Grmdb.MergeJoin
import Grmdb.NodeSearch
import Grmdb.OrderedMap
import Grmdb.OutcomeFinality
import Grmdb.PagedTree
import Grmdb.ParseClauses
import Grmdb.ParseSelect
import Grmdb.ParseSlots
import Grmdb.ParseStatement
import Grmdb.PhantomProtection
import Grmdb.PinBalance
import Grmdb.PinCounts
import Grmdb.PointLookup
import Grmdb.PoolCoherence
import Grmdb.PoolFailures
import Grmdb.Portal
import Grmdb.QueryAnalyze
import Grmdb.QueryAnswers
import Grmdb.QueryPlan
import Grmdb.RangeRows
import Grmdb.RecordExclusion
import Grmdb.RecordFile
import Grmdb.RecordGroups
import Grmdb.RecordMap
import Grmdb.RecordPrinter
import Grmdb.RecordQueue
import Grmdb.RecordReinsert
import Grmdb.RecordRelease
import Grmdb.RecoverCrash
import Grmdb.RecoverReplay
import Grmdb.RecoverTwice
import Grmdb.Recovery
import Grmdb.RedoHistory
import Grmdb.RedoIdempotent
import Grmdb.Replacer
import Grmdb.RmScan
import Grmdb.RunMerge
import Grmdb.Runs
import Grmdb.ScanConds
import Grmdb.ScanExecutors
import Grmdb.SelectAnswers
import Grmdb.SelectPlan
import Grmdb.SeqScan
import Grmdb.ShiftReduce
import Grmdb.ShiftReduceComplete
import Grmdb.ShiftReduceHalts
import Grmdb.ShiftReduceLazy
import Grmdb.ShiftReduceSound
import Grmdb.ShiftReduceValues
import Grmdb.SlotReuse
import Grmdb.SmMeta
import Grmdb.SortExecutor
import Grmdb.SortOrder
import Grmdb.SqlParse
import Grmdb.SqlRoundtrip
import Grmdb.SqlTokens
import Grmdb.StaleClauses
import Grmdb.SubqueryScan
import Grmdb.SubquerySlot
import Grmdb.TableCalls
import Grmdb.TableExclusion
import Grmdb.TableQueue
import Grmdb.TableRelease
import Grmdb.TableRollback
import Grmdb.TableRows
import Grmdb.Tiling
import Grmdb.Transaction
import Grmdb.TreeCut
import Grmdb.TreeJoin
import Grmdb.TreeRoot
import Grmdb.TreeShift
import Grmdb.TupleValue
import Grmdb.UndoChain
import Grmdb.UndoLog
import Grmdb.UndoOrder
import Grmdb.UniqueKey
import Grmdb.UnlockQueues
import Grmdb.UpdateExecutor
import Grmdb.ValueEncoding
import Grmdb.ValueSearch
import Grmdb.WaitRun
import Grmdb.WaitShape
import Grmdb.WhereConds
import Grmdb.WriteAhead
import Grmdb.YaccActions
import Grmdb.YaccItems
import Grmdb.YaccTables
import Grmdb.Yylex
import Grmdb.Yyparse
import Grmdb.YyparseExact
