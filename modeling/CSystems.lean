import CSystems.CrashRecovery.Durability
import CSystems.CrashRecovery.TornTail
import CSystems.BlockCache.Distinct
import CSystems.BlockCache.Indexes
import CSystems.FutexDemo.Counter
import CSystems.VersionStore.Snapshot
import CSystems.VersionStore.Rollback
import CSystems.SkipList.Membership
import CSystems.MedianFinder.OrderStatistics
import CSystems.BplusTree.Structure
import CSystems.MemoryPool.Integrity
import CSystems.PageCache.Ghosts
import CSystems.PageCache.Renaming
import CSystems.WalDemo.Torn
import CSystems.WalDemo.Histories
import CSystems.LruCache.Refinement
import CSystems.FileCache.Refinement
import CSystems.RequestQueue.Progress
import CSystems.RequestQueue.RunLength
import CSystems.SearchTree.Depths
import CSystems.TaskQueue.Order
import CSystems.ReadWriteLock.Wakeup
import CSystems.ReadWriteLock.SharedData
import CSystems.FutexDemo.Phases
import CSystems.OddEven.Alternation
import CSystems.WordCount.Split
import CSystems.FileTransfer.Transfer
import CSystems.KeyValueStore.Libraries
import CSystems.KeyValueStore.Reads
import CSystems.KeyValueStore.Acknowledged
import CSystems.Chat.Dialogue
import CSystems.VersionStore.Order
import CSystems.VersionStore.Undo
import CSystems.VersionStore.ReadOwn
import CSystems.VersionStore.Tombstones
import CSystems.VersionStore.CommitLog
import CSystems.QueryEngine.Plan
import CSystems.MemoryAllocation.Leaks
import CSystems.FileCache.Ownership
import CSystems.HashTable.Refinement
import CSystems.Marksheet.ReadBack
import CSystems.PageReplacement.Clock
import CSystems.ConcurrentMap.Interleaving
import CSystems.CrashRecovery.Checksum
import CSystems.FileCache.Hits
import CSystems.HeapTracker.Table
import CSystems.MemoryPool.Bounds
import CSystems.ChatServer.Relay
import CSystems.EchoServer.Echo
import CSystems.BplusTree.Range
import CSystems.BlockCache.Termination
import CSystems.BlockCache.Aliasing
import CSystems.MedianFinder.Median
import CSystems.CountRange.RangeSum
import CSystems.RankCount.CountSmaller
import CSystems.RankCount.CreateSorted
import CSystems.RankCount.PrefixSums
import CSystems.RankCount.Comparison
import CSystems.SlidingWindow.Maximum
import CSystems.SortedListToBst.Balance
import CSystems.BalanceBst.Rebuild
import CSystems.ValidParentheses.Grammar
import CSystems.EncodeDecode.Urls
import CSystems.GroupAnagrams.Groups
import CSystems.FileIo.Verify
import CSystems.FileIo.Async
import CSystems.FileIo.Records
import CSystems.LruCache.Index
import CSystems.Marksheet.Adding
import CSystems.LevelOrder.Traversal
import CSystems.ExpressionTree.Evaluate
import CSystems.FileCache.Pool
import CSystems.ProducerConsumer.Delivery
import CSystems.ProducerConsumer.Progress
import CSystems.PageCache.Competitive
import CSystems.MemoryPool.Fragmentation
import CSystems.PageManager.Pages
import CSystems.SharedCounter.Counters
import CSystems.SharedMessage.Publish
import CSystems.Shell.Script
import CSystems.FutexDemo.Progress
