import Gtm.Theorems.SubscriptRoundTrip
import Gtm.Theorems.Serializability
import Gtm.Theorems.StringPool
import Gtm.Theorems.SpanningNodes
import Gtm.Theorems.BooleanJumps
import Gtm.Theorems.LiteralFolding
import Gtm.Theorems.ReplicationHistory
import Gtm.Theorems.TransactionLevels
import Gtm.Theorems.AliasCollection
import Gtm.Theorems.KeyExpansion
import Gtm.Theorems.TimerQueue
import Gtm.Theorems.TreeCollation
import Gtm.Theorems.TreeCopy
import Gtm.Theorems.LockLevel
import Gtm.Theorems.LockClean
import Gtm.Theorems.ShrsubCollect
import Gtm.Theorems.LockRehash
import Gtm.Theorems.LockExclusion
import Gtm.Theorems.LockWaking
import Gtm.Theorems.Bitmaps
import Gtm.Theorems.MapSearch
import Gtm.Theorems.PrcblkQueue
import Gtm.Theorems.SortBounds
import Gtm.Theorems.SeparatorKey
import Gtm.Theorems.LeafSiblings
import Gtm.Theorems.Addition
import Gtm.Theorems.NumberStrings
import Gtm.Theorems.PieceDifferences
import Gtm.Theorems.Reallocation
import Gtm.Theorems.BlockQueues
import Gtm.Theorems.IncrementCommit
import Gtm.Theorems.Alternation
import Gtm.Theorems.PieceCalls
import Gtm.Theorems.DeferredEvents
import Gtm.Theorems.BuddyList
import Gtm.Theorems.TrBuffSafety
import Gtm.Theorems.DateText
import Gtm.Theorems.JustifyText
import Gtm.Theorems.NumberRoom
import Gtm.Theorems.NumberKeys
import Gtm.Theorems.IntegerMvals
import Gtm.Theorems.JournalCleanup
import Gtm.Theorems.FindBucket
import Gtm.Theorems.LeafStore
