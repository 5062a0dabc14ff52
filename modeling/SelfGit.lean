import SelfGit.Adding
import SelfGit.Answers
import SelfGit.AnyOrder
import SelfGit.ArrayBounds
import SelfGit.Ascending
import SelfGit.AtomicIndex
import SelfGit.BinarySearch
import SelfGit.BlobRoundTrip
import SelfGit.BufferBounds
import SelfGit.Cache
import SelfGit.CacheEdits
import SelfGit.ChangeDetection
import SelfGit.Command
import SelfGit.Commit
import SelfGit.CommitBuffer
import SelfGit.CommitEncoding
import SelfGit.CommitId
import SelfGit.CommitTerms
import SelfGit.CommitText
import SelfGit.CommitWithoutTree
import SelfGit.Console
import SelfGit.DamagedObjects
import SelfGit.DiffReport
import SelfGit.Edits
import SelfGit.Erasing
import SelfGit.ExactReading
import SelfGit.Footprints
import SelfGit.Foundation.Bytes
import SelfGit.Foundation.Determinism
import SelfGit.Foundation.Embedding
import SelfGit.Foundation.Exec
import SelfGit.Foundation.Getopt
import SelfGit.Foundation.Interleaving
import SelfGit.Foundation.Laws
import SelfGit.Foundation.Program
import SelfGit.Foundation.Protocols
import SelfGit.Foundation.Runs
import SelfGit.Foundation.Shell
import SelfGit.Foundation.Slots
import SelfGit.Foundation.Text
import SelfGit.GitTerms
import SelfGit.HandlerTerms
import SelfGit.HexNaming
import SelfGit.Indeterminate
import SelfGit.Index
import SelfGit.IndexBounds
import SelfGit.IndexImage
import SelfGit.IndexRoundTrip
import SelfGit.InitDb
import SelfGit.Integrity
import SelfGit.Layout
import SelfGit.Locking
import SelfGit.Lookup
import SelfGit.LostUpdate
import SelfGit.MapUpdate
import SelfGit.Moves
import SelfGit.ObjectNames
import SelfGit.Objects
import SelfGit.Operands
import SelfGit.OrdinaryFiles
import SelfGit.ParentRows
import SelfGit.Parents
import SelfGit.PathGrammar
import SelfGit.PrintedIds
import SelfGit.Processes
import SelfGit.ReadObject
import SelfGit.ReadOnly
import SelfGit.Reload
import SelfGit.Removal
import SelfGit.Remove
import SelfGit.RemoveReport
import SelfGit.Serial
import SelfGit.Sessions
import SelfGit.SharedStore
import SelfGit.Sharing
import SelfGit.ShellCommand
import SelfGit.ShowDiff
import SelfGit.SizeLimits
import SelfGit.StatusReport
import SelfGit.StoreHistory
import SelfGit.StoredZlib
import SelfGit.System
import SelfGit.Terminal
import SelfGit.Terms
import SelfGit.TrackedNames
import SelfGit.Tree
import SelfGit.TreeBounds
import SelfGit.TreeCanonical
import SelfGit.TreeRoundTrip
import SelfGit.UnpackSafety
import SelfGit.UpdateCache
import SelfGit.UpdateCacheTerms
import SelfGit.Versions
import SelfGit.WildSlots
