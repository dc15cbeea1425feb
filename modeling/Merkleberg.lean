import Merkleberg.Clones
import Merkleberg.Commit
import Merkleberg.Fallible
import Merkleberg.Forest.Bagged
import Merkleberg.Forest.Climb
import Merkleberg.Forest.Follow
import Merkleberg.Forest.Growth
import Merkleberg.Forest.Measure
import Merkleberg.Forest.Peaks
import Merkleberg.Forest.Position
import Merkleberg.Forest.Sections
import Merkleberg.Forest.Shape
import Merkleberg.Forest.Suffix
import Merkleberg.Forest.Tree
import Merkleberg.Helper
import Merkleberg.Helper.Agreement
import Merkleberg.Helper.Height
import Merkleberg.Helper.Hints
import Merkleberg.Helper.InclusionPath
import Merkleberg.Helper.Peaks
import Merkleberg.Log
import Merkleberg.Lossy
import Merkleberg.Machine.Bits
import Merkleberg.Machine.Fuel
import Merkleberg.Machine.Lockstep
import Merkleberg.Machine.Outcome
import Merkleberg.Machine.SharedLog
import Merkleberg.Machine.Word
import Merkleberg.Matching
import Merkleberg.Measure
import Merkleberg.Merge
import Merkleberg.Mmr
import Merkleberg.Mmr.Binding
import Merkleberg.Mmr.Commitment
import Merkleberg.Mmr.Completeness
import Merkleberg.Mmr.Duplicates
import Merkleberg.Mmr.Evaluate
import Merkleberg.Mmr.Extend
import Merkleberg.Mmr.Extended
import Merkleberg.Mmr.Forgery
import Merkleberg.Mmr.Incremental
import Merkleberg.Mmr.IncrementalSoundness
import Merkleberg.Mmr.IncrementalTotal
import Merkleberg.Mmr.Leaves
import Merkleberg.Mmr.Lengths
import Merkleberg.Mmr.Lockstep
import Merkleberg.Mmr.Measure
import Merkleberg.Mmr.Parts
import Merkleberg.Mmr.Queue
import Merkleberg.Mmr.Represents
import Merkleberg.Mmr.Run
import Merkleberg.Mmr.Session
import Merkleberg.Mmr.Soundness
import Merkleberg.Mmr.Sync
import Merkleberg.Mmr.Total
import Merkleberg.Mmriver
import Merkleberg.Mmriver.Append
import Merkleberg.Mmriver.Binding
import Merkleberg.Mmriver.Checked
import Merkleberg.Mmriver.Commitment
import Merkleberg.Mmriver.Compose
import Merkleberg.Mmriver.Consistency
import Merkleberg.Mmriver.Forgery
import Merkleberg.Mmriver.Forward
import Merkleberg.Mmriver.HashedHistory
import Merkleberg.Mmriver.History
import Merkleberg.Mmriver.Inclusion
import Merkleberg.Mmriver.Path
import Merkleberg.Mmriver.Roots
import Merkleberg.Mmriver.Run
import Merkleberg.Mmriver.Session
import Merkleberg.Mmriver.Splice
import Merkleberg.Mmriver.Subtrees
import Merkleberg.Mmriver.Total
import Merkleberg.Mmriver.Unique
import Merkleberg.Pending
import Merkleberg.Persistence
import Merkleberg.Pruned
import Merkleberg.Recorded
import Merkleberg.Recovery
import Merkleberg.SameTree
import Merkleberg.SecondPreimage
import Merkleberg.Session
import Merkleberg.Sharing
import Merkleberg.Short
import Merkleberg.Store
import Merkleberg.Store.Batch
import Merkleberg.Store.Commit
import Merkleberg.Store.Default
import Merkleberg.Store.Reads
import Merkleberg.Symbolic
