import Patchwork.Main
import Patchwork.Proofs.Patch.FileName
import Patchwork.Proofs.Hunk.Header
import Patchwork.Proofs.Hunk.RoundTrip
import Patchwork.Proofs.Patch.NormalForm
import Patchwork.Proofs.Patch.RoundTrip
import Patchwork.Proofs.Diff.Compaction
import Patchwork.Proofs.Diff.Grouping
import Patchwork.Proofs.Patch.Between
import Patchwork.Proofs.SortedMap
import Patchwork.Proofs.Tree.Text
import Patchwork.Proofs.Stack.Replay
import Patchwork.Proofs.Stack.Arrange
import Patchwork.Proofs.Stack.Regenerate
import Patchwork.Proofs.Stack.Rebase
import Patchwork.Chain.Replay
import Patchwork.Proofs.Chain.Units
import Patchwork.Proofs.Chain.Rebase
import Patchwork.Proofs.Stack.FileByFile
import Patchwork.Proofs.Disk.Access
import Patchwork.Proofs.Store.Tree
import Patchwork.Proofs.Chain.Regenerate
import Patchwork.Proofs.Hunk.Read
import Patchwork.Proofs.Hunk.Splice
import Patchwork.Proofs.Patch.Read
import Patchwork.Proofs.Disk.Path
import Patchwork.Proofs.Patch.Apply
import Patchwork.Proofs.Text.Octets
import Patchwork.Proofs.Disk.Change
import Patchwork.Proofs.Store.Basic
import Patchwork.Proofs.Store.PatchFiles
import Patchwork.Proofs.Store.PatchWrite
import Patchwork.Proofs.Store.Series
import Patchwork.Proofs.Chain.FileUnits
import Patchwork.Proofs.Disk.Region
import Patchwork.Proofs.Store.Place
import Patchwork.Proofs.Store.TreeWrite
import Patchwork.Proofs.Store.PatchRead
import Patchwork.Proofs.Project.Config
import Patchwork.Proofs.Chain.Write
import Patchwork.Proofs.Chain.Outputs
import Patchwork.Proofs.Chain.Unedited
import Patchwork.Proofs.Store.Prune
import Patchwork.Proofs.Store.FileOrder
import Patchwork.Proofs.Store.WriteBack
import Patchwork.Proofs.Command.Run
import Patchwork.Proofs.Hunk.Nearest
import Patchwork.Proofs.Patch.Shape
import Patchwork.Proofs.Stack.RebaseError
import Patchwork.Proofs.Store.PatchExact
import Patchwork.Proofs.Tree.Below
import Patchwork.Proofs.Tree.Region
import Patchwork.Proofs.Chain.Overlay
import Patchwork.Proofs.Hunk.Positional
import Patchwork.Proofs.Patch.WholeFile
import Patchwork.Proofs.Tree.Stable
import Patchwork.Proofs.Store.TreeLoad
import Patchwork.Proofs.Store.TreeWalk
import Patchwork.Proofs.Store.TreeRestore
import Patchwork.Proofs.Tree.Names
import Patchwork.Proofs.Fetch.Retry
import Patchwork.Proofs.Stack.Targets
import Patchwork.Proofs.Word.Placement
import Patchwork.Proofs.Patch.ConflictReport
import Patchwork.Proofs.Json.Token
import Patchwork.Proofs.Json.Document
import Patchwork.Proofs.Project.SavedConfig
