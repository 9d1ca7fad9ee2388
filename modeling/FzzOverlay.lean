import FzzOverlay.Async.AppendEnd
import FzzOverlay.Async.BlockIds
import FzzOverlay.Async.Defs
import FzzOverlay.Async.Overwrite
import FzzOverlay.Async.Pending
import FzzOverlay.Async.Requests
import FzzOverlay.Async.Shared
import FzzOverlay.Async.Touched
import FzzOverlay.Async.Trim
import FzzOverlay.Async.Worker
import FzzOverlay.CopyUp.Block
import FzzOverlay.CopyUp.BlockExact
import FzzOverlay.CopyUp.Flags
import FzzOverlay.CopyUp.FlagsSpec
import FzzOverlay.CopyUp.Setup
import FzzOverlay.CopyUp.Tree
import FzzOverlay.Cow.Bookkeeping
import FzzOverlay.Cow.DataPaths
import FzzOverlay.Cow.EndOfFile
import FzzOverlay.Cow.Evict
import FzzOverlay.Cow.FailedWrite
import FzzOverlay.Cow.Hidden
import FzzOverlay.Cow.Logical
import FzzOverlay.Cow.Ranges
import FzzOverlay.Cow.Reachable
import FzzOverlay.Cow.Refinement
import FzzOverlay.Cow.Routes
import FzzOverlay.Cow.Shape
import FzzOverlay.Cow.ShortWrite
import FzzOverlay.Cow.Size
import FzzOverlay.Cow.Truncate
import FzzOverlay.Dir.Create
import FzzOverlay.Dir.Created
import FzzOverlay.Dir.GetRedirect
import FzzOverlay.Dir.Moved
import FzzOverlay.Dir.Names
import FzzOverlay.Dir.Remove
import FzzOverlay.Dir.SetRedirect
import FzzOverlay.Dir.Upper
import FzzOverlay.Entry
import FzzOverlay.Export.Handle
import FzzOverlay.File.Access
import FzzOverlay.File.Alike
import FzzOverlay.File.Cache
import FzzOverlay.File.FullRead
import FzzOverlay.File.Paths
import FzzOverlay.File.Position
import FzzOverlay.File.RangeRead
import FzzOverlay.File.Read
import FzzOverlay.File.Serve
import FzzOverlay.File.Terminates
import FzzOverlay.File.Write
import FzzOverlay.File.WriteSpec
import FzzOverlay.Inode
import FzzOverlay.Inode.Number
import FzzOverlay.Lib.Act
import FzzOverlay.Lib.ByteFifo
import FzzOverlay.Lib.CString
import FzzOverlay.Lib.Hex
import FzzOverlay.Lib.NameList
import FzzOverlay.Lib.Owned
import FzzOverlay.Lib.Run
import FzzOverlay.Lib.SearchTree
import FzzOverlay.Lib.SlashPath
import FzzOverlay.Lib.SparseFile
import FzzOverlay.Namei.Agree
import FzzOverlay.Namei.Bytes
import FzzOverlay.Namei.Frame
import FzzOverlay.Namei.Lookup
import FzzOverlay.Namei.Redirect
import FzzOverlay.Namei.Resolve
import FzzOverlay.Namei.Scan
import FzzOverlay.Namei.Walk
import FzzOverlay.Nlink
import FzzOverlay.Readdir.Batch
import FzzOverlay.Readdir.Batches
import FzzOverlay.Readdir.EmptyDir
import FzzOverlay.Readdir.Impure
import FzzOverlay.Readdir.Iterate
import FzzOverlay.Readdir.Merge
import FzzOverlay.Readdir.Number
import FzzOverlay.Readdir.Refcount
import FzzOverlay.Readdir.Union
import FzzOverlay.RedirectXattr
import FzzOverlay.Setattr
import FzzOverlay.Super.FillSuper
import FzzOverlay.Super.FillSuperSpec
import FzzOverlay.Super.Fsid
import FzzOverlay.Super.InUse
import FzzOverlay.Super.MetaSave
import FzzOverlay.Super.MountLayers
import FzzOverlay.Super.MountOpts
import FzzOverlay.Super.Mounted
import FzzOverlay.Super.Options
import FzzOverlay.Super.Slab
import FzzOverlay.Super.Threads
import FzzOverlay.Xattr.CopyXattr
import FzzOverlay.Xattr.Listing
import FzzOverlay.Xattr.NlinkBytes
import FzzOverlay.Xattr.RedirectScan
