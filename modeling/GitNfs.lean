import GitNfs.Commits
import GitNfs.Wal.Shown
import GitNfs.Wal.Exact
import GitNfs.Wal.Additions
import GitNfs.Vfs.Spared
import GitNfs.Wal.Untouched
import GitNfs.Wal.Stamps
import GitNfs.Wal.Written
import GitNfs.Git.FileView
import GitNfs.Wal.Crashed
import GitNfs.Wal.NextServer
import GitNfs.Wal.Faithful
import GitNfs.Nfs.Mirror
import GitNfs.Vfs.WayBack
import GitNfs.Fleet.Zombie
import GitNfs.Fleet.Sequences
import GitNfs.Restart
import GitNfs.Wal.Closing
import GitNfs.Wal.Replayed
import GitNfs.Wal.Trees
import GitNfs.Git.Committed
import GitNfs.Git.Hops
import GitNfs.Git.Protocol
import GitNfs.Git.Resolve
import GitNfs.Git.Unchanged
import GitNfs.Git.DeltaValid
import GitNfs.Cache.Blobs
import GitNfs.Cache.Prefetch
import GitNfs.Vfs.Paths
import GitNfs.Vfs.Updates
import GitNfs.Vfs.Concurrent
import GitNfs.Vfs.Lazy
import GitNfs.Wal.Packed
import GitNfs.Git.PktLines
import GitNfs.Nfs.Contents
import GitNfs.Nfs.BaseBlob
import GitNfs.Nfs.Found
import GitNfs.Nfs.Frames
import GitNfs.Nfs.Paging
import GitNfs.Cache.BlockReads
import GitNfs.Cache.BlockFlight
import GitNfs.Cache.BlobFlight
import GitNfs.Git.Initialize
import GitNfs.Git.CommitSummary
import GitNfs.Git.IndexSafety
import GitNfs.Git.ServerInfo
import GitNfs.Git.SmartHttp
import GitNfs.Git.PackCut
import GitNfs.Git.ManyPacks
import GitNfs.Git.WrittenPack
import GitNfs.Git.OpenBucket
import GitNfs.Git.Complete
import GitNfs.Startable
import GitNfs.Git.Fetch
import GitNfs.Git.Starts
import GitNfs.Published
