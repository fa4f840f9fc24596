import UnixSys.Posix.Descriptors
import UnixSys.Posix.Prog
import UnixSys.Lib.Pieces
import UnixSys.Lib.Blocks
import UnixSys.Shell.Source
import UnixSys.Shell.Branches
import UnixSys.Posix.Sequential
import UnixSys.Posix.Passes
import UnixSys.Posix.Policy
import UnixSys.Posix.Children
import UnixSys.Posix.Shows
import UnixSys.Posix.Worlds
import UnixSys.Posix.Files
import UnixSys.Shell.Tokens
import UnixSys.Shell.Fields
import UnixSys.Shell.Meaning
import UnixSys.Shell.Effects
import UnixSys.Shell.Refine
import UnixSys.Shell.ReadLoop
import UnixSys.Shell.Calls
import UnixSys.Shell.Scan
import UnixSys.Shell.Selection
import UnixSys.Shell.Stale
import UnixSys.Shell.Capacity
import UnixSys.Shell.Compile
import UnixSys.Shell.Splitting
import UnixSys.Lib.Runs
import UnixSys.Posix.Kernel
import UnixSys.Posix.Solo
import UnixSys.Shell.Wiring
import UnixSys.Posix.Ahead
import UnixSys.Posix.Wait
import UnixSys.Shell.Session
import UnixSys.Shell.Waiting
import UnixSys.Shell.Contexts
import UnixSys.Shell.Rounds
import UnixSys.Shell.Returns
import UnixSys.Shell.Worded
import UnixSys.Shell.Redirections
import UnixSys.Posix.Stage
import UnixSys.Shell.Flow
import UnixSys.Shell.Pipelines
import UnixSys.Shell.ThreePipe
import UnixSys.Shell.Cancel
import UnixSys.Posix.Stdio
import UnixSys.Shell.Prompts
import UnixSys.Shell.History
import UnixSys.Shell.Joined
import UnixSys.Shell.Sequence
import UnixSys.Shell.BySystem
import UnixSys.Lib.Census
import UnixSys.Listing.Source
import UnixSys.Listing.Census
import UnixSys.Listing.Types
import UnixSys.Lib.Decimal
import UnixSys.Lib.Overlay
import UnixSys.Lib.Chains
import UnixSys.Lib.CallTree
import UnixSys.Lib.LockOrder
import UnixSys.Forks.Source
import UnixSys.Forks.Processes
import UnixSys.Forks.Ends
import UnixSys.Forks.Count
import UnixSys.Db.Calls
import UnixSys.Db.Source
import UnixSys.Db.Layout
import UnixSys.Db.Files
import UnixSys.Db.Records
import UnixSys.Db.Access
import UnixSys.Db.Update
import UnixSys.Db.Find
import UnixSys.Db.Invariant
import UnixSys.Db.Changes
import UnixSys.Db.Operations
import UnixSys.Db.Contents
import UnixSys.Db.Scan
import UnixSys.Db.Session
import UnixSys.Db.Separator
import UnixSys.Db.Space
import UnixSys.Db.Locking
import UnixSys.Db.Processes
