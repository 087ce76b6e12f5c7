import LittleDb.Cluster.Catchup
import LittleDb.Cluster.CommitRule
import LittleDb.Cluster.ConfigFolding
import LittleDb.Cluster.Contact
import LittleDb.Cluster.FollowerLog
import LittleDb.Cluster.Inbox
import LittleDb.Cluster.InstallCrash
import LittleDb.Cluster.InstallFaults
import LittleDb.Cluster.LeaderLogs
import LittleDb.Cluster.LogFaults
import LittleDb.Cluster.MemberChange
import LittleDb.Cluster.Standing
import LittleDb.Lincheck.Lifting
import LittleDb.Lincheck.Termination
import LittleDb.Store.CompactionFailure
import LittleDb.Store.Conflicts
import LittleDb.Store.ExactlyOnce
import LittleDb.Store.OpenTxns
import LittleDb.Store.PointReads
import LittleDb.Store.SkipMemtable
import LittleDb.Store.SnapshotRoundTrip
import LittleDb.Store.TableSafety
import LittleDb.Store.WalFaults
