import Kerplace.Lib.Prog
import Kerplace.Lib.FileTree
import Kerplace.Lib.Leaves
import Kerplace.Lib.UnixPath
import Kerplace.Lib.Routes
import Kerplace.Lib.Versions
import Kerplace.Lib.Chunks
import Kerplace.Lib.Lines
import Kerplace.Lib.Json
import Kerplace.Lib.Logs
import Kerplace.Lib.ShardCode
import Kerplace.Storage.Types
import Kerplace.Storage.Drive
import Kerplace.Storage.Region
import Kerplace.Storage.Uploads
import Kerplace.Crypto.Container
import Kerplace.Crypto.Readers
import Kerplace.Crypto.Tamper
import Kerplace.Erasure.Codec
import Kerplace.Erasure.Cluster
import Kerplace.Erasure.Layout
import Kerplace.Erasure.Store
import Kerplace.Erasure.Calls
import Kerplace.Erasure.Write
import Kerplace.Erasure.Read
import Kerplace.Erasure.Places
import Kerplace.Erasure.Frame
import Kerplace.Erasure.Put
import Kerplace.Erasure.Replicated
import Kerplace.Erasure.Ledger
import Kerplace.Erasure.Acked
import Kerplace.Erasure.Multipart
import Kerplace.Erasure.Listing
import Kerplace.Erasure.Key
import Kerplace.Erasure.Bookkeeping
import Kerplace.Erasure.Config
import Kerplace.Erasure.ConfigRuns
import Kerplace.Erasure.RoundTrip
import Kerplace.Lib.Machine
import Kerplace.Lib.Tickets
import Kerplace.Lib.Race
import Kerplace.Lib.Sharing
import Kerplace.Cluster.LockTable
import Kerplace.Cluster.Leases
import Kerplace.Cluster.Gateways
import Kerplace.Cluster.Exclusion
import Kerplace.Cluster.Fencing
import Kerplace.Auth.Chunked
import Kerplace.Auth.Uploads
import Kerplace.Auth.UserRace
import Kerplace.Fs.Listing
import Kerplace.Fs.Versions
import Kerplace.Fs.Sizes
import Kerplace.Auth.Identity
import Kerplace.Auth.Gate
import Kerplace.Erasure.KeyRuns
import Kerplace.Erasure.Deletes
import Kerplace.Erasure.Heal
import Kerplace.Erasure.Mend
import Kerplace.Erasure.Damage
import Kerplace.Erasure.HealRuns
import Kerplace.Erasure.Serial
import Kerplace.Erasure.HealRace
import Kerplace.Handlers.ObjectLock
import Kerplace.Handlers.Listing
import Kerplace.Handlers.LockRuns
import Kerplace.Fs.Layout
import Kerplace.Fs.Store
import Kerplace.Fs.Calls
import Kerplace.Fs.Places
import Kerplace.Fs.Isolation
import Kerplace.Erasure.Buckets
import Kerplace.Fs.Buckets
import Kerplace.Fs.Multipart
import Kerplace.Erasure.UploadRuns
import Kerplace.Fs.UploadRuns
import Kerplace.Erasure.Copies
import Kerplace.Fs.Copies
import Kerplace.Crypto.Ranges
import Kerplace.Fs.Ranges
import Kerplace.Storage.Files
import Kerplace.Fs.Own
import Kerplace.Fs.Independence
import Kerplace.Lib.Twins
import Kerplace.Storage.Payloads
import Kerplace.Erasure.AtRest
import Kerplace.Fs.AtRest
import Kerplace.Auth.Framing
import Kerplace.Auth.Temporary
import Kerplace.Auth.Tokens
import Kerplace.Crypto.Madmin
import Kerplace.Crypto.KeyFiles
import Kerplace.Crypto.KeyStarts
import Kerplace.Auth.Query
import Kerplace.Handlers.Ranges
import Kerplace.Auth.Presigned
import Kerplace.Erasure.Listed
import Kerplace.Erasure.Removal
import Kerplace.Erasure.Marking
import Kerplace.Fs.Removal
import Kerplace.Handlers.Lifecycle
import Kerplace.Handlers.LifecycleStores
import Kerplace.Handlers.LifecycleDocs
import Kerplace.Auth.UserFailures
import Kerplace.Crypto.DekCache
import Kerplace.Cluster.KeyLocks
import Kerplace.Cluster.DriveServer
import Kerplace.Cluster.RemoteDrive
import Kerplace.Erasure.Faults
import Kerplace.Handlers.ForceDelete
import Kerplace.Erasure.VersionRuns
import Kerplace.Auth.Signing
import Kerplace.Auth.AccessLog
import Kerplace.Handlers.Trait
import Kerplace.Handlers.Responses
import Kerplace.Handlers.BucketApi
import Kerplace.Handlers.ObjectApi
import Kerplace.Handlers.Api
import Kerplace.Fs.Backend
import Kerplace.Fs.Puts
import Kerplace.Handlers.Answers
import Kerplace.Handlers.OnDisk
import Kerplace.Handlers.RoundTrip
import Kerplace.Handlers.Metadata
import Kerplace.Handlers.Sealing
import Kerplace.Handlers.AuditTrail
import Kerplace.Auth.Sessions
import Kerplace.Handlers.Secrets
import Kerplace.Handlers.Provisioning
import Kerplace.Handlers.Authority
