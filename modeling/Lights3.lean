import Lights3.TikvListing
import Lights3.CacheRuns
import Lights3.GcScan
import Lights3.OrphanScan
import Lights3.RestConfinement
import Lights3.Vending
import Lights3.Iceberg.IdHistory
import Lights3.Iceberg.EntryMirror
import Lights3.BucketOwnership
import Lights3.LifecycleExpiry
import Lights3.TimerQueue
import Lights3.AsyncSemaphore
import Lights3.RequestFraming
import Lights3.ListDisclosure
import Lights3.RevocationFinality
import Lights3.SysConfigStore
import Lights3.LocalFsTearing
import Lights3.LocalFsParts
import Lights3.WatermarkEviction
import Lights3.AccessFlush
import Lights3.RangeTee
import Lights3.PackAppend
import Lights3.CodecAgreement
import Lights3.IdSegments
import Lights3.NamespaceProperties
import Lights3.LifecycleAges
import Lights3.TableListing
import Lights3.OrphanPlanning
import Lights3.Iceberg.ViewUpdates
import Lights3.Iceberg.PartitionFieldIds
import Lights3.Iceberg.ExpiryExact
import Lights3.Iceberg.TableCreation
import Lights3.Iceberg.DeepValidation
import Lights3.Iceberg.AvroFiles
import Lights3.RateLimiter
import Lights3.CompactionPlanning
import Lights3.CancelCallbacks
import Lights3.WhenAll
import Lights3.BackgroundShutdown
import Lights3.ConditionalReads
import Lights3.LocalFsMetaText
import Lights3.ResponseWriting
