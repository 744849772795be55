import ExternalSort.Text.Decimal
import ExternalSort.Text.Blank
import ExternalSort.Text.Quoted
import ExternalSort.Text.Fixed
import ExternalSort.Crc32
import ExternalSort.Snappy.Compress
import ExternalSort.Snappy.Decompress
import ExternalSort.Json.Printer
import ExternalSort.Json.Reader
import ExternalSort.Record.Kind
import ExternalSort.Order.Check
import ExternalSort.Order.StableSort
import ExternalSort.Order.Heap
import ExternalSort.Order.Partition
import ExternalSort.Disk.Basic
import ExternalSort.Spill.Counters
import ExternalSort.Error
import ExternalSort.Options.Text
import ExternalSort.Manifest
import ExternalSort.Spill.Store
import ExternalSort.Statistics
import ExternalSort.Sorter.Basic
import ExternalSort.CommandLine.Sort
import ExternalSort.Run.Writer
import ExternalSort.CommandLine.Usage
import ExternalSort.Main
import ExternalSort.Proofs.Run.Sharing
import ExternalSort.Proofs.Run.Polling
import ExternalSort.Proofs.Sorter.Conserved
import ExternalSort.Proofs.Sorter.Failures
import ExternalSort.Proofs.Sorter.Overwritten
import ExternalSort.Proofs.Sorter.Tracking
import ExternalSort.Proofs.Sorter.Accounting
import ExternalSort.Proofs.Merge.Closing
import ExternalSort.Proofs.Merge.Faults
import ExternalSort.Proofs.Sorter.Handover
import ExternalSort.Proofs.Sorter.Renewed
import ExternalSort.Proofs.Sorter.Transparency
import ExternalSort.Proofs.CommandLine.Unstopped
import ExternalSort.Proofs.Run.Foreign
import ExternalSort.Proofs.Sorter.Truncated
import ExternalSort.Proofs.Run.Blank
import ExternalSort.Proofs.Spill.AppendOnly
import ExternalSort.Proofs.Record.BackToBack
import ExternalSort.Proofs.Order.HeapLaws
import ExternalSort.Proofs.Sorter.Lifetime
import ExternalSort.Proofs.Spill.Retries
import ExternalSort.Proofs.CommandLine.Size
