import CappuccinOS.Lib.Word
import CappuccinOS.Lib.Cover
import CappuccinOS.Lib.Bits
import CappuccinOS.Lib.Bytes
import CappuccinOS.Lib.Text
import CappuccinOS.Lib.Hex
import CappuccinOS.Lib.Canonical
import CappuccinOS.Mem.Align
import CappuccinOS.Heap.Allocator
import CappuccinOS.Heap.Conservation
import CappuccinOS.Heap.Alignment
import CappuccinOS.Heap.Restore
import CappuccinOS.Heap.Remainder
import CappuccinOS.Heap.Oversized
import CappuccinOS.Pmm.Manager
import CappuccinOS.Pmm.Safety
import CappuccinOS.Pmm.Init
import CappuccinOS.Pmm.Coverage
import CappuccinOS.Pmm.Report
import CappuccinOS.Paging.Map
import CappuccinOS.Paging.Walk
import CappuccinOS.Paging.Tree
import CappuccinOS.Paging.LastWriter
import CappuccinOS.Paging.Split
import CappuccinOS.Paging.Fallback
import CappuccinOS.Paging.Init
import CappuccinOS.Paging.Draws
import CappuccinOS.Kernel.Frames
import CappuccinOS.Kernel.Memory
import CappuccinOS.Kernel.Boot
import CappuccinOS.Gzip.Inflate
import CappuccinOS.Gzip.Reader
import CappuccinOS.Gzip.Window
import CappuccinOS.Gzip.Errors
import CappuccinOS.Gzip.Table
import CappuccinOS.Gzip.Decode
import CappuccinOS.Gzip.Slots
import CappuccinOS.Gzip.Tokens
import CappuccinOS.Gzip.Container
import CappuccinOS.Gzip.Checksum
import CappuccinOS.Gzip.Fixed
import CappuccinOS.Gzip.Dynamic
import CappuccinOS.Gzip.Stored
import CappuccinOS.Gzip.Entries
import CappuccinOS.Gzip.Preamble
import CappuccinOS.Gzip.Grammar
import CappuccinOS.Gzip.Malformed
import CappuccinOS.Gzip.Progress
import CappuccinOS.Vfs.Tree
import CappuccinOS.Vfs.Runs
import CappuccinOS.Vfs.Route
import CappuccinOS.Vfs.Cache
import CappuccinOS.Vfs.Links
import CappuccinOS.Vfs.Mount
import CappuccinOS.Vfs.FailedMount
import CappuccinOS.Vfs.Busy
import CappuccinOS.Vfs.MountList
import CappuccinOS.Vfs.OpenCount
import CappuccinOS.Storage.Partition
import CappuccinOS.Storage.Extent
import CappuccinOS.Storage.Ata
import CappuccinOS.Storage.Command
import CappuccinOS.Storage.Uuid
import CappuccinOS.Storage.Gpt
import CappuccinOS.Fat.Volume
import CappuccinOS.Fat.Table
import CappuccinOS.Fat.Layout
import CappuccinOS.Fat.Boot
import CappuccinOS.Fat.Bounds
import CappuccinOS.Fat.Root
import CappuccinOS.Fat.Clusters
import CappuccinOS.Fat.Geometry
import CappuccinOS.Fat.File
import CappuccinOS.Fat.Partial
import CappuccinOS.Fat.Loop
import CappuccinOS.Fat.Directory
import CappuccinOS.Fat.LongName
import CappuccinOS.Fat.Lookup
import CappuccinOS.Squashfs.ChunkReader
import CappuccinOS.Squashfs.Split
import CappuccinOS.Squashfs.Address
import CappuccinOS.Squashfs.Slice
import CappuccinOS.Squashfs.Inode
import CappuccinOS.Squashfs.Directory
import CappuccinOS.Squashfs.File
import CappuccinOS.Squashfs.Corrupt
import CappuccinOS.Vfs.Volumes
import CappuccinOS.Vfs.Files
import CappuccinOS.Keyboard.ScanCode
import CappuccinOS.Acpi.Tables
import CappuccinOS.Acpi.Madt
import CappuccinOS.Trace.Symbols
import CappuccinOS.Lib.Simulation
import CappuccinOS.Lib.Fuel
import CappuccinOS.Sync.Mutex
import CappuccinOS.Heap.Shared
import CappuccinOS.Storage.Pio
import CappuccinOS.Storage.Transfers
import CappuccinOS.Storage.Drives
import CappuccinOS.Gzip.Stream
import CappuccinOS.Lib.Record
import CappuccinOS.Squashfs.Superblock
import CappuccinOS.Squashfs.Archive
import CappuccinOS.Squashfs.Walk
import CappuccinOS.Vfs.Content
import CappuccinOS.Vfs.Initramfs
import CappuccinOS.Vfs.FatMount
import CappuccinOS.Vfs.Mounts
