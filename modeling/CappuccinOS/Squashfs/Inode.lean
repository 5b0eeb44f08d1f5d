import CappuccinOS.Squashfs.Address

/-!
# Inodes (`drivers/fs/initramfs/mod.rs`)

An inode reference holds the start of a metadata block in its upper bits and an offset into the
block in its lower 16. `read_inode` reads the type of an inode there, and then as many bytes as
the structure of that type has.
-/

namespace CappuccinOS.Squashfs

inductive InodeFileType
  | basicDirectory
  | basicFile
  | basicSymlink
  | basicBlockDevice
  | basicCharDevice
  | basicPipe
  | basicSocked
  | extendedDirectory
  | extendedFile
  | extendedSymlink
  | extendedBlockDevice
  | extendedPipe
  | extendedSocked
  deriving DecidableEq, Repr

def InodeFileType.from : ℕ → Except Fault InodeFileType
  | 1 => .ok .basicDirectory
  | 2 => .ok .basicFile
  | 3 => .ok .basicSymlink
  | 4 => .ok .basicBlockDevice
  | 5 => .ok .basicCharDevice
  | 6 => .ok .basicPipe
  | 7 => .ok .basicSocked
  | 8 => .ok .extendedDirectory
  | 9 => .ok .extendedFile
  | 10 => .ok .extendedSymlink
  | 11 => .ok .extendedBlockDevice
  | 12 => .ok .extendedPipe
  | 13 => .ok .extendedSocked
  | _ => .error (.panic .assertion)

/-- `uN::from_le_bytes(bytes[at..at + size].try_into().unwrap())`. -/
def leAt (bytes : List Byte) (offset size : ℕ) : Except Fault ℕ := do
  let field ← slice bytes offset (offset + size)
  .ok (leNat field)

structure InodeHeader where
  fileType : InodeFileType
  mtime : ℕ
  inodeNum : ℕ
  deriving DecidableEq, Repr

def InodeHeader.fromBytes (bytes : List Byte) : Except Fault InodeHeader := do
  let fileType ← leAt bytes 0 2
  let fileType ← InodeFileType.from fileType
  let mtime ← leAt bytes 8 4
  let inodeNum ← leAt bytes 12 4
  .ok { fileType, mtime, inodeNum }

structure BasicDirectoryInode where
  header : InodeHeader
  blockIndex : ℕ
  linkCount : ℕ
  fileSize : ℕ
  blockOffset : ℕ
  parentInode : ℕ
  deriving DecidableEq, Repr

def BasicDirectoryInode.fromBytes (bytes : List Byte) : Except Fault BasicDirectoryInode := do
  let header ← InodeHeader.fromBytes bytes
  let blockIndex ← leAt bytes 16 4
  let linkCount ← leAt bytes 20 4
  let fileSize ← leAt bytes 24 2
  let blockOffset ← leAt bytes 26 2
  let parentInode ← leAt bytes 28 4
  .ok { header, blockIndex, linkCount, fileSize, blockOffset, parentInode }

structure ExtendedDirectoryInode where
  header : InodeHeader
  linkCount : ℕ
  fileSize : ℕ
  blockIndex : ℕ
  parentInode : ℕ
  indexCount : ℕ
  blockOffset : ℕ
  xattrIndex : ℕ
  deriving DecidableEq, Repr

def ExtendedDirectoryInode.fromBytes (bytes : List Byte) :
    Except Fault ExtendedDirectoryInode := do
  let header ← InodeHeader.fromBytes bytes
  let linkCount ← leAt bytes 16 4
  let fileSize ← leAt bytes 20 4
  let blockIndex ← leAt bytes 24 4
  let parentInode ← leAt bytes 28 4
  let indexCount ← leAt bytes 32 2
  let blockOffset ← leAt bytes 34 2
  let xattrIndex ← leAt bytes 36 4
  .ok { header, linkCount, fileSize, blockIndex, parentInode, indexCount, blockOffset, xattrIndex }

structure BasicFileInode where
  header : InodeHeader
  blockStart : ℕ
  fragIdx : ℕ
  blockOffset : ℕ
  fileSize : ℕ
  deriving DecidableEq, Repr

def BasicFileInode.fromBytes (bytes : List Byte) : Except Fault BasicFileInode := do
  let header ← InodeHeader.fromBytes bytes
  let blockStart ← leAt bytes 16 4
  let fragIdx ← leAt bytes 20 4
  let blockOffset ← leAt bytes 24 4
  let fileSize ← leAt bytes 28 4
  .ok { header, blockStart, fragIdx, blockOffset, fileSize }

inductive Inode
  | basicFile (file : BasicFileInode)
  | basicDirectory (dir : BasicDirectoryInode)
  | extendedDirectory (dir : ExtendedDirectoryInode)
  deriving DecidableEq, Repr

def Inode.from (value : List Byte) : Except Fault Inode := do
  let fileType ← leAt value 0 2
  match ← InodeFileType.from fileType with
  | .basicDirectory => (BasicDirectoryInode.fromBytes value).map .basicDirectory
  | .extendedDirectory => (ExtendedDirectoryInode.fromBytes value).map .extendedDirectory
  | .basicFile => (BasicFileInode.fromBytes value).map .basicFile
  | _ => .error (.panic .assertion)

/-- The size of the structure of a type, where there is one. -/
def InodeFileType.inodeSize : InodeFileType → Except Fault ℕ
  | basicDirectory => .ok 32
  | extendedDirectory => .ok 40
  | basicFile => .ok 32
  | _ => .error (.panic .assertion)

def getInodeBlockOffset (inode : ℕ) : ℕ × ℕ :=
  ((inode >>> 16) &&& 0x0000FFFFFFFFFFFF, inode &&& 0xFFFF)

/-- `.try_into().unwrap()` for an array of `n` bytes. -/
def asArray (n : ℕ) (bytes : List Byte) : Except Fault (List Byte) :=
  if bytes.length = n then .ok bytes else .error (.panic .unwrap)

/-- `read_inode`: the inode, and the blocks of the inode table as they are then. -/
def readInode (p : Profile) (D : Decompressor) (fuel : ℕ) (inodeTable : List Chunk) (inode : ℕ) :
    Except Fault (Inode × List Chunk) := do
  let (inodeBlock, inodeOffset) := getInodeBlockOffset inode
  let (bytes, inodeTable) ← getSlice p D fuel inodeTable inodeBlock inodeOffset 2
  let bytes ← asArray 2 bytes
  let fileType ← InodeFileType.from (leNat bytes)
  let inodeSize ← fileType.inodeSize
  let (inodeBytes, inodeTable) ← getSlice p D fuel inodeTable inodeBlock inodeOffset inodeSize
  let inode ← Inode.from inodeBytes
  .ok (inode, inodeTable)

end CappuccinOS.Squashfs
