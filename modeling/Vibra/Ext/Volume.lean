import Vibra.Lib.Checked
import Vibra.Lib.RawDisk
import Vibra.Fat32.Volume

/-! # ext volumes

`fs/ext2.rs` up to the blocks of an inode.
-/

namespace Vibra.Ext

open Lib (Outcome Bytes RawDisk u16At u32At)
open Lib.Outcome
open Fat32 (FsError)

abbrev Res := Outcome FsError

def extMagic : Nat := 0xEF53
def maxFileBytes : Nat := 64 * 1024 * 1024
def incompatCompression : Nat := 0x0001
def incompatJournalDev : Nat := 0x0008
def incompatMetaBg : Nat := 0x0010
def incompat64bit : Nat := 0x0080
def incompatInlineData : Nat := 0x8000
def incompatEncrypt : Nat := 0x10000
def roCompatBigalloc : Nat := 0x0200
def inodeExtents : Nat := 0x00080000
def inodeInlineData : Nat := 0x10000000
def extentMagic : Nat := 0xF30A
def extentHeaderLen : Nat := 12
def extentEntryLen : Nat := 12
def extentInitMaxLen : Nat := 0x8000
def maxExtentDepth : Nat := 8
def sIfmt : Nat := 0xF000
def sIfdir : Nat := 0x4000
def sIflnk : Nat := 0xA000
def sIfchr : Nat := 0x2000
def sIfblk : Nat := 0x6000
def sIfifo : Nat := 0x1000
def sIfsock : Nat := 0xC000

/-- `u16_at` at an offset that was computed. -/
def readU16 (buf : Bytes) (off : Nat) : Res Nat := do
  let _ ← add 64 off 2
  return u16At buf off

/-- `u32_at` at an offset that was computed. -/
def readU32 (buf : Bytes) (off : Nat) : Res Nat := do
  let _ ← add 64 off 4
  return u32At buf off

structure ExtSuperblock where
  inodesCount : Nat
  firstDataBlock : Nat
  logBlockSize : Nat
  blocksPerGroup : Nat
  inodesPerGroup : Nat
  revLevel : Nat
  inodeSize : Nat
  featureIncompat : Nat
  featureRoCompat : Nat
  descSize : Nat

/-- Parse the 1024 bytes of the superblock. -/
def ExtSuperblock.parse (data : Bytes) : Except FsError ExtSuperblock :=
  if data.length < 1024 then .error .ioError
  else if u16At data 56 ≠ extMagic then .error .invalidPath
  else
    let revLevel := u32At data 76
    let featureIncompat := u32At data 96
    let inodeSize := u16At data 88
    let raw := u16At data 0xFE
    .ok
      { inodesCount := u32At data 0
        firstDataBlock := u32At data 20
        logBlockSize := u32At data 24
        blocksPerGroup := u32At data 32
        inodesPerGroup := u32At data 40
        revLevel := revLevel
        inodeSize := if revLevel = 0 ∨ inodeSize < 128 then 128 else inodeSize
        featureIncompat := featureIncompat
        featureRoCompat := u32At data 100
        descSize :=
          if featureIncompat &&& incompat64bit ≠ 0 then (if raw = 0 then 64 else raw) else 32 }

def ExtSuperblock.inodeSizeBytes (sb : ExtSuperblock) : Nat :=
  if sb.revLevel ≥ 1 ∧ sb.inodeSize ≥ 128 then sb.inodeSize else 128

/-- Features without which the data cannot be read. -/
def ExtSuperblock.checkSupported (sb : ExtSuperblock) : Except FsError Unit :=
  let unsupported := incompatCompression ||| incompatJournalDev ||| incompatMetaBg |||
    incompatInlineData ||| incompatEncrypt
  if sb.featureIncompat &&& unsupported ≠ 0 then .error .notSupported
  else if sb.featureRoCompat &&& roCompatBigalloc ≠ 0 then .error .notSupported
  else .ok ()

structure Ext2Fs where
  disk : RawDisk
  superblock : ExtSuperblock
  blockSize : Nat
  descSize : Nat
  inodesPerBlock : Nat

namespace Ext2Fs

variable (fs : Ext2Fs)

def readBlock (block : Nat) : Res Bytes := do
  let last ← div (2 ^ 64 - 1) fs.blockSize
  if block > last then .err .ioError
  else
    let sector ← mul 64 block (fs.blockSize / 512)
    ofOption .ioError (fs.disk.read sector fs.blockSize)

/-- The block of the inode table of a group. -/
def inodeTableBlock (group : Nat) : Res Nat := do
  let gdtBlock ← add 64 fs.superblock.firstDataBlock 1
  let descsPerBlock := max (← div fs.blockSize fs.descSize) 1
  let blockForGroup ← add 64 gdtBlock (← div group descsPerBlock)
  let indexInBlock ← mul 64 (← rem group descsPerBlock) fs.descSize
  let buf ← fs.readBlock blockForGroup
  let lo ← readU32 buf (← add 64 indexInBlock 8)
  let hi ← if fs.descSize ≥ 64 then do readU32 buf (← add 64 indexInBlock 0x28) else pure 0
  let table := lo ||| hi <<< 32
  if table = 0 then .err .ioError else .ok table

/-- The inode with an index in the group, by the block of the group's table. -/
def inodeAt (table index : Nat) : Res Bytes := do
  let inodeSize := fs.superblock.inodeSizeBytes
  let inodesPerBlock := max fs.inodesPerBlock 1
  let block ← add 64 table (← div index inodesPerBlock)
  let offset ← mul 64 (← rem index inodesPerBlock) inodeSize
  let buf ← fs.readBlock block
  let stop ← add 64 offset inodeSize
  if stop > buf.length then .err .ioError else slice buf offset stop

def readInodeData (inodeNum : Nat) : Res Bytes :=
  if inodeNum = 0 ∨ inodeNum > fs.superblock.inodesCount then .err .notFound
  else do
    let perGroup := max fs.superblock.inodesPerGroup 1
    let n ← sub inodeNum 1
    let group ← div n perGroup
    let index ← rem n perGroup
    let table ← fs.inodeTableBlock group
    fs.inodeAt table index

def new (disk : RawDisk) : Res Ext2Fs := do
  let buf ← ofOption .ioError (disk.read 2 1024)
  match ExtSuperblock.parse buf with
  | .error e => .err e
  | .ok superblock =>
    match superblock.checkSupported with
    | .error e => .err e
    | .ok () =>
      if superblock.logBlockSize > 6 then .err .invalidPath
      else if superblock.blocksPerGroup = 0 ∨ superblock.inodesPerGroup = 0 then
        .err .invalidPath
      else
        let blockSize ← shl 32 1024 superblock.logBlockSize
        let descSize := superblock.descSize
        if descSize < 32 ∨ descSize > blockSize then .err .invalidPath
        else
          let perBlock ← div blockSize superblock.inodeSizeBytes
          let fs : Ext2Fs := ⟨disk, superblock, blockSize, descSize, max perBlock 1⟩
          let root ← fs.readInodeData 2
          if u16At root 0 &&& sIfmt ≠ sIfdir then .err .invalidPath else .ok fs

end Ext2Fs

def inodeSizeBytes (inode : Bytes) : Nat := u32At inode 4 ||| u32At inode 108 <<< 32

def inodeMode (inode : Bytes) : Nat := u16At inode 0

def inodeFlags (inode : Bytes) : Nat := u32At inode 32

def inodeIsDir (inode : Bytes) : Bool := inodeMode inode &&& sIfmt = sIfdir

/-- The first `count` pointers of a block; the end of the last one is an offset too. -/
def pointers (buf : Bytes) (count : Nat) : Res (List Nat) := do
  let _ ← mul 64 count 4
  return (List.range count).map fun i => u32At buf (i * 4)

/-- Push items until there are `needed`. -/
def pushUpTo (needed : Nat) (out items : List Nat) : List Nat :=
  out ++ items.take (needed - out.length)

namespace Ext2Fs

variable (fs : Ext2Fs)

/-- The blocks an indirect block names; a hole names holes. -/
def pointersOf (block count : Nat) : Res (List Nat) :=
  if block = 0 then .ok (List.replicate count 0)
  else do
    let buf ← fs.readBlock block
    pointers buf count

/-- The loop over a double indirect block: it ends when there are enough blocks. -/
def doubleLoop (needed perBlock : Nat) : List Nat → List Nat → Res (List Nat)
  | [], out => .ok out
  | second :: rest, out =>
    if out.length ≥ needed then .ok out
    else do
      let items ← fs.pointersOf second perBlock
      doubleLoop needed perBlock rest (pushUpTo needed out items)

/-- The inner loop over a triple indirect block; `true` when it is left for good. -/
def tripleInner (needed perBlock : Nat) : List Nat → List Nat → Res (List Nat × Bool)
  | [], out => .ok (out, false)
  | third :: rest, out => do
      let items ← fs.pointersOf third perBlock
      if needed - out.length < items.length then .ok (pushUpTo needed out items, true)
      else tripleInner needed perBlock rest (pushUpTo needed out items)

/-- The outer loop over a triple indirect block. -/
def tripleLoop (needed perBlock : Nat) : List Nat → List Nat → Res (List Nat)
  | [], out => .ok out
  | second :: rest, out =>
    if second = 0 then do
      let holes ← mul 64 perBlock perBlock
      if needed - out.length < holes then .ok (pushUpTo needed out (List.replicate holes 0))
      else tripleLoop needed perBlock rest (pushUpTo needed out (List.replicate holes 0))
    else do
      let l2 ← fs.readBlock second
      let thirds ← pointers l2 perBlock
      let (out, stop) ← fs.tripleInner needed perBlock thirds out
      if stop then .ok out else tripleLoop needed perBlock rest out

/-- Push holes until there are `needed` blocks or `limit`. -/
def pushHoles (needed limit : Nat) (out : List Nat) : List Nat :=
  out ++ List.replicate (min needed limit - out.length) 0

/-- One level of indirection, `i_block[12]`. -/
def singleIndirect (pointer needed perBlock : Nat) (out : List Nat) : Res (List Nat) :=
  if out.length < needed then
    if pointer = 0 then do
      let limit ← add 64 12 perBlock
      return pushHoles needed limit out
    else do
      let items ← fs.pointersOf pointer perBlock
      return pushUpTo needed out items
  else .ok out

/-- Two levels, `i_block[13]`. -/
def doubleIndirect (pointer needed perBlock : Nat) (out : List Nat) : Res (List Nat) :=
  if out.length < needed then
    if pointer = 0 then do
      let limit ← add 64 (← add 64 12 perBlock) (← mul 64 perBlock perBlock)
      return pushHoles needed limit out
    else do
      let l1 ← fs.readBlock pointer
      fs.doubleLoop needed perBlock (← pointers l1 perBlock) out
  else .ok out

/-- Three levels, `i_block[14]`. -/
def tripleIndirect (pointer needed perBlock : Nat) (out : List Nat) : Res (List Nat) :=
  if out.length < needed then
    if pointer = 0 then do
      let square ← mul 64 perBlock perBlock
      let limit ← add 64 (← add 64 (← add 64 12 perBlock) square) (← mul 64 square perBlock)
      return pushHoles needed limit out
    else do
      let l1 ← fs.readBlock pointer
      fs.tripleLoop needed perBlock (← pointers l1 perBlock) out
  else .ok out

/-- `indirect_blocks`: twelve direct pointers, then one, two and three levels. -/
def indirectBlocks (inode : Bytes) (needed : Nat) : Res (List Nat) := do
  let perBlock := max (fs.blockSize / 4) 1
  let ptr := fun i => u32At inode (40 + i * 4)
  let direct := pushUpTo needed [] ((List.range 12).map ptr)
  let single ← fs.singleIndirect (ptr 12) needed perBlock direct
  let double ← fs.doubleIndirect (ptr 13) needed perBlock single
  fs.tripleIndirect (ptr 14) needed perBlock double

end Ext2Fs

structure Extent where
  logical : Nat
  physical : Nat
  len : Nat
  unwritten : Bool

/-- A leaf entry; one of length 0 is skipped. -/
def extentAt (node : Bytes) (off : Nat) : Res (List Extent) := do
  let logical ← readU32 node off
  let rawLen ← readU16 node (← add 64 off 4)
  let startHi ← readU16 node (← add 64 off 6)
  let startLo ← readU32 node (← add 64 off 8)
  let unwritten : Bool := rawLen > extentInitMaxLen
  let len ← if unwritten then sub rawLen extentInitMaxLen else pure rawLen
  if len = 0 then .ok []
  else .ok [⟨logical, startLo ||| startHi <<< 32, len, unwritten⟩]

/-- The loop over the blocks of one extent. -/
def placeBlocks (needed : Nat) (ext : Extent) : List Nat → List Nat → Res (List Nat)
  | [], out => .ok out
  | i :: rest, out => do
      let logical ← add 64 ext.logical i
      if logical ≥ needed then .ok out
      else if ext.physical + i ≥ 2 ^ 64 then .err .ioError
      else
        let _ ← get out logical
        placeBlocks needed ext rest (out.set logical (ext.physical + i))

/-- The loop over the extents. -/
def placeExtents (needed : Nat) : List Extent → List Nat → Res (List Nat)
  | [], out => .ok out
  | ext :: rest, out =>
    if ext.unwritten then placeExtents needed rest out
    else do
      let out ← placeBlocks needed ext (List.range ext.len) out
      placeExtents needed rest out

namespace Ext2Fs

variable (fs : Ext2Fs)

/-- `walk_extent_node`; the fuel bounds the depth. -/
def walkExtentNode : Nat → Bytes → Nat → Res (List Extent)
  | 0, _, _ => .diverge
  | fuel + 1, node, depth =>
    if depth > maxExtentDepth then .err .notSupported
    else if node.length < extentHeaderLen then .err .ioError
    else if u16At node 0 ≠ extentMagic then .err .invalidPath
    else
      let entries := u16At node 2
      let nodeDepth := u16At node 6
      if entries > u16At node 4 then .err .invalidPath
      else do
        let total ← add 64 extentHeaderLen (← mul 64 entries extentEntryLen)
        if total > node.length then .err .invalidPath
        else
          collect (fun i => do
            let off ← add 64 extentHeaderLen (← mul 64 i extentEntryLen)
            if nodeDepth = 0 then extentAt node off
            else
              let leafLo ← readU32 node (← add 64 off 4)
              let leafHi ← readU16 node (← add 64 off 8)
              let buf ← fs.readBlock (leafLo ||| leafHi <<< 32)
              walkExtentNode fuel buf (depth + 1)) (List.range entries)

def extentBlocks (inode : Bytes) (needed : Nat) : Res (List Nat) := do
  let header ← slice inode 40 (min 100 inode.length)
  let extents ← fs.walkExtentNode (maxExtentDepth + 2) header 0
  placeExtents needed extents (List.replicate needed 0)

/-- `inode_blocks`: the blocks of a file in order, 0 for a hole. -/
def inodeBlocks (inode : Bytes) (size : Nat) : Res (List Nat) := do
  let needed ← div (← sub (← add 64 size fs.blockSize) 1) fs.blockSize
  if needed = 0 then .ok []
  else
    let most ← add 64 (← div maxFileBytes fs.blockSize) 1
    if needed > most then .err .notSupported
    else if inodeFlags inode &&& inodeInlineData ≠ 0 then .err .notSupported
    else if inodeFlags inode &&& inodeExtents ≠ 0 then fs.extentBlocks inode needed
    else fs.indirectBlocks inode needed

/-- The loop that copies the blocks into the content. -/
def copyBlocks (size : Nat) : List Nat → Nat → Bytes → Res Bytes
  | [], _, data => .ok data
  | block :: rest, i, data => do
      let off ← mul 64 i fs.blockSize
      if off ≥ size then .ok data
      else if block = 0 then copyBlocks size rest (i + 1) data
      else
        let buf ← fs.readBlock block
        let part ← slice buf 0 (min (size - off) fs.blockSize)
        let data ← copyAt data off part
        copyBlocks size rest (i + 1) data

/-- `read_inode_content`; the target of a fast symlink lies in the inode. -/
def readInodeContent (inodeNum : Nat) : Res Bytes := do
  let inode ← fs.readInodeData inodeNum
  let size := inodeSizeBytes inode
  if size = 0 then .ok []
  else if size > maxFileBytes then .err .notSupported
  else if inodeMode inode &&& sIfmt = sIflnk ∧ size < 60 ∧ u32At inode 28 = 0 then
    slice inode 40 (← add 64 40 size)
  else
    let blocks ← fs.inodeBlocks inode size
    fs.copyBlocks size blocks 0 (List.replicate size 0)

end Ext2Fs

end Vibra.Ext
