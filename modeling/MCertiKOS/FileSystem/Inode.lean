import MCertiKOS.FileSystem.Kernel

/-!
# Blocks and inodes

`kern/fs/block.c` and `kern/fs/inode.c`.
-/

namespace MCertiKOS.FileSystem.Fs

open Library

/-! ### The layout of the disk -/

abbrev IPB : ℕ := 8

abbrev BPB : ℕ := 4096

def iblock (i : ℕ) : ℕ := i / IPB + 2

def bblock (b ninodes : ℕ) : ℕ := b / BPB + ninodes / IPB + 3

/-- `struct superblock`. -/
structure Superblock where
  size : ℕ
  nblocks : ℕ
  ninodes : ℕ
  nlog : ℕ

def getSuperblock (v : Block) : Superblock := ⟨getLE v 0 4, getLE v 4 4, getLE v 8 4, getLE v 12 4⟩

/-- The bit of the block with index `bi` in a block of the bitmap. -/
def getBit (v : Block) (bi : ℕ) : Bool := (byteAt v (bi / 8)).toNat.testBit (bi % 8)

/-- `v[bi/8] |= 1 << (bi % 8)`, or `v[bi/8] &= ~(1 << (bi % 8))`. -/
def setBit (v : Block) (bi : ℕ) (on : Bool) : Block := fun x =>
  if x.val = bi / 8 then
    (if on then v x ||| UInt8.ofNat (2 ^ (bi % 8)) else v x &&& ~~~ UInt8.ofNat (2 ^ (bi % 8)))
  else v x

/-- The inode with index `k` in a block of inodes. -/
def getDinode (v : Block) (k : ℕ) : Dinode where
  type := getLE v (64 * k) 2
  major := getLE v (64 * k + 2) 2
  minor := getLE v (64 * k + 4) 2
  nlink := getLE v (64 * k + 6) 2
  size := getLE v (64 * k + 8) 4
  addrs j := getLE v (64 * k + 12 + 4 * j) 4

/-- The fields of an inode with index `k`. -/
def dinodeFields (k : ℕ) (d : Dinode) : List Field :=
  [(64 * k, 2, d.type), (64 * k + 2, 2, d.major), (64 * k + 4, 2, d.minor), (64 * k + 6, 2, d.nlink),
    (64 * k + 8, 4, d.size)] ++ (List.finRange (NDIRECT + 1)).map fun j => (64 * k + 12 + 4 * j.val, 4, d.addrs j)

/-- The inode with index `k` is stored. -/
def putDinode (v : Block) (k : ℕ) (d : Dinode) : Block := setFields v (dinodeFields k d)

/-- `m` bytes of a block from offset `o`. -/
def getBytes (v : Block) (o m : ℕ) : List UInt8 := (List.range m).map fun k => byteAt v (o + k)

/-- Bytes are stored in a block from offset `o`. -/
def putBytes (v : Block) (o : ℕ) (bs : List UInt8) : Block := fun x =>
  if o ≤ x.val ∧ x.val < o + bs.length then bs.getD (x.val - o) 0 else v x

/-! ### Blocks -/

def readSuperblock : Code FsOp Superblock := do
  let b ← bufcacheRead 1
  let v ← Code.op (.data b)
  bufcacheRelease b
  return getSuperblock v

def blockZero (bno : ℕ) : Code FsOp PUnit := do
  let b ← bufcacheRead bno
  Code.op (.setData b fun _ => 0)
  logWrite b
  bufcacheRelease b

/-- The inner loop of `block_alloc`: the first free block of those whose bits are in `v`. -/
def findFree (v : Block) (b size : ℕ) : Option ℕ :=
  (List.range BPB).find? fun bi => b + bi < size ∧ getBit v bi = false

variable {v : Block} {b size bi : ℕ}

theorem findFree_some (h : findFree v b size = some bi) :
    bi < BPB ∧ b + bi < size ∧ getBit v bi = false ∧ ∀ bj < bi, b + bj < size → getBit v bj = true := by
  obtain ⟨hp, hmem, hmin⟩ := List.find?_range_eq_some.mp h
  have hbi : b + bi < size ∧ getBit v bi = false := by simpa using hp
  refine ⟨List.mem_range.mp hmem, hbi.1, hbi.2, fun bj hbj hlt => ?_⟩
  simpa [hlt] using hmin bj hbj

theorem findFree_none (h : findFree v b size = none) (hbi : bi < BPB) (hlt : b + bi < size) :
    getBit v bi = true := by
  simpa [hlt] using List.find?_range_eq_none.mp h bi hbi

-- the list of all bits is not to be written out in proofs
attribute [irreducible] findFree

/-- The outer loop of `block_alloc`, for `n` blocks of the bitmap from that of block `b` on. -/
def blockAllocLoop (sb : Superblock) : ℕ → ℕ → Code FsOp ℕ
  | 0, _ => stop .noBlocks
  | n + 1, b => do
    let bp ← bufcacheRead (bblock b sb.ninodes)
    let v ← Code.op (.data bp)
    match findFree v b sb.size with
    | some bi => do
      Code.op (.setData bp (setBit v bi true))
      logWrite bp
      bufcacheRelease bp
      Code.op (.took (b + bi))
      blockZero (b + bi)
      return b + bi
    | none => do
      bufcacheRelease bp
      blockAllocLoop sb n (b + BPB)

def blockAlloc : Code FsOp ℕ := do
  Code.op .allocating
  let sb ← readSuperblock
  blockAllocLoop sb ((sb.size + BPB - 1) / BPB) 0

def blockFree (b : ℕ) : Code FsOp PUnit := do
  Code.op (.freeing b)
  let sb ← readSuperblock
  let bp ← bufcacheRead (bblock b sb.ninodes)
  let v ← Code.op (.data bp)
  if getBit v (b % BPB) = false then stop .freeBlock
  else do
    Code.op (.setData bp (setBit v (b % BPB) false))
    logWrite bp
    bufcacheRelease bp

/-! ### Inodes -/

/-- The loop of `inode_alloc`, for `n` inodes from `inum` on. -/
def inodeAllocLoop (type : ℕ) : ℕ → ℕ → Code FsOp InodePtr
  | 0, _ => stop .inodeAlloc
  | n + 1, inum => do
    let bp ← bufcacheRead (iblock inum)
    let v ← Code.op (.data bp)
    if (getDinode v (inum % IPB)).type = 0 then do
      Code.op (.setData bp (putDinode v (inum % IPB) ⟨type, 0, 0, 0, 0, fun _ => 0⟩))
      logWrite bp
      bufcacheRelease bp
      Code.op (.igetNew inum)
    else do
      bufcacheRelease bp
      inodeAllocLoop type n (inum + 1)

def inodeAlloc (type : ℕ) : Code FsOp InodePtr := do
  Code.op .scan
  let sb ← readSuperblock
  inodeAllocLoop type (sb.ninodes - 1) 1

def inodeUpdate (ip : InodePtr) : Code FsOp PUnit := do
  let n ← Code.op (.node ip)
  let bp ← bufcacheRead (iblock n.inum)
  let n ← Code.op (.node ip)
  let v ← Code.op (.data bp)
  Code.op (.setData bp (putDinode v (n.inum % IPB) n.d))
  logWrite bp
  bufcacheRelease bp

def inodeLock (ip : InodePtr) : Code FsOp PUnit := do
  let valid ← Code.op (.ilock ip)
  if valid then return ⟨⟩
  else do
    let n ← Code.op (.node ip)
    let bp ← bufcacheRead (iblock n.inum)
    let v ← Code.op (.data bp)
    let d := getDinode v (n.inum % IPB)
    bufcacheRelease bp
    Code.op (.iload ip d)
    if d.type = 0 then stop .noType else return ⟨⟩

def inodeUnlock (ip : InodePtr) : Code FsOp PUnit := Code.op (.iunlock ip)

/-- `bmap` for a direct block, or for the indirect block itself: `ip->addrs[k]`, which it allocates if it is `0`. -/
def bmapAddr (ip : InodePtr) (k : Fin (NDIRECT + 1)) : Code FsOp ℕ := do
  let n ← Code.op (.node ip)
  if n.d.addrs k = 0 then do
    let addr ← blockAlloc
    let n ← Code.op (.node ip)
    Code.op (.setNode ip { n.d with addrs := Function.update n.d.addrs k addr })
    return addr
  else return n.d.addrs k

def bmap (ip : InodePtr) (bn : ℕ) : Code FsOp ℕ :=
  if bn < NDIRECT then bmapAddr ip (Fin.ofNat (NDIRECT + 1) bn)
  else if bn - NDIRECT < NINDIRECT then do
    let _ ← bmapAddr ip (Fin.last NDIRECT)
    let addr ← Code.op (.indirect ip)
    let bp ← bufcacheRead addr
    let a ← Code.op (.data bp)
    if getLE a (4 * (bn - NDIRECT)) 4 = 0 then do
      let addr ← blockAlloc
      Code.op (.setData bp (setLE a (4 * (bn - NDIRECT)) 4 addr))
      logWrite bp
      bufcacheRelease bp
      return addr
    else do
      bufcacheRelease bp
      return getLE a (4 * (bn - NDIRECT)) 4
  else stop .bmap

/-- The loop of `inode_trunc` over the direct blocks. -/
def truncDirect (ip : InodePtr) : List (Fin (NDIRECT + 1)) → Code FsOp PUnit
  | [] => pure ⟨⟩
  | k :: ks => do
    let n ← Code.op (.node ip)
    if n.d.addrs k = 0 then truncDirect ip ks
    else do
      blockFree (n.d.addrs k)
      let n ← Code.op (.node ip)
      Code.op (.setNode ip { n.d with addrs := Function.update n.d.addrs k 0 })
      truncDirect ip ks

/-- The loop of `inode_trunc` over the blocks of the indirect block, which has the data `a`. -/
def truncIndirect (a : Block) : List ℕ → Code FsOp PUnit
  | [] => pure ⟨⟩
  | j :: js =>
    if getLE a (4 * j) 4 = 0 then truncIndirect a js
    else do
      blockFree (getLE a (4 * j) 4)
      truncIndirect a js

/-- `inode_trunc`, after the direct blocks: the indirect block. -/
def truncLast (ip : InodePtr) : Code FsOp PUnit := do
  let addr ← Code.op (.indirect ip)
  if addr = 0 then return ⟨⟩
  else do
    let bp ← bufcacheRead addr
    let a ← Code.op (.data bp)
    truncIndirect a (List.range NINDIRECT)
    bufcacheRelease bp
    blockFree addr
    let n ← Code.op (.node ip)
    Code.op (.setNode ip { n.d with addrs := Function.update n.d.addrs (Fin.last NDIRECT) 0 })

def inodeTrunc (ip : InodePtr) : Code FsOp PUnit := do
  truncDirect ip ((List.finRange NDIRECT).map Fin.castSucc)
  truncLast ip
  let n ← Code.op (.node ip)
  Code.op (.setNode ip { n.d with size := 0 })
  inodeUpdate ip

def inodePut (ip : InodePtr) : Code FsOp PUnit := do
  let free ← Code.op (.iput ip)
  if free then do
    inodeTrunc ip
    let n ← Code.op (.node ip)
    Code.op (.setNode ip { n.d with type := 0 })
    inodeUpdate ip
    Code.op (.ifreed ip)
  else return ⟨⟩

def inodeUnlockput (ip : InodePtr) : Code FsOp PUnit := do
  inodeUnlock ip
  inodePut ip

/-! ### Contents -/

/-- `ip->major < 0 || ip->major >= NDEV`, for a 16-bit `major`. -/
def badMajor (d : Dinode) : Bool := 2 ^ 15 ≤ d.major ∨ NDEV ≤ d.major

/-- The loop of `inode_read`, with at most `fuel` rounds. -/
def readLoop (ip : InodePtr) : ℕ → ℕ → ℕ → Code FsOp (List UInt8)
  | 0, _, _ => pure []
  | fuel + 1, off, n =>
    if n = 0 then pure []
    else do
      let x ← bmap ip (off / BSIZE)
      let bp ← bufcacheRead x
      let m := min n (BSIZE - off % BSIZE)
      let v ← Code.op (.data bp)
      bufcacheRelease bp
      let bs ← readLoop ip fuel (off + m) (n - m)
      return getBytes v (off % BSIZE) m ++ bs

/-- `inode_read`: the bytes, or `none` for `-1`. Each round of the loop reads a byte at least. -/
def inodeRead (ip : InodePtr) (off n : ℕ) : Code FsOp (Option (List UInt8)) := do
  let nd ← Code.op (.node ip)
  if nd.d.type = T_DEV then
    if badMajor nd.d then return none else stop .devsw
  else if nd.d.size < off ∨ (off + n) % 2 ^ 32 < off then return none
  else do
    let n := if nd.d.size < off + n then nd.d.size - off else n
    let bs ← readLoop ip n off n
    return some bs

/-- The loop of `inode_write`, with at most `fuel` rounds. -/
def writeLoop (ip : InodePtr) : ℕ → ℕ → List UInt8 → Code FsOp PUnit
  | 0, _, _ => pure ⟨⟩
  | fuel + 1, off, src =>
    if src = [] then pure ⟨⟩
    else do
      let x ← bmap ip (off / BSIZE)
      let bp ← bufcacheRead x
      let m := min src.length (BSIZE - off % BSIZE)
      let v ← Code.op (.data bp)
      Code.op (.setData bp (putBytes v (off % BSIZE) (src.take m)))
      logWrite bp
      bufcacheRelease bp
      writeLoop ip fuel (off + m) (src.drop m)

/-- `inode_write`: the number of bytes, or `none` for `-1`. -/
def inodeWrite (ip : InodePtr) (src : List UInt8) (off : ℕ) : Code FsOp (Option ℕ) := do
  let n := src.length
  let nd ← Code.op (.node ip)
  if nd.d.type = T_DEV then
    if badMajor nd.d then return none else stop .devsw
  else if nd.d.size < off ∨ (off + n) % 2 ^ 32 < off then return none
  else if MAXFILE * BSIZE < off + n then return none
  else do
    writeLoop ip n off src
    let nd ← Code.op (.node ip)
    if 0 < n ∧ nd.d.size < off + n then do
      Code.op (.setNode ip { nd.d with size := off + n })
      inodeUpdate ip
      return some n
    else return some n

end MCertiKOS.FileSystem.Fs
