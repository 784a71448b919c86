import MCertiKOS.FileSystem.Inode

/-!
# Directories and paths

`kern/fs/dir.c` and `kern/fs/path.c`. A string is the list of its bytes up to
the terminating zero.
-/

namespace MCertiKOS.FileSystem.Fs

open Library

abbrev DIRSIZ : ℕ := 14

/-- `sizeof(struct dirent)`. -/
abbrev DESIZE : ℕ := 16

/-- `struct dirent`. -/
structure Dirent where
  /-- The inode; `0` for a free entry. -/
  inum : ℕ
  name : List UInt8

/-- The entry in `DESIZE` bytes. -/
def getDirent (bs : List UInt8) : Dirent := ⟨(bs.getD 0 0).toNat + 256 * (bs.getD 1 0).toNat, (bs.drop 2).take DIRSIZ⟩

/-- The bytes of an entry for `inum`, with the name copied by `strncpy`. -/
def direntBytes (inum : ℕ) (name : List UInt8) : List UInt8 :=
  [UInt8.ofNat inum, UInt8.ofNat (inum / 256)] ++ (name.take DIRSIZ ++ List.replicate (DIRSIZ - name.length) 0)

/-- `strncmp(s, t, n) == 0`. -/
def strncmpEq (s t : List UInt8) : ℕ → Bool
  | 0 => true
  | n + 1 =>
    if s.headD 0 ≠ 0 ∧ s.headD 0 = t.headD 0 then strncmpEq s.tail t.tail n else s.headD 0 = t.headD 0

/-- `dir_namecmp(s, t) == 0`. -/
def dirNamecmp (s t : List UInt8) : Bool := strncmpEq s t DIRSIZ

/-- `"."`. -/
def dot : List UInt8 := [46]

/-- `".."`. -/
def dotdot : List UInt8 := [46, 46]

/-- The loop of `dir_lookup`, for `n` entries from `off` on: the inode number and the offset. -/
def lookupLoop (dp : InodePtr) (name : List UInt8) : ℕ → ℕ → Code FsOp (Option (ℕ × ℕ))
  | 0, _ => pure none
  | n + 1, off => do
    match ← inodeRead dp off DESIZE with
    | none => stop .dirLookup
    | some bs =>
      if bs.length ≠ DESIZE then stop .dirLookup
      else if (getDirent bs).inum = 0 then lookupLoop dp name n (off + DESIZE)
      else if dirNamecmp (getDirent bs).name name then return some ((getDirent bs).inum, off)
      else lookupLoop dp name n (off + DESIZE)

/-- The number of rounds of `for (off = start; off < size; off += sizeof(de))`. -/
def entries (size start : ℕ) : ℕ := (size - start + DESIZE - 1) / DESIZE

/-- `dir_lookup`: the inode, and the offset of the entry. -/
def dirLookup (dp : InodePtr) (name : List UInt8) : Code FsOp (Option (InodePtr × ℕ)) := do
  let n ← Code.op (.node dp)
  if n.d.type ≠ T_DIR then stop .notDir
  else do
    match ← lookupLoop dp name (entries n.d.size 0) 0 with
    | none => return none
    | some (inum, off) => do
      let ip ← Code.op (.igetEntry dp name inum)
      return some (ip, off)

/-- The search of `dir_link`, for `n` entries from `off` on: the offset of the first free one, or the end. -/
def freeLoop (dp : InodePtr) : ℕ → ℕ → Code FsOp ℕ
  | 0, off => pure off
  | n + 1, off => do
    match ← inodeRead dp off DESIZE with
    | none => stop .dirLink
    | some bs =>
      if bs.length ≠ DESIZE then stop .dirLink
      else if (getDirent bs).inum = 0 then return off
      else freeLoop dp n (off + DESIZE)

/-- `dir_link`; `false` for `-1`. -/
def dirLink (dp : InodePtr) (name : List UInt8) (inum : ℕ) : Code FsOp Bool := do
  match ← dirLookup dp name with
  | some (ip, _) => do
    inodePut ip
    return false
  | none => do
    let n ← Code.op (.node dp)
    let off ← freeLoop dp (entries n.d.size 0) 0
    if (← inodeWrite dp (direntBytes inum name) off) = some DESIZE then return true else stop .dirLink

/-! ### Paths -/

/-- The character `/`. -/
def slash : UInt8 := 47

/-- `skipelem`: what is left of the path, and the first element. -/
def skipelem (path : List UInt8) : Option (List UInt8 × List UInt8) :=
  let start := path.dropWhile (· = slash)
  if start = [] then none
  else
    let elem := start.takeWhile (· ≠ slash)
    let len := if DIRSIZ ≤ elem.length then DIRSIZ - 1 else elem.length
    some ((start.dropWhile (· ≠ slash)).dropWhile (· = slash), elem.take len)

/-- The loop of `namex`, with at most `fuel` rounds: the inode and the last element. -/
def namexLoop (nameiparent : Bool) : ℕ → InodePtr → List UInt8 → Code FsOp (Option (InodePtr × List UInt8))
  | 0, _, _ => stop .running
  | fuel + 1, ip, path =>
    match skipelem path with
    | none =>
      if nameiparent then do
        inodePut ip
        return none
      else return some (ip, [])
    | some (path, name) => do
      inodeLock ip
      let n ← Code.op (.node ip)
      if n.d.type ≠ T_DIR then do
        inodeUnlockput ip
        return none
      else if nameiparent ∧ path = [] then do
        inodeUnlock ip
        return some (ip, name)
      else do
        match ← dirLookup ip name with
        | none => do
          inodeUnlockput ip
          return none
        | some (subdir, _) => do
          inodeUnlockput ip
          namexLoop nameiparent fuel subdir path

/-- `tcb_get_cwd`, or the root if there is none; in that case it becomes the working directory. -/
def getCwd : Code FsOp InodePtr := do
  match ← Code.op .cwd with
  | some ip => return ip
  | none => do
    let ip ← Code.op .igetRoot
    Code.op (.setCwd ip)
    return ip

/-- `namex`. Each round of the loop takes an element off the path. -/
def namex (path : List UInt8) (nameiparent : Bool) : Code FsOp (Option (InodePtr × List UInt8)) := do
  if path.head? = some slash then do
    let ip ← Code.op .igetRoot
    namexLoop nameiparent (path.length + 1) ip path
  else do
    let ip ← getCwd
    Code.op (.idup ip)
    namexLoop nameiparent (path.length + 1) ip path

def namei (path : List UInt8) : Code FsOp (Option InodePtr) := do
  match ← namex path false with
  | none => return none
  | some (ip, _) => return some ip

def nameiparent (path : List UInt8) : Code FsOp (Option (InodePtr × List UInt8)) := namex path true

end MCertiKOS.FileSystem.Fs
