import FzzOverlay.Entry

/-!
# The life of an overlay inode

`ovl_alloc_inode` and `ovl_free_inode` of `super.c`, and what `ovl_get_inode` of
`inode.c` sets up for a regular file.
-/

namespace FzzOverlay

/-- `ovl_alloc_inode` on a slab object that holds the values `old`. The object
comes without being cleared, and `block_status` is not among the fields set. -/
def ovlAllocInode (old : OvlInode) : OvlInode :=
  { old with
    upperdata := false
    blockCount := 0
    copyCount := 0
    cowStatus := false
    lowerFile := .null
    upperFile := .null
    metaFile := .null }

/-- A slab object that was never used, on a page of zeroes. -/
def zeroInode : OvlInode := ⟨false, 0, 0, 0, false, .null, .null, .null, none⟩

/-- `if (file != NULL) filp_close(file, NULL)` does not fault. -/
def FilePtr.closes : FilePtr → Bool
  | .err _ => false
  | _ => true

/-- `ovl_free_inode`: the `block_status` buffer it passes to `kfree`, if any. -/
def ovlFreeInode (oi : OvlInode) : Outcome (Option ℕ) :=
  if oi.lowerFile.closes && oi.upperFile.closes && oi.metaFile.closes then
    .ret (oi.blockStatus.map BlockMap.addr)
  else .oops

namespace OvlFile

/-- `ovl_get_inode` and the `ovl_inode_init` it calls, on a new inode for the same
upper and lower dentries. -/
def ovlGetInode (f : OvlFile) (oi : OvlInode) : OvlFile :=
  { f with
    oi := { oi with
      iSize := f.ovlInodeReal.size
      upperdata := oi.upperdata || f.upper.any fun u => !u.metacopy } }

/-- The inode is dropped from the cache with `ovl_free_inode` and the file looked up
again. The new inode is made from a slab object that holds the values `old`. -/
def evict (f : OvlFile) (old : OvlInode) : Outcome OvlFile :=
  match ovlFreeInode f.oi with
  | .ret _ => .ret (f.ovlGetInode (ovlAllocInode old))
  | .oops => .oops
  | .running => .running

/-- A regular file that exists in the lower layers only, just looked up. -/
def lookedUp (lowerstack : List File) (old : OvlInode) : OvlFile :=
  (⟨lowerstack, none, false, old⟩ : OvlFile).ovlGetInode (ovlAllocInode old)

end OvlFile

end FzzOverlay
