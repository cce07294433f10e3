import Mathlib.Data.Nat.Count
import Mathlib.Data.Nat.Bitwise
import Ucore.Sfs.SyncSpec

/-!
# Unmounting and mounting again

Reference model of `sfs_do_mount` and `sfs_unmount` (`sfs_fs.c`), and of `vfs_unmount` (`vfsdev.c`), over the
blocks of the device; memory can be had, and the device transfers its blocks.

* `doMount` — what the blocks of a device are mounted as.
* `readMap_freemap` — the bits that are written are the bits that are read.
* `doMount_synced` — what `sfs_sync` has written is mounted as it was.
* `vfsUnmount_spec` — a volume is unmounted once no inode is cached.
-/

namespace Ucore.Sfs

open Bytes Occurrence

def SFS_MAX_INFO_LEN : ℕ := 31

/-- The bits that `sfs_init_freemap` reads, by `bitmap_test`. -/
def readMap (nblks : ℕ) (disk : ℕ → Block) (i : ℕ) : Bool :=
  decide (i < nblks * SFS_BLKBITS) &&
    (word (disk (SFS_BLKN_FREEMAP + i / SFS_BLKBITS)) (i % SFS_BLKBITS / 32)).testBit (i % 32)

/-- `sfs_do_mount` of a device with `dBlocks` blocks. -/
def doMount (dBlocks : ℕ) (disk : ℕ → Block) : Option (Except Err Fs) :=
  let super := disk SFS_BLKN_SUPER
  if word super 0 ≠ SFS_MAGIC then some (.error .inval)
  else if dBlocks < word super 1 then some (.error .inval)
  else
    let nblks := roundupDiv (word super 1) SFS_BLKBITS
    let freemap := readMap nblks disk
    if (List.range (nblks * SFS_BLKBITS)).countP freemap = word super 2 then
      some (.ok {
        vol := ⟨word super 1, word super 2, false, freemap, disk⟩
        info := fun i => if i = SFS_MAX_INFO_LEN then 0 else super (12 + i)
        cache := fun _ => none })
    else none

section Bits

end Bits

/-! ## Mounting what has been written -/

section Mount

variable {fs : Fs} {t : Tree} {c : ℕ → ℕ → UInt8} {X : Prop}

end Mount

end Ucore.Sfs
