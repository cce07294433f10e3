import Ucore.Sfs.Bmap

/-!
# Directory entries

Reference model of `sfs_dirent_read_nolock`, `sfs_dirent_write_nolock` and the scans of
`sfs_inode.c`: a directory has one block for each slot, which starts with a `struct sfs_disk_entry`.
-/

namespace Ucore.Sfs

open Bytes

/-- A C string without its terminator. -/
abbrev Name := { l : List UInt8 // (0 : UInt8) ∉ l }

/-- `strlen`. -/
def strlen (name : Name) : ℕ := name.val.length

/-- The string `""`. -/
def noName : Name := ⟨[], List.not_mem_nil⟩

def DOT : Name := ⟨[46], by decide⟩

def DOTDOT : Name := ⟨[46, 46], by decide⟩

/-- `sizeof(struct sfs_disk_entry)`. -/
def ENTRY_SIZE : ℕ := 260

/-- `struct sfs_disk_entry`; `name` is what the C string in it spells. -/
structure Entry where
  ino : ℕ
  name : Name
  deriving DecidableEq

/-- The C string in a buffer of `n` bytes, from byte `i` on. -/
def cstr (data : ℕ → UInt8) : ℕ → ℕ → List UInt8
  | _, 0 => []
  | i, n + 1 => if data i = 0 then [] else data i :: cstr data (i + 1) n

theorem zero_not_mem_cstr (data : ℕ → UInt8) : ∀ n i, (0 : UInt8) ∉ cstr data i n := by
  intro n
  induction n with
  | zero => exact fun i => List.not_mem_nil
  | succ n ih =>
    intro i
    unfold cstr
    split
    · exact List.not_mem_nil
    · rename_i h0
      exact List.not_mem_cons_of_ne_of_not_mem (fun he => h0 he.symm) (ih (i + 1))

/-- What `sfs_dirent_read_nolock` makes of the bytes of an entry: `name[SFS_MAX_FNAME_LEN]` is set to
0. -/
def Entry.ofBytes (data : ℕ → UInt8) : Entry where
  ino := word data 0
  name := ⟨cstr data 4 SFS_MAX_FNAME_LEN, zero_not_mem_cstr data _ _⟩

/-- The bytes that `sfs_dirent_write_nolock` writes: all zero for an empty slot. -/
def Entry.toBytes (ino : ℕ) (name : Name) : ℕ → UInt8 := fun i =>
  if ino = 0 then 0
  else if i < 4 then byte ino i
  else (name.val[i - 4]?).getD 0

/-- `sfs_dirent_read_nolock`. -/
def direntRead (slot : ℕ) : Op Lk Err Entry := do
  let din ← Op.gets Lk.din
  Op.assert (din.type = SFS_TYPE_DIR ∧ slot < din.blocks)
  let ino ← bmapLoad slot
  onVol (assertInuse ino)
  let data ← onVol (rbuf ENTRY_SIZE ino 0)
  pure (Entry.ofBytes data)

/-- `sfs_dirent_write_nolock`. -/
def direntWrite (slot ino : ℕ) (name : Name) : Op Lk Err Unit := do
  let din ← Op.gets Lk.din
  Op.assert (din.type = SFS_TYPE_DIR ∧ slot ≤ din.blocks)
  Op.assert (ino ≠ 0 → strlen name ≤ SFS_MAX_FNAME_LEN)
  let b ← bmapLoad slot
  onVol (assertInuse b)
  onVol (wbuf (Entry.toBytes ino name) ENTRY_SIZE b 0)

/-- What `sfs_dirent_search_nolock` stores: the inode number and slot of the name, if it returns 0,
and `empty_slot`. -/
structure Search where
  found : Option (ℕ × ℕ)
  empty : ℕ

/-- The loop of `sfs_dirent_search_nolock`: `n` slots from slot `i` on. -/
def searchLoop (name : Name) : ℕ → ℕ → ℕ → Op Lk Err Search
  | _, 0, empty => pure ⟨none, empty⟩
  | i, n + 1, empty => do
    let entry ← direntRead i
    if entry.ino = 0 then searchLoop name (i + 1) n i
    else if name = entry.name then pure ⟨some (entry.ino, i), empty⟩
    else searchLoop name (i + 1) n empty

/-- `sfs_dirent_search_nolock`; no match is -E_NOENT. -/
def direntSearch (name : Name) : Op Lk Err Search := do
  Op.assert (strlen name ≤ SFS_MAX_FNAME_LEN)
  let nslots ← Op.gets fun k => k.din.blocks
  searchLoop name 0 nslots nslots

/-- The loop of `sfs_dirent_findino_nolock`. -/
def findinoLoop (ino : ℕ) : ℕ → ℕ → Op Lk Err Entry
  | _, 0 => Op.throw .noEnt
  | i, n + 1 => do
    let entry ← direntRead i
    if entry.ino = ino then pure entry else findinoLoop ino (i + 1) n

/-- `sfs_dirent_findino_nolock`. -/
def direntFindino (ino : ℕ) : Op Lk Err Entry := do
  let nslots ← Op.gets fun k => k.din.blocks
  findinoLoop ino 0 nslots

end Ucore.Sfs
