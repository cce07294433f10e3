import Ucore.Dev.Disk0
import Ucore.Sfs.Fs

/-!
# Blocks of a mounted volume

Reference model of `sfs_io.c` and of `sfs_do_mount` (`sfs_fs.c`) over the disk device, with the arithmetic
of `uint32_t` and `off_t`.

* `doMount` — what a device must hold to be mounted;
* `rwblock`, `rbuf`, `wbuf` — the transfers;
* `rbuf_refines`, `wbuf_refines` — they are those of `Ucore.Sfs.Vol` on a small volume;
* `sfs_block_io` — they transfer the block that they are asked for if and only if its byte offset is an
  `off_t`.
-/

namespace Ucore.SfsIo

open Bytes Dev

open Sfs (SFS_BLKSIZE SFS_BLKBITS SFS_MAGIC SFS_BLKN_SUPER SFS_BLKN_FREEMAP roundupDiv)

/-- `E_NA_DEV`. -/
def E_NA_DEV : ℤ := 14

/-- `super.blocks`, `sfs_buffer` and the device of `struct sfs_fs`. -/
structure Sfs where
  blocks : ℕ
  buffer : ℕ → UInt8
  dev : Disk0

/-- `sfs_rwblock_nolock`; `buf` is the memory from the buffer on. -/
def rwblockNolock (sfs : Sfs) (buf : ℕ → UInt8) (blkno : ℕ) (write check : Bool) :
    Option (ℤ × (ℕ → UInt8) × Sfs) :=
  if (blkno ≠ 0 ∨ check = false) ∧ blkno < sfs.blocks then
    (disk0Io (iobufInit buf SFS_BLKSIZE (offT (blkno * SFS_BLKSIZE))) write sfs.dev).map
      fun (ret, iob, dev) => (ret, iob.mem, { sfs with dev := dev })
  else none

/-- The memory from an address on, and what has become of it. -/
def tail (buf : ℕ → UInt8) (base : ℕ) : ℕ → UInt8 := fun i => buf (base + i)

def setTail (buf : ℕ → UInt8) (base : ℕ) (new : ℕ → UInt8) : ℕ → UInt8 := fun i =>
  if i < base then buf i else new (i - base)

/-- The loop of `sfs_rwblock`. -/
def rwblockLoop (write : Bool) : ℕ → ℕ → ℕ → (ℕ → UInt8) → Sfs → Option (ℤ × (ℕ → UInt8) × Sfs)
  | 0, _, _, buf, sfs => some (0, buf, sfs)
  | n + 1, blkno, base, buf, sfs => do
    let (ret, new, sfs) ← rwblockNolock sfs (tail buf base) blkno write true
    if ret ≠ 0 then return (ret, setTail buf base new, sfs)
    else rwblockLoop write n ((blkno + 1) % 2 ^ 32) (base + SFS_BLKSIZE) (setTail buf base new) sfs

/-- `sfs_rwblock`. -/
def rwblock (sfs : Sfs) (buf : ℕ → UInt8) (blkno nblks : ℕ) (write : Bool) :
    Option (ℤ × (ℕ → UInt8) × Sfs) := rwblockLoop write nblks blkno 0 buf sfs

/-- `sfs_rbuf`. -/
def rbuf (sfs : Sfs) (buf : ℕ → UInt8) (len blkno : ℕ) (offset : ℤ) : Option (ℤ × (ℕ → UInt8) × Sfs) :=
  if 0 ≤ offset ∧ offset < SFS_BLKSIZE ∧ (offset.toNat + len) % 2 ^ 32 ≤ SFS_BLKSIZE then do
    let (ret, data, sfs) ← rwblockNolock sfs sfs.buffer blkno false true
    let sfs := { sfs with buffer := data }
    if ret = 0 then return (0, splice buf 0 len (tail data offset.toNat), sfs) else return (ret, buf, sfs)
  else none

/-- `sfs_wbuf`. -/
def wbuf (sfs : Sfs) (buf : ℕ → UInt8) (len blkno : ℕ) (offset : ℤ) : Option (ℤ × Sfs) :=
  if 0 ≤ offset ∧ offset < SFS_BLKSIZE ∧ (offset.toNat + len) % 2 ^ 32 ≤ SFS_BLKSIZE then do
    let (ret, data, sfs) ← rwblockNolock sfs sfs.buffer blkno false true
    let sfs := { sfs with buffer := data }
    if ret = 0 then
      let data := splice data offset.toNat len buf
      let (ret, data, sfs) ← rwblockNolock { sfs with buffer := data } data blkno true true
      return (ret, { sfs with buffer := data })
    else return (ret, sfs)
  else none

/-! ## `sfs_do_mount` -/

/-- `sfs_init_read`. -/
def initRead (dev : Disk0) (blkno : ℕ) (buf : ℕ → UInt8) : Option (ℤ × (ℕ → UInt8) × Disk0) :=
  (disk0Io (iobufInit buf SFS_BLKSIZE (offT (blkno * SFS_BLKSIZE))) false dev).map
    fun (ret, iob, dev) => (ret, iob.mem, dev)

/-- The loop of `sfs_init_freemap`. -/
def initFreemap : ℕ → ℕ → ℕ → (ℕ → UInt8) → Disk0 → Option (ℤ × (ℕ → UInt8) × Disk0)
  | 0, _, _, data, dev => some (0, data, dev)
  | n + 1, blkno, base, data, dev => do
    let (ret, new, dev) ← initRead dev blkno (tail data base)
    if ret ≠ 0 then return (ret, setTail data base new, dev)
    else initFreemap n (blkno + 1) (base + SFS_BLKSIZE) (setTail data base new) dev

/-- `getorder` panics beyond 128 K; otherwise the caller asks the slab allocator. -/
def kmalloc (ok : Bool) (size : ℕ) : Option Bool := if 2 ^ 17 < size then none else some ok

/-- `bitmap_create`: the number of words, if there is memory for them. -/
def bitmapCreate (ok ok' : Bool) (nbits : ℕ) : Option (Option ℕ) :=
  if nbits ≠ 0 ∧ nbits < (nbits + 32) % 2 ^ 32 then do
    let nwords := (nbits + 31) % 2 ^ 32 / 32
    if ← kmalloc ok 12 then
      if ← kmalloc ok' (4 * nwords % 2 ^ 32) then return some nwords else return none
    else return none
  else none

/-- `sfs_freemap_bits`. -/
def freemapBits (blocks : ℕ) : ℕ := (blocks + 32767) % 2 ^ 32 - (blocks + 32767) % 2 ^ 32 % 32768

/-- `sfs_freemap_blocks`. -/
def freemapBlocks (blocks : ℕ) : ℕ := (blocks + 32767) % 2 ^ 32 / 32768

/-- `bitmap_test`. -/
def bit (data : ℕ → UInt8) (i : ℕ) : Bool := (word data (i / 32)).testBit (i % 32)

/-- `sfs_do_mount`; `ok i` is the answer of the slab allocator to the request `i`, and `heap` what the
buffer holds at first. -/
def doMount (ok : ℕ → Bool) (heap : ℕ → UInt8) (blocksize : ℕ) (dev : Disk0) : Option (Except ℤ Sfs) :=
  if blocksize ≠ SFS_BLKSIZE then some (.error (-E_NA_DEV))
  else if ok 0 = false ∨ ok 1 = false then some (.error (-E_NO_MEM))
  else do
    let (ret, buffer, dev) ← initRead dev SFS_BLKN_SUPER heap
    if ret ≠ 0 then return .error ret
    else if word buffer 0 ≠ SFS_MAGIC then return .error (-E_INVAL)
    else if dev.dBlocks < word buffer 1 then return .error (-E_INVAL)
    else if ok 2 = false then return .error (-E_NO_MEM)
    else
      let blocks := word buffer 1
      match ← bitmapCreate (ok 3) (ok 4) (freemapBits blocks) with
      | none => return .error (-E_NO_MEM)
      | some nwords =>
        guard (4 * nwords % 2 ^ 32 = freemapBlocks blocks * SFS_BLKSIZE % 2 ^ 32)
        let (ret, data, dev) ← initFreemap (freemapBlocks blocks) SFS_BLKN_FREEMAP 0 (fun _ => 255) dev
        if ret ≠ 0 then return .error ret
        else
          guard ((List.range (freemapBits blocks)).countP (bit data) = word buffer 2)
          return .ok ⟨blocks, buffer, dev⟩

/-- The superblock in memory and the drive are as they were when the volume was mounted. -/
def Mounted (sfs : Sfs) : Prop := ∃ ok heap blocksize dev sfs₀,
  doMount ok heap blocksize dev = some (.ok sfs₀) ∧ sfs.blocks = sfs₀.blocks ∧ sfs.dev.size = sfs₀.dev.size

theorem initRead_size {dev dev' : Disk0} {blkno : ℕ} {buf buf' : ℕ → UInt8} {ret : ℤ}
    (h : initRead dev blkno buf = some (ret, buf', dev')) : dev'.size = dev.size := by
  obtain ⟨⟨r, iob, d⟩, hio, heq⟩ := Option.map_eq_some_iff.mp h
  cases heq
  exact disk0Io_size hio

theorem initFreemap_size : ∀ (n blkno base : ℕ) (data : ℕ → UInt8) (dev : Disk0) {ret : ℤ}
    {data' : ℕ → UInt8} {dev' : Disk0}, initFreemap n blkno base data dev = some (ret, data', dev') →
    dev'.size = dev.size := by
  intro n
  induction n with
  | zero =>
    intro blkno base data dev ret data' dev' h
    cases h
    rfl
  | succ n ih =>
    intro blkno base data dev ret data' dev' h
    unfold initFreemap at h
    obtain ⟨⟨r, new, dev₁⟩, hread, h⟩ := Option.bind_eq_some_iff.mp h
    have hsize := initRead_size hread
    dsimp only at h
    split at h
    · cases h
      exact hsize
    · exact (ih _ _ _ _ h).trans hsize

/-- `kmalloc` gives at most 128 K, so the bitmap has at most `2 ^ 20` bits. -/
theorem bitmapCreate_le {ok ok' : Bool} {nbits nwords : ℕ}
    (h : bitmapCreate ok ok' nbits = some (some nwords)) : nbits ≤ 2 ^ 20 := by
  unfold bitmapCreate at h
  split at h
  · rename_i hbits
    obtain ⟨b, -, h⟩ := Option.bind_eq_some_iff.mp h
    split at h
    · obtain ⟨b', hmap, h⟩ := Option.bind_eq_some_iff.mp h
      unfold kmalloc at hmap
      split at hmap
      · cases hmap
      · omega
    · cases h
  · cases h

theorem Mounted.blocks_le {sfs : Sfs} (h : Mounted sfs) : sfs.blocks ≤ 2 ^ 20 ∧ sfs.blocks ≤ sfs.dev.dBlocks := by
  obtain ⟨ok, heap, blocksize, dev, sfs₀, hmount, hblocks, hsize⟩ := h
  have hdev : sfs.dev.dBlocks = sfs₀.dev.dBlocks := by
    unfold Disk0.dBlocks
    rw [hsize]
  rw [hblocks, hdev]
  unfold doMount at hmount
  split at hmount
  · cases hmount
  split at hmount
  · cases hmount
  obtain ⟨⟨ret, buffer, dev₁⟩, -, hmount⟩ := Option.bind_eq_some_iff.mp hmount
  dsimp only at hmount
  split at hmount
  · cases hmount
  split at hmount
  · cases hmount
  split at hmount
  · cases hmount
  rename_i hle
  split at hmount
  · cases hmount
  obtain ⟨nwords, hbitmap, hmount⟩ := Option.bind_eq_some_iff.mp hmount
  cases nwords with
  | none => cases hmount
  | some nwords =>
    obtain ⟨-, -, hmount⟩ := Option.bind_eq_some_iff.mp hmount
    obtain ⟨⟨ret', data, dev₂⟩, hfreemap, hmount⟩ := Option.bind_eq_some_iff.mp hmount
    dsimp only at hmount
    split at hmount
    · cases hmount
    obtain ⟨-, -, hmount⟩ := Option.bind_eq_some_iff.mp hmount
    cases hmount
    have hsame : dev₂.dBlocks = dev₁.dBlocks := by
      unfold Disk0.dBlocks
      rw [initFreemap_size _ _ _ _ _ hfreemap]
    have hbits := bitmapCreate_le hbitmap
    have hdevs : dev₁.dBlocks < 2 ^ 29 := by
      have hlt := dev₁.size_lt
      unfold Disk0.dBlocks DISK0_BLK_NSECT DISK0_BLKSIZE SECTSIZE
      omega
    unfold freemapBits at hbits
    dsimp only
    rw [hsame]
    omega

theorem Mounted.of_eq {sfs sfs' : Sfs} (h : Mounted sfs) (hblocks : sfs'.blocks = sfs.blocks)
    (hsize : sfs'.dev.size = sfs.dev.size) : Mounted sfs' := by
  obtain ⟨ok, heap, blocksize, dev, sfs₀, hmount, hblocks₀, hsize₀⟩ := h
  exact ⟨ok, heap, blocksize, dev, sfs₀, hmount, hblocks.trans hblocks₀, hsize.trans hsize₀⟩

/-! ## Transfers -/

/-- A transfer, but for what it leaves in memory. -/
def dropBuf (r : Option (ℤ × (ℕ → UInt8) × Sfs)) : Option (ℤ × Sfs) := r.map fun (ret, _, sfs) => (ret, sfs)

/-- A transfer to memory has succeeded: `len` bytes of the block from `off` on. -/
def Reads (sfs : Sfs) (buf : ℕ → UInt8) (len blkno off : ℕ) (r : Option (ℤ × (ℕ → UInt8) × Sfs)) : Prop :=
  ∃ sfs', r = some (0, splice buf 0 len (tail (sfs.dev.block blkno) off), sfs') ∧
    sfs'.dev.sector = sfs.dev.sector

/-- A transfer from memory has succeeded: these bytes of the block are replaced, and no others. -/
def Writes (sfs : Sfs) (buf : ℕ → UInt8) (len blkno off : ℕ) (r : Option (ℤ × Sfs)) : Prop :=
  ∃ sfs', r = some (0, sfs') ∧ sfs'.blocks = sfs.blocks ∧ sfs'.dev.size = sfs.dev.size ∧
    ∀ b, ∀ i < 4096, sfs'.dev.block b i =
      if b = blkno then splice (sfs.dev.block blkno) off len buf i else sfs.dev.block b i

section Transfer

variable {sfs : Sfs} {blkno : ℕ} {check : Bool}

theorem offT_near (h : blkno < 2 ^ 19) : offT (blkno * SFS_BLKSIZE) = 4096 * blkno := by
  unfold offT SFS_BLKSIZE
  rw [if_pos (by omega)]
  omega

theorem offT_far (hge : 2 ^ 19 ≤ blkno) (hlt : blkno < 2 ^ 20) :
    offT (blkno * SFS_BLKSIZE) = 4096 * (blkno - 2 ^ 20) := by
  unfold offT SFS_BLKSIZE
  rw [if_neg (by omega)]
  omega

theorem rwblockNolock_eq (hlt : blkno < sfs.blocks) (hcheck : blkno ≠ 0 ∨ check = false) (buf : ℕ → UInt8)
    (write : Bool) : rwblockNolock sfs buf blkno write check =
      (disk0Io (iobufInit buf DISK0_BLKSIZE (offT (blkno * SFS_BLKSIZE))) write sfs.dev).map
        fun (ret, iob, dev) => (ret, iob.mem, { sfs with dev := dev }) := if_pos ⟨hcheck, hlt⟩

theorem rwblockNolock_read (h : Mounted sfs) (hlt : blkno < sfs.blocks) (hcheck : blkno ≠ 0 ∨ check = false)
    (hnear : blkno < 2 ^ 19) (buf : ℕ → UInt8) :
    ∃ dev, rwblockNolock sfs buf blkno false check =
        some (0, splice buf 0 4096 (sfs.dev.block blkno), { sfs with dev := dev }) ∧
      dev.size = sfs.dev.size ∧ dev.sector = sfs.dev.sector := by
  have hle := h.blocks_le.2
  obtain ⟨iob, dev, hio, hsize, hsector, hmem⟩ := disk0Io_read (d := sfs.dev) (by omega) hnear buf
  rw [rwblockNolock_eq hlt hcheck, offT_near hnear, hio, ← hmem]
  exact ⟨dev, rfl, hsize, hsector⟩

theorem rwblockNolock_write (h : Mounted sfs) (hlt : blkno < sfs.blocks) (hcheck : blkno ≠ 0 ∨ check = false)
    (hnear : blkno < 2 ^ 19) (buf : ℕ → UInt8) :
    ∃ dev, rwblockNolock sfs buf blkno true check = some (0, buf, { sfs with dev := dev }) ∧
      dev.size = sfs.dev.size ∧ ∀ c, ∀ i < 4096, dev.block c i = if c = blkno then buf i else sfs.dev.block c i := by
  have hle := h.blocks_le.2
  obtain ⟨iob, dev, hio, hsize, hmem, hblock⟩ := disk0Io_write (d := sfs.dev) (by omega) hnear buf
  rw [rwblockNolock_eq hlt hcheck, offT_near hnear, hio, ← hmem]
  exact ⟨dev, rfl, hsize, by rw [hmem]; exact hblock⟩

/-- A block beyond the offsets that `off_t` can hold is not transferred. -/
theorem rwblockNolock_far (h : Mounted sfs) (hlt : blkno < sfs.blocks) (hfar : ¬ blkno < 2 ^ 19)
    {buf buf' : ℕ → UInt8} {write : Bool} {ret : ℤ} {sfs' : Sfs} :
    rwblockNolock sfs buf blkno write check = some (ret, buf', sfs') → ret ≠ 0 := by
  have hle := h.blocks_le.1
  have hge : 2 ^ 19 ≤ blkno := Nat.not_lt.mp hfar
  have hlt' : blkno < 2 ^ 20 := by omega
  intro hrun
  rw [rwblockNolock_eq hlt (Or.inl (by omega)), offT_far hge hlt'] at hrun
  obtain ⟨⟨r, iob, dev⟩, hio, heq⟩ := Option.map_eq_some_iff.mp hrun
  cases heq
  rcases disk0Io_far hge hlt' buf write (d := sfs.dev) with hnone | ⟨iob', hinval⟩
  · rw [hnone] at hio
    cases hio
  · rw [hinval] at hio
    cases hio
    decide

theorem tail_zero (buf : ℕ → UInt8) : tail buf 0 = buf := by
  funext i
  unfold tail
  rw [Nat.zero_add]

theorem setTail_zero (buf new : ℕ → UInt8) : setTail buf 0 new = new := by
  funext i
  unfold setTail
  rw [if_neg (by omega), Nat.sub_zero]

theorem rwblock_one (buf : ℕ → UInt8) (write : Bool) :
    rwblock sfs buf blkno 1 write = rwblockNolock sfs buf blkno write true := by
  unfold rwblock rwblockLoop rwblockLoop
  rw [tail_zero]
  cases rwblockNolock sfs buf blkno write true with
  | none => rfl
  | some r =>
    obtain ⟨ret, new, sfs'⟩ := r
    show (if ret ≠ 0 then some (ret, setTail buf 0 new, sfs') else some (0, setTail buf 0 new, sfs')) =
      some (ret, new, sfs')
    rw [setTail_zero]
    split
    · rfl
    · rename_i hret
      rw [not_not.mp hret]

/-- The blocks that `sfs_rwblock_nolock` transfers. -/
def Near (blkno : ℕ) (check : Bool) : Prop := (blkno ≠ 0 ∨ check = false) ∧ blkno < 2 ^ 19

theorem rwblockNolock_near {buf buf' : ℕ → UInt8} {write : Bool} {sfs' : Sfs} (h : Mounted sfs)
    (hrun : rwblockNolock sfs buf blkno write check = some (0, buf', sfs')) : Near blkno check := by
  have hassert : (blkno ≠ 0 ∨ check = false) ∧ blkno < sfs.blocks := by
    by_contra hno
    unfold rwblockNolock at hrun
    rw [if_neg hno] at hrun
    cases hrun
  refine ⟨hassert.1, ?_⟩
  by_contra hfar
  exact rwblockNolock_far h hassert.2 hfar hrun rfl

theorem reads_rwblockNolock (h : Mounted sfs) (hlt : blkno < sfs.blocks) (buf : ℕ → UInt8) :
    Reads sfs buf 4096 blkno 0 (rwblockNolock sfs buf blkno false check) ↔ Near blkno check := by
  constructor
  · rintro ⟨sfs', hrun, -⟩
    exact rwblockNolock_near h hrun
  · intro hnear
    obtain ⟨dev, hrun, -, hsector⟩ := rwblockNolock_read h hlt hnear.1 hnear.2 buf
    refine ⟨{ sfs with dev := dev }, hrun.trans ?_, hsector⟩
    rw [tail_zero]

theorem writes_rwblockNolock (h : Mounted sfs) (hlt : blkno < sfs.blocks) (buf : ℕ → UInt8) :
    Writes sfs buf 4096 blkno 0 (dropBuf (rwblockNolock sfs buf blkno true check)) ↔ Near blkno check := by
  constructor
  · rintro ⟨sfs', hdrop, -⟩
    obtain ⟨⟨ret, buf', sfs₁⟩, hrun, heq⟩ := Option.map_eq_some_iff.mp hdrop
    cases heq
    exact rwblockNolock_near h hrun
  · intro hnear
    obtain ⟨dev, hrun, hsize, hblock⟩ := rwblockNolock_write h hlt hnear.1 hnear.2 buf
    rw [hrun]
    refine ⟨{ sfs with dev := dev }, rfl, rfl, hsize, fun b i hi => ?_⟩
    rw [splice_of_mem (Nat.zero_le i) (by omega), Nat.sub_zero]
    exact hblock b i hi

theorem rbuf_eq {len : ℕ} {offset : ℤ} (h : 0 ≤ offset) (hlen : offset.toNat + len ≤ 4096) (hoff : offset < 4096)
    (buf : ℕ → UInt8) : rbuf sfs buf len blkno offset =
      rwblockNolock sfs sfs.buffer blkno false true >>= fun r =>
        if r.1 = 0 then
          some (0, splice buf 0 len (tail r.2.1 offset.toNat), { r.2.2 with buffer := r.2.1 })
        else some (r.1, buf, { r.2.2 with buffer := r.2.1 }) := by
  refine if_pos ⟨h, hoff, ?_⟩
  unfold SFS_BLKSIZE
  omega

theorem reads_rbuf (h : Mounted sfs) (hlt : blkno < sfs.blocks) {len : ℕ} {offset : ℤ} (hpos : 0 ≤ offset)
    (hoff : offset < 4096) (hlen : offset.toNat + len ≤ 4096) (buf : ℕ → UInt8) :
    Reads sfs buf len blkno offset.toNat (rbuf sfs buf len blkno offset) ↔ Near blkno true := by
  rw [rbuf_eq hpos hlen hoff]
  constructor
  · rintro ⟨sfs', hrun, -⟩
    obtain ⟨⟨ret, data, sfs₁⟩, hread, hrun⟩ := Option.bind_eq_some_iff.mp hrun
    dsimp only at hrun
    split at hrun
    · rename_i hret
      subst hret
      exact rwblockNolock_near h hread
    · rename_i hret
      exact absurd (congrArg Prod.fst (Option.some.inj hrun)) hret
  · intro hnear
    obtain ⟨dev, hrun, -, hsector⟩ := rwblockNolock_read h hlt hnear.1 hnear.2 sfs.buffer
    rw [hrun]
    set data := splice sfs.buffer 0 4096 (sfs.dev.block blkno) with hdata
    have hcopy : splice buf 0 len (tail data offset.toNat) =
        splice buf 0 len (tail (sfs.dev.block blkno) offset.toNat) := by
      funext i
      by_cases hi : i < len
      · rw [splice_of_mem (Nat.zero_le i) (by omega), splice_of_mem (Nat.zero_le i) (by omega), hdata]
        unfold tail
        rw [splice_of_mem (Nat.zero_le _) (by omega), Nat.sub_zero, Nat.sub_zero]
      · rw [splice_of_not_mem (Or.inr (by omega)), splice_of_not_mem (Or.inr (by omega))]
    refine ⟨{ sfs with buffer := data, dev := dev }, ?_, hsector⟩
    rw [← hcopy]
    rfl

theorem wbuf_eq {len : ℕ} {offset : ℤ} (h : 0 ≤ offset) (hlen : offset.toNat + len ≤ 4096) (hoff : offset < 4096)
    (buf : ℕ → UInt8) : wbuf sfs buf len blkno offset =
      rwblockNolock sfs sfs.buffer blkno false true >>= fun r =>
        if r.1 = 0 then
          rwblockNolock { r.2.2 with buffer := splice r.2.1 offset.toNat len buf }
            (splice r.2.1 offset.toNat len buf) blkno true true >>= fun r' =>
          some (r'.1, { r'.2.2 with buffer := r'.2.1 })
        else some (r.1, { r.2.2 with buffer := r.2.1 }) := by
  refine if_pos ⟨h, hoff, ?_⟩
  unfold SFS_BLKSIZE
  omega

theorem writes_wbuf (h : Mounted sfs) (hlt : blkno < sfs.blocks) {len : ℕ} {offset : ℤ} (hpos : 0 ≤ offset)
    (hoff : offset < 4096) (hlen : offset.toNat + len ≤ 4096) (buf : ℕ → UInt8) :
    Writes sfs buf len blkno offset.toNat (wbuf sfs buf len blkno offset) ↔ Near blkno true := by
  rw [wbuf_eq hpos hlen hoff]
  constructor
  · rintro ⟨sfs', hrun, -⟩
    obtain ⟨⟨ret, data, sfs₁⟩, hread, hrun⟩ := Option.bind_eq_some_iff.mp hrun
    dsimp only at hrun
    split at hrun
    · rename_i hret
      subst hret
      exact rwblockNolock_near h hread
    · rename_i hret
      exact absurd (congrArg Prod.fst (Option.some.inj hrun)) hret
  · intro hnear
    obtain ⟨dev, hrun, hsize, hsector⟩ := rwblockNolock_read h hlt hnear.1 hnear.2 sfs.buffer
    rw [hrun]
    set data := splice (splice sfs.buffer 0 4096 (sfs.dev.block blkno)) offset.toNat len buf with hdata
    have h' : Mounted { sfs with buffer := data, dev := dev } := h.of_eq rfl hsize
    obtain ⟨dev', hwrite, hsize', hblock⟩ := rwblockNolock_write h' hlt hnear.1 hnear.2 data
    refine ⟨{ sfs with buffer := data, dev := dev' }, ?_, rfl, hsize'.trans hsize, fun b i hi => ?_⟩
    · show rwblockNolock { sfs with buffer := data, dev := dev } data blkno true true >>= _ = _
      rw [hwrite]
      rfl
    · refine (hblock b i hi).trans ?_
      have hsame : dev.block b i = sfs.dev.block b i := by
        unfold Disk0.block
        rw [hsector]
      split
      · -- what is not copied has just been read
        rw [hdata]
        by_cases hmem : offset.toNat ≤ i ∧ i < offset.toNat + len
        · rw [splice_of_mem hmem.1 hmem.2, splice_of_mem hmem.1 hmem.2]
        · have hout : i < offset.toNat ∨ offset.toNat + len ≤ i := by omega
          rw [splice_of_not_mem hout, splice_of_not_mem hout, splice_of_mem (Nat.zero_le i) (by omega), Nat.sub_zero]
      · exact hsame

end Transfer

/-! ## The volume of the file system -/

/-- The blocks that the file system works on are those of the device. -/
def Holds (sfs : Sfs) (v : Ucore.Sfs.Vol) : Prop :=
  v.blocks = sfs.blocks ∧ ∀ b, ∀ i < 4096, v.disk b i = sfs.dev.block b i

section Refines

variable {sfs : Sfs} {v v' : Ucore.Sfs.Vol} {buf : ℕ → UInt8} {len blkno off : ℕ}

/-- On a volume of at most 2 GiB, `sfs_rbuf` gives the bytes of the block. -/
theorem rbuf_refines (h : Mounted sfs) (hv : Holds sfs v) (hsmall : sfs.blocks ≤ 2 ^ 19) {data : ℕ → UInt8}
    (hrun : Ucore.Sfs.rbuf len blkno off v = some (.ok data, v')) :
    v' = v ∧ Reads sfs buf len blkno off (rbuf sfs buf len blkno off) ∧
      ∀ i < len, data i = tail (sfs.dev.block blkno) off i := by
  unfold Ucore.Sfs.rbuf SFS_BLKSIZE at hrun
  split at hrun
  · rename_i hassert
    obtain ⟨hoff, hlen, hne, hlt⟩ := hassert
    cases hrun
    rw [hv.1] at hlt
    have hoff' : (off : ℤ) < 4096 := by omega
    have hlt' : blkno < 2 ^ 19 := by omega
    refine ⟨rfl, ?_, fun i hi => hv.2 blkno (off + i) (by omega)⟩
    exact (reads_rbuf h hlt (Int.natCast_nonneg off) hoff' hlen buf).mpr ⟨Or.inl hne, hlt'⟩
  · cases hrun

/-- On a volume of at most 2 GiB, `sfs_wbuf` writes what it is given to the block. -/
theorem wbuf_refines (h : Mounted sfs) (hv : Holds sfs v) (hsmall : sfs.blocks ≤ 2 ^ 19)
    (hrun : Ucore.Sfs.wbuf buf len blkno off v = some (.ok (), v')) :
    ∃ sfs', wbuf sfs buf len blkno off = some (0, sfs') ∧ Mounted sfs' ∧ Holds sfs' v' := by
  unfold Ucore.Sfs.wbuf SFS_BLKSIZE at hrun
  split at hrun
  · rename_i hassert
    obtain ⟨hoff, hlen, hne, hlt⟩ := hassert
    cases hrun
    rw [hv.1] at hlt
    have hoff' : (off : ℤ) < 4096 := by omega
    have hlt' : blkno < 2 ^ 19 := by omega
    obtain ⟨sfs', hwrite, hblocks, hsize, hblock⟩ :=
      (writes_wbuf h hlt (Int.natCast_nonneg off) hoff' hlen buf).mpr ⟨Or.inl hne, hlt'⟩
    refine ⟨sfs', hwrite, h.of_eq hblocks hsize, hv.1.trans hblocks.symm, fun b i hi => ?_⟩
    rw [hblock b i hi]
    dsimp only
    split
    · rename_i heq
      rw [heq, Function.update_self]
      unfold splice
      rw [hv.2 blkno i hi]
      rfl
    · rename_i hne
      rw [Function.update_of_ne hne]
      exact hv.2 b i hi
  · cases hrun

end Refines

/-! ## A volume of more than 2 GiB -/

theorem initRead_near {dev : Disk0} {blkno : ℕ} (hlt : blkno < dev.dBlocks) (hnear : blkno < 2 ^ 19)
    (buf : ℕ → UInt8) : ∃ dev', initRead dev blkno buf = some (0, splice buf 0 4096 (dev.block blkno), dev') ∧
      dev'.size = dev.size ∧ dev'.sector = dev.sector := by
  obtain ⟨iob, dev', hio, hsize, hsector, hmem⟩ := disk0Io_read hlt hnear buf
  refine ⟨dev', ?_, hsize, hsector⟩
  unfold initRead
  rw [offT_near hnear]
  show (disk0Io (iobufInit buf DISK0_BLKSIZE (4096 * blkno)) false dev).map _ = _
  rw [hio, ← hmem]
  rfl

/-- The bitmap of a volume whose blocks are all in use. -/
theorem initFreemap_zero : ∀ (n blkno base : ℕ) (data : ℕ → UInt8) (dev : Disk0), blkno + n ≤ dev.dBlocks →
    blkno + n ≤ 2 ^ 19 → (∀ b, blkno ≤ b → ∀ i < 4096, dev.block b i = 0) →
    ∃ data' dev', initFreemap n blkno base data dev = some (0, data', dev') ∧
      (∀ i < base, data' i = data i) ∧ ∀ i, base ≤ i → i < base + n * 4096 → data' i = 0 := by
  intro n
  induction n with
  | zero => exact fun blkno base data dev _ _ _ => ⟨data, dev, rfl, fun _ _ => rfl, fun i _ _ => by omega⟩
  | succ n ih =>
    intro blkno base data dev hlt hnear hzero
    have hlt' : blkno < dev.dBlocks := by omega
    obtain ⟨dev₁, hread, hsize, hsector⟩ := initRead_near hlt' (by omega) (tail data base)
    have hblocks : dev₁.dBlocks = dev.dBlocks := by
      unfold Disk0.dBlocks
      rw [hsize]
    have hblock : ∀ b i, dev₁.block b i = dev.block b i := by
      intro b i
      unfold Disk0.block
      rw [hsector]
    set data₁ := setTail data base (splice (tail data base) 0 4096 (dev.block blkno)) with hdata
    obtain ⟨data', dev', hloop, hlow, hhigh⟩ := ih (blkno + 1) (base + 4096) data₁ dev₁ (by omega) (by omega)
      (fun b hb i hi => (hblock b i).trans (hzero b (by omega) i hi))
    refine ⟨data', dev', ?_, ?_, ?_⟩
    · unfold initFreemap
      rw [hread]
      exact hloop
    · intro i hi
      rw [hlow i (by omega), hdata]
      exact if_pos hi
    · intro i hge hi
      by_cases hnext : i < base + 4096
      · rw [hlow i hnext, hdata]
        unfold setTail
        rw [if_neg (by omega), splice_of_mem (Nat.zero_le _) (by omega)]
        exact hzero blkno le_rfl _ (by omega)
      · exact hhigh i (by omega) (by omega)

/-- A drive with `2 ^ 19 + 1` blocks, and a superblock with all of them in use. -/
def bigDev : Disk0 where
  size := 8 * (2 ^ 19 + 1)
  size_lt := by decide
  sector n j := if n = 0 then ofWords (fun i => if i = 0 then SFS_MAGIC else if i = 1 then 2 ^ 19 + 1 else 0) j else 0
  buffer _ := 0

theorem bigDev_block {b i : ℕ} (hb : 1 ≤ b) : bigDev.block b i = 0 := by
  unfold Disk0.block DISK0_BLK_NSECT DISK0_BLKSIZE SECTSIZE
  exact if_neg (by omega)

theorem bigDev_super {i : ℕ} (hi : i < 3) : word (splice (fun _ => 0) 0 4096 (bigDev.block 0)) i =
    (if i = 0 then SFS_MAGIC else if i = 1 then 2 ^ 19 + 1 else 0) % 2 ^ 32 := by
  rw [← word_ofWords (fun i => if i = 0 then SFS_MAGIC else if i = 1 then 2 ^ 19 + 1 else 0) i]
  refine word_congr fun k hk => ?_
  rw [splice_of_mem (Nat.zero_le _) (by omega), Nat.sub_zero]
  unfold Disk0.block DISK0_BLK_NSECT DISK0_BLKSIZE SECTSIZE
  have hsect : 4096 / 512 * 0 + (4 * i + k) / 512 = 0 := by omega
  have hbyte : (4 * i + k) % 512 = 4 * i + k := by omega
  rw [hsect, hbyte]
  rfl

theorem doMount_bigDev : ∃ sfs, doMount (fun _ => true) (fun _ => 0) SFS_BLKSIZE bigDev = some (.ok sfs) ∧
    sfs.blocks = 2 ^ 19 + 1 := by
  have hlt : SFS_BLKN_SUPER < bigDev.dBlocks := by decide
  obtain ⟨dev₁, hread, hsize, hsector⟩ := initRead_near hlt (by decide) fun _ => 0
  have hblocks : dev₁.dBlocks = 2 ^ 19 + 1 := by
    unfold Disk0.dBlocks
    rw [hsize]
    rfl
  have hmagic := (bigDev_super (i := 0) (by decide)).trans (show _ = SFS_MAGIC by decide)
  have hsuper := (bigDev_super (i := 1) (by decide)).trans (show _ = 2 ^ 19 + 1 by decide)
  have hunused := (bigDev_super (i := 2) (by decide)).trans (show _ = 0 by decide)
  obtain ⟨data, dev₂, hmap, -, hzero⟩ := initFreemap_zero 17 SFS_BLKN_FREEMAP 0 (fun _ => 255) dev₁
    (by rw [hblocks]; decide) (by decide) fun b hb i hi => by
      have hb' : 1 ≤ b := le_trans (by decide) hb
      rw [← bigDev_block (i := i) hb']
      unfold Disk0.block
      rw [hsector]
  have hbits : (List.range (freemapBits (2 ^ 19 + 1))).countP (bit data) = 0 := by
    refine List.countP_eq_zero.mpr fun i hi => ?_
    have hlt : i < 17 * 32768 := List.mem_range.mp hi
    have hword : word data (i / 32) = 0 := by
      rw [← word_zero (i / 32)]
      exact word_congr fun k hk => hzero _ (Nat.zero_le _) (by omega)
    unfold bit
    rw [hword, Nat.zero_testBit]
    decide
  refine ⟨⟨2 ^ 19 + 1, splice (fun _ => 0) 0 4096 (bigDev.block SFS_BLKN_SUPER), dev₂⟩, ?_, rfl⟩
  have hblock : SFS_BLKN_SUPER = 0 := rfl
  unfold doMount
  rw [if_neg (by simp), if_neg (by simp), hread, hblock]
  simp only [Option.bind_eq_bind, Option.bind_some]
  rw [if_neg (by simp), hmagic, hsuper, hunused, if_neg (by simp), hblocks, if_neg (lt_irrefl _), if_neg (by simp)]
  have hbitmap : bitmapCreate true true (freemapBits (2 ^ 19 + 1)) = some (some (17 * 1024)) := by decide
  have hsame : 4 * (17 * 1024) % 2 ^ 32 = freemapBlocks (2 ^ 19 + 1) * SFS_BLKSIZE % 2 ^ 32 := by decide
  have hblks : freemapBlocks (2 ^ 19 + 1) = 17 := by decide
  rw [hbitmap, Option.bind_some]
  dsimp only
  have hguard : ∀ (p : Prop) [Decidable p], p → (guard p : Option PUnit) = some ⟨⟩ := fun p _ hp => if_pos hp
  rw [hguard _ hsame, Option.bind_some, hblks, hmap, Option.bind_some]
  dsimp only
  rw [if_neg (by simp), hguard _ hbits, Option.bind_some]
  rfl

/-- A device can be mounted a block of which lies beyond 2 GiB, and this block is not transferred. -/
theorem block_io_far : ∃ sfs, Mounted sfs ∧ 2 ^ 19 < sfs.blocks ∧
    ∀ buf, ¬ Reads sfs buf 4096 (2 ^ 19) 0 (rwblock sfs buf (2 ^ 19) 1 false) := by
  obtain ⟨sfs, hmount, hblocks⟩ := doMount_bigDev
  have h : Mounted sfs := ⟨_, _, _, _, sfs, hmount, rfl, rfl⟩
  refine ⟨sfs, h, by omega, fun buf hreads => ?_⟩
  rw [rwblock_one] at hreads
  exact absurd ((reads_rwblockNolock h (by omega) buf).mp hreads).2 (lt_irrefl _)

/-- A block other than the superblock is transferred, in whole or in part, if and only if its offset in
bytes is an `off_t`; the superblock is transferred without the check. -/
theorem sfs_block_io {sfs : Sfs} (h : Mounted sfs) {blkno : ℕ} (hlt : blkno < sfs.blocks) (buf : ℕ → UInt8) :
    (∀ check, (Reads sfs buf 4096 blkno 0 (rwblockNolock sfs buf blkno false check) ↔
        (blkno ≠ 0 ∨ check = false) ∧ blkno < 2 ^ 19) ∧
      (Writes sfs buf 4096 blkno 0 (dropBuf (rwblockNolock sfs buf blkno true check)) ↔
        (blkno ≠ 0 ∨ check = false) ∧ blkno < 2 ^ 19)) ∧
    (Reads sfs buf 4096 blkno 0 (rwblock sfs buf blkno 1 false) ↔ blkno ≠ 0 ∧ blkno < 2 ^ 19) ∧
    (Writes sfs buf 4096 blkno 0 (dropBuf (rwblock sfs buf blkno 1 true)) ↔ blkno ≠ 0 ∧ blkno < 2 ^ 19) ∧
    ∀ (len : ℕ) (offset : ℤ), 0 ≤ offset → offset < 4096 → offset.toNat + len ≤ 4096 →
      (Reads sfs buf len blkno offset.toNat (rbuf sfs buf len blkno offset) ↔ blkno ≠ 0 ∧ blkno < 2 ^ 19) ∧
      (Writes sfs buf len blkno offset.toNat (wbuf sfs buf len blkno offset) ↔ blkno ≠ 0 ∧ blkno < 2 ^ 19) := by
  have hchecked : Near blkno true ↔ blkno ≠ 0 ∧ blkno < 2 ^ 19 := by simp [Near]
  refine ⟨fun check => ⟨reads_rwblockNolock h hlt buf, writes_rwblockNolock h hlt buf⟩, ?_, ?_, ?_⟩
  · rw [rwblock_one]
    exact (reads_rwblockNolock h hlt buf).trans hchecked
  · rw [rwblock_one]
    exact (writes_rwblockNolock h hlt buf).trans hchecked
  · intro len offset hpos hoff hlen
    exact ⟨(reads_rbuf h hlt hpos hoff hlen buf).trans hchecked,
      (writes_wbuf h hlt hpos hoff hlen buf).trans hchecked⟩

theorem sfs_block_io_bigDev : ∃ sfs, Mounted sfs ∧ ∀ buf,
    Reads sfs buf 4096 7 0 (rwblock sfs buf 7 1 false) ∧
    ¬ Reads sfs buf 4096 (2 ^ 19) 0 (rwblock sfs buf (2 ^ 19) 1 false) := by
  obtain ⟨sfs, hmount, hblocks⟩ := doMount_bigDev
  have h : Mounted sfs := ⟨_, _, _, _, sfs, hmount, rfl, rfl⟩
  refine ⟨sfs, h, fun buf => ⟨?_, fun hreads => ?_⟩⟩
  · have hlt : 7 < sfs.blocks := by omega
    exact (sfs_block_io h hlt buf).2.1.mpr (by decide)
  · have hlt : 2 ^ 19 < sfs.blocks := by omega
    exact absurd ((sfs_block_io h hlt buf).2.1.mp hreads).2 (lt_irrefl _)

end Ucore.SfsIo
