import Ucore.Mm.Wrap

/-!
# Loading a segment (`kern/process/proc.c`)

Reference model of the iteration of `load_icode` for one program header, with its two page loops:
the first reads the file part of the segment into new pages, the second clears the rest, and between
them the rest of the page that both parts share is cleared.

* `ElfFile` — the program, and what each `sysfile_seek` and `sysfile_read` comes to.
* `Seg` — the local variables of the page loops; its `log` has the allocations and reads so far.
* `load_segment` — every iteration ends, and leaves the image of the segment if no call failed.

A failed assertion, the use of `page` before a page was allocated, and a read or `memset` that leaves
its page are `none`.
-/

namespace Ucore

def ELF_PT_LOAD : ℕ := 1

def ELF_PF_X : UInt32 := 1

def ELF_PF_W : UInt32 := 2

def ELF_PF_R : UInt32 := 4

/-- `E_INVAL_ELF`, invalid elf file. -/
def E_INVAL_ELF : Int := 8

/-- Difference of two 32-bit words. -/
def wsub (a b : ℕ) : ℕ := (a + 2 ^ 32 - b) % 2 ^ 32

/-- `struct proghdr`, without the fields that the kernel does not use. -/
structure ProgHdr where
  pType : ℕ
  pOffset : ℕ
  pVa : ℕ
  pFilesz : ℕ
  pMemsz : ℕ
  pFlags : UInt32

/-- The calls of an iteration that can fail. -/
inductive LoadEvent where
  | alloc (la : ℕ) (page : Option ℕ)
  | read (ret : Int)
  deriving DecidableEq

namespace LoadEvent

/-- The call succeeded. -/
def Ok : LoadEvent → Prop
  | alloc _ page => page ≠ none
  | read ret => ret = 0

/-- The address that got a page. -/
def allocated : LoadEvent → Option ℕ
  | alloc la (some _) => some la
  | _ => none

end LoadEvent

/-- The open file, and what the calls at each offset return. -/
structure ElfFile where
  bytes : ℕ → UInt8
  seek : ℕ → Int
  read : ℕ → Int

/-- `sysfile_seek`, which refuses the offsets that are negative as an `off_t`. -/
def ElfFile.sysfileSeek (file : ElfFile) (offset : ℕ) : Int :=
  if offset < 2 ^ 31 then file.seek offset else -E_INVAL

namespace Sys

variable (s : Sys)

/-- Bytes of the frame `f` from `off` on are stored. -/
def writePage (f off n : ℕ) (d : ℕ → UInt8) : Sys :=
  { s with data := Function.update s.data f fun j =>
      if off ≤ j ∧ j < off + n then d (j - off) else s.data f j }

/-- `load_icode_read` into the frame `f`. -/
def loadIcodeRead (file : ElfFile) (f off size offset : ℕ) : Option (Int × Sys) := do
  guard (off + size ≤ PGSIZE)
  if file.sysfileSeek offset ≠ 0 then some (file.sysfileSeek offset, s)
  else
    let ret := file.read offset
    let s := s.writePage f off (min ret.toNat size) fun j => file.bytes (offset + j)
    if ret ≠ size then some (if ret < 0 then ret else -1, s) else some (0, s)

/-- `memset(page2kva(page) + off, 0, size)`. -/
def memset (f off size : ℕ) : Option Sys := do
  guard (off + size ≤ PGSIZE)
  return s.writePage f off size fun _ => 0

/-- `pgdir_alloc_page`, with the page that it returns. -/
def newPage (env : Env) (mm la : ℕ) (perm : Perm) : Option (Option ℕ × Sys) :=
  (s.pgdirAllocPage env mm la perm).map fun r =>
    (if r.1 then (s.allocPage env .newpage).1 else none, r.2)

/-- The byte that a process finds at the address `a`, if its page is present. -/
def userByte (mm a : ℕ) : Option UInt8 :=
  match s.pte (ptep mm a) with
  | .page f _ => some (s.data f (a % PGSIZE))
  | _ => none

end Sys

/-- The local variables of the page loops, and the memory. -/
structure Seg where
  start : ℕ
  la : ℕ
  offset : ℕ
  page : Option ℕ
  sys : Sys
  log : List LoadEvent

namespace Seg

/-- `if (end < la) size -= la - end`. -/
def trim (size la stop : ℕ) : ℕ := if stop < la then wsub size (wsub la stop) else size

/-- The page loops of `load_icode`; `fill` is what they do with the new page. -/
def pageLoop (fill : Seg → ℕ → ℕ → ℕ → Option (Int × Seg)) (envs : ℕ → Env) (mm : ℕ) (perm : Perm)
    (stop : ℕ) : ℕ → Seg → Option (Int × Seg)
  | 0, g => if g.start < stop then none else some (0, g)
  | fuel + 1, g =>
    if g.start < stop then do
      let (page, sys) ← g.sys.newPage (envs g.la) mm g.la perm
      let log := g.log ++ [.alloc g.la page]
      match page with
      | none => some (-E_NO_MEM, { g with sys := sys, log := log })
      | some f => do
        let off := wsub g.start g.la
        let la := wadd g.la PGSIZE
        let size := trim (wsub PGSIZE off) la stop
        let (ret, g) ← fill { g with la := la, page := some f, sys := sys, log := log } f off size
        if ret ≠ 0 then some (ret, g)
        else pageLoop fill envs mm perm stop fuel { g with start := wadd g.start size }
    else some (0, g)

/-- `load_icode_read`, and `offset += size`. -/
def fileFill (file : ElfFile) (g : Seg) (f off size : ℕ) : Option (Int × Seg) := do
  let (ret, sys) ← g.sys.loadIcodeRead file f off size g.offset
  let offset := if ret ≠ 0 then g.offset else wadd g.offset size
  return (ret, { g with offset := offset, sys := sys, log := g.log ++ [.read ret] })

/-- `memset` of the block. -/
def zeroFill (g : Seg) (f off size : ℕ) : Option (Int × Seg) := do
  let sys ← g.sys.memset f off size
  return (0, { g with sys := sys })

/-- The loop over the file part. -/
def fileLoop (file : ElfFile) (envs : ℕ → Env) (mm : ℕ) (perm : Perm) (stop : ℕ) (g : Seg) :
    Option (Int × Seg) :=
  pageLoop (fileFill file) envs mm perm stop (stop - g.start) g

/-- The loop over the pages that are cleared. -/
def zeroLoop (envs : ℕ → Env) (mm : ℕ) (perm : Perm) (stop : ℕ) (g : Seg) : Option (Int × Seg) :=
  pageLoop zeroFill envs mm perm stop (stop - g.start) g

/-- The rest of the page that the file part ends in is cleared. -/
def sharedPage (stop : ℕ) (g : Seg) : Option Seg := do
  let off := wsub (wadd g.start PGSIZE) g.la
  let size := trim (wsub PGSIZE off) g.la stop
  let f ← g.page
  let sys ← g.sys.memset f off size
  let start := wadd g.start size
  guard ((stop < g.la ∧ start = stop) ∨ (stop ≥ g.la ∧ start = g.la))
  return { g with start := start, sys := sys }

/-- What follows the file part, up to the end of the segment. -/
def clearRest (envs : ℕ → Env) (mm : ℕ) (perm : Perm) (stop : ℕ) (g : Seg) : Option (Int × Seg) :=
  if g.start < g.la then
    if g.start = stop then some (0, g)
    else do
      let g ← g.sharedPage stop
      g.zeroLoop envs mm perm stop
  else g.zeroLoop envs mm perm stop

end Seg

/-- What an iteration over the program headers leaves. -/
structure Loaded where
  ret : Int
  mm : Mm
  brkStart : ℕ
  sys : Sys
  log : List LoadEvent

namespace ProgHdr

/-- `vm_flags`. -/
def vmFlags (ph : ProgHdr) : UInt32 :=
  (if ph.pFlags &&& ELF_PF_X ≠ 0 then VM_EXEC else 0) |||
    (if ph.pFlags &&& ELF_PF_W ≠ 0 then VM_WRITE else 0) |||
    (if ph.pFlags &&& ELF_PF_R ≠ 0 then VM_READ else 0)

/-- `perm`. -/
def perm (ph : ProgHdr) : Perm := ⟨true, decide (ph.vmFlags &&& VM_WRITE ≠ 0), false, false⟩

/-- The variables before the first page loop. -/
def seg (ph : ProgHdr) (s : Sys) : Seg := ⟨ph.pVa, rounddown ph.pVa, ph.pOffset, none, s, []⟩

/-- The page loops for one program header. -/
def loadPages (ph : ProgHdr) (file : ElfFile) (envs : ℕ → Env) (mm : ℕ) (s : Sys) :
    Option (Int × Seg) := do
  let (ret, g) ← (ph.seg s).fileLoop file envs mm ph.perm (wadd ph.pVa ph.pFilesz)
  if ret ≠ 0 then some (ret, g)
  else g.clearRest envs mm ph.perm (wadd ph.pVa ph.pMemsz)

/-- The iteration of `load_icode` for one program header; `pgdir` is `mm->pgdir`. -/
def loadSegment (ph : ProgHdr) (file : ElfFile) (envs : ℕ → Env) (a : Option ℕ)
    (mem : ℕ → Option (RbTree ℕ)) (mm : Mm) (brkStart pgdir : ℕ) (s : Sys) : Option Loaded :=
  if ph.pType ≠ ELF_PT_LOAD then some ⟨0, mm, brkStart, s, []⟩
  else if ph.pFilesz > ph.pMemsz then some ⟨-E_INVAL_ELF, mm, brkStart, s, []⟩
  else if ph.pFilesz = 0 then some ⟨0, mm, brkStart, s, []⟩
  else do
    let (ret, _, mm) ← mm.mmMap ph.pVa ph.pMemsz ph.vmFlags a mem
    if ret ≠ 0 then some ⟨ret, mm, brkStart, s, []⟩
    else
      let stop := wadd ph.pVa ph.pMemsz
      let brkStart := if brkStart < stop then stop else brkStart
      let (ret, g) ← ph.loadPages file envs pgdir s
      some ⟨ret, mm, brkStart, g.sys, g.log⟩

end ProgHdr

/-! ## One page -/

namespace Sys

variable {s s' : Sys} {x : Loc} {f off n mm la b : ℕ} {d : ℕ → UInt8}

/-- The entry `x` alone maps the frame `f`, which is not in the swap cache. -/
structure Own (s : Sys) (x : Loc) (f : ℕ) : Prop where
  maps : ∃ p, s.pte x = .page f p
  uncached : s.pageSwap f = false
  alone : ∀ y p, s.pte y = .page f p → y = x

theorem Own.userByte (h : s.Own (ptep mm b) f) : s.userByte mm b = some (s.data f (b % PGSIZE)) := by
  obtain ⟨p, hp⟩ := h.maps
  unfold Sys.userByte
  rw [hp]

theorem Paged.userByte {T : Loc → Prop} (h : Paged s s' T) (hb : ¬ T (ptep mm b)) :
    s'.userByte mm b = s.userByte mm b := by
  have hpte := h.pte _ hb
  have hview := h.view _ hb
  unfold Sys.view at hview
  unfold Sys.userByte
  rw [hpte] at hview ⊢
  cases hx : s.pte (ptep mm b) with
  | zero => rfl
  | swap o => rfl
  | page g p =>
    rw [hx] at hview
    dsimp only at hview ⊢
    rw [Option.some.inj hview]

/-- A store to the frame of one entry touches nothing else. -/
theorem Own.writePage_paged (h : s.Own x f) (hs : s.Paging) (off n : ℕ) (d : ℕ → UInt8) :
    Paged s (s.writePage f off n d) (· = x) := by
  have hslot : (s.writePage f off n d).slot = s.slot := hs.swap.cache.setData_slot h.uncached _
  refine ⟨⟨hs.finite, hs.swap.setData _, hs.table, hs.inj, hs.apart, hs.shmInj⟩, rfl, rfl,
    fun _ hx => hx, fun _ _ => rfl, fun y hy => ?_, fun _ _ _ _ _ _ hc => Or.inl hc⟩
  unfold view
  rw [hslot]
  unfold writePage
  cases hpte : s.pte y with
  | zero => rfl
  | swap o => rfl
  | page g p =>
    have hgf : g ≠ f := by
      rintro rfl
      exact hy (h.alone y p hpte)
    simp only [Function.update_of_ne hgf]

theorem Own.writePage (h : s.Own x f) (off n : ℕ) (d : ℕ → UInt8) : (s.writePage f off n d).Own x f :=
  ⟨h.maps, h.uncached, h.alone⟩

/-- The bytes of the page that a store has gone to. -/
theorem Own.userByte_writePage (h : s.Own (ptep mm b) f) (off n : ℕ) (d : ℕ → UInt8) :
    (s.writePage f off n d).userByte mm b =
      if off ≤ b % PGSIZE ∧ b % PGSIZE < off + n then some (d (b % PGSIZE - off))
      else s.userByte mm b := by
  rw [(h.writePage off n d).userByte, h.userByte]
  have hdata : (s.writePage f off n d).data f (b % PGSIZE) =
      if off ≤ b % PGSIZE ∧ b % PGSIZE < off + n then d (b % PGSIZE - off) else s.data f (b % PGSIZE) :=
    congrFun (Function.update_self f _ s.data) _
  rw [hdata]
  split <;> rfl

/-- **`pgdir_alloc_page`** for an empty entry: it returns, and the page it returns belongs to that
entry alone. -/
theorem Paging.newPage_spec (h : s.Paging) (hzero : s.pte (ptep mm la) = .zero) (env : Env)
    (perm : Perm) : ∃ page s', s.newPage env mm la perm = some (page, s') ∧
      Paged s s' (· = ptep mm la) ∧ ∀ f, page = some f → s'.Own (ptep mm la) f := by
  unfold newPage pgdirAllocPage
  cases halloc : s.allocPage env .newpage with
  | mk page s₁ =>
    obtain ⟨hq, hfresh⟩ := h.allocPage_spec halloc
    have h₁ := hq.paged.paging
    cases page with
    | none => exact ⟨none, s₁, rfl, hq.paged.mono fun _ hy => hy.elim, nofun⟩
    | some f =>
      have hf := (hfresh f rfl).1
      unfold pageInsert
      cases hget : s₁.getPte env mm la true with
      | mk ok s₂ =>
        obtain ⟨hq₂, htable⟩ := h₁.getPte_spec hget
        have h₂ := hq₂.paged.paging
        have hf₂ := hq₂.fresh f hf
        have hpaged₂ : Paged s s₂ Untouched := hq.paged.trans hq₂.paged
        cases ok with
        | false =>
          refine ⟨none, s₂.freePage f, ?_, ?_, nofun⟩
          · dsimp only
            rw [hget]
            rfl
          have hfree := (h₂.freeFresh hf₂.uncached hf₂.unmapped hf₂.noTable).1
          exact (hpaged₂.trans hfree).mono fun _ hy => hy.elim
        | true =>
          have hzero₂ : s₂.pte (ptep mm la) = .zero := by rw [hq₂.pte, hq.pte, hzero]
          have hins : s₂.insertPte (ptep mm la) f perm =
              some ((s₂.pageRefInc f).setPte (ptep mm la) (.page f perm)) := by
            have hinc : (s₂.pageRefInc f).pte (ptep mm la) = .zero := hzero₂
            unfold insertPte
            dsimp only
            rw [hinc]
          obtain ⟨hpaged, -, hpte, -, hswap, -⟩ :=
            h₂.insertPte_spec (htable rfl) hf₂.inUse hf₂.noTable hins
          refine ⟨some f, (s₂.pageRefInc f).setPte (ptep mm la) (.page f perm), ?_,
            (hpaged₂.mono fun _ hy => hy.elim).trans hpaged, ?_⟩
          · dsimp only
            rw [hget]
            dsimp only
            rw [hins]
            rfl
          · rintro g hg
            cases hg
            refine ⟨⟨perm, hpte⟩, ?_, fun y p hy => ?_⟩
            · by_contra hne
              have hcached := hswap f (Bool.not_eq_false _ ▸ hne)
              rw [hf₂.uncached] at hcached
              cases hcached
            · by_contra hne
              rw [hpaged.pte y hne] at hy
              exact hf₂.not_owned h₂ y (Or.inl ⟨p, hy⟩)

end Sys

/-! ## Blocks of a page -/

/-- The addresses that got a page. -/
def allocs (log : List LoadEvent) : List ℕ := log.filterMap LoadEvent.allocated

namespace Seg

open Sys

variable {s : Sys} {mm va top stop start la f n : ℕ} {want d : ℕ → UInt8} {g : Seg}

theorem ptep_of_near {b : ℕ} (hal : PGSIZE ∣ la) (hle : la ≤ b) (hlt : b < la + PGSIZE) :
    ptep mm b = ptep mm la := by
  have hdiv : b / PGSIZE = la / PGSIZE := by
    obtain ⟨k, rfl⟩ := hal
    unfold PGSIZE at *
    omega
  unfold ptep
  rw [hdiv]

theorem aligned_le {a : ℕ} (ha : PGSIZE ∣ a) (hal : PGSIZE ∣ la) (hlt : a < la + PGSIZE) : a ≤ la := by
  obtain ⟨k, rfl⟩ := hal
  obtain ⟨j, rfl⟩ := ha
  unfold PGSIZE at *
  omega

/-- The block from `start` on is in the page of `start`. -/
theorem ptep_of_block {b : ℕ} (hal : PGSIZE ∣ la) (hle : la ≤ start + PGSIZE) (hlo : start ≤ b)
    (hhi : b < la) : ptep mm b = ptep mm start := by
  have hdiv : b / PGSIZE = start / PGSIZE := by
    obtain ⟨k, rfl⟩ := hal
    unfold PGSIZE at *
    omega
  unfold ptep
  rw [hdiv]

/-- `off` in a new page. -/
theorem off_new (hal : PGSIZE ∣ la) (hle : la ≤ start) (hlt : start < la + PGSIZE) :
    wsub start la = start % PGSIZE := by
  obtain ⟨k, rfl⟩ := hal
  unfold wsub
  unfold PGSIZE at *
  omega

/-- `off` in the page that both parts of the segment share. -/
theorem off_shared (hal : PGSIZE ∣ la) (hlt : start < la) (hle : la ≤ start + PGSIZE)
    (htop : start < USERTOP) : wsub (wadd start PGSIZE) la = start % PGSIZE := by
  obtain ⟨k, rfl⟩ := hal
  unfold wsub wadd
  unfold PGSIZE USERTOP at *
  omega

/-- The block from `start` on ends with the page or at `stop`. -/
theorem chunk_spec (hal : PGSIZE ∣ la) (hlt : start < la) (hle : la ≤ start + PGSIZE)
    (hstop : start < stop) (htop : stop ≤ USERTOP) :
    ∃ size, trim (wsub PGSIZE (start % PGSIZE)) la stop = size ∧ 0 < size ∧
      start % PGSIZE + size ≤ PGSIZE ∧ start + size = min stop la ∧ wadd start size = start + size := by
  obtain ⟨k, rfl⟩ := hal
  refine ⟨_, rfl, ?_⟩
  unfold trim wsub wadd
  unfold PGSIZE USERTOP at *
  split <;> omega

/-! ## The page loops -/

/-- The entries of the pages from `lo` to `hi`. -/
def Within (mm lo hi : ℕ) (x : Loc) : Prop := ∃ b, lo ≤ b ∧ b < hi ∧ x = ptep mm b

/-- The segment from `va` to `top` is loaded up to `start`: the pages below `la` are allocated, those
above are not, and `page` is the page of `start` if that is one of them. -/
structure Loading (s : Sys) (mm va top : ℕ) (want : ℕ → UInt8) (g : Seg) : Prop where
  paged : Paged s g.sys (Within mm va top)
  aligned : PGSIZE ∣ g.la
  base : rounddown va ≤ g.la
  low : va ≤ g.start
  near : g.start < g.la + PGSIZE
  first : g.la < g.start → g.start = va
  todo : ∀ b, g.la ≤ b → b < top → g.sys.pte (ptep mm b) = .zero
  done : ∀ b, va ≤ b → b < g.start → g.sys.userByte mm b = some (want b)
  nodup : (allocs g.log).Nodup
  pages : ∀ a, a ∈ allocs g.log ↔ PGSIZE ∣ a ∧ rounddown va ≤ a ∧ a < g.la
  current : g.start < g.la → g.la ≤ g.start + PGSIZE ∧
    ∃ f, g.page = some f ∧ g.sys.Own (ptep mm g.start) f

/-- A page for the next block. -/
theorem Loading.takePage (h : Loading s mm va top want g) (hla : g.la ≤ g.start) (htop : g.start < top)
    (env : Env) (perm : Perm) : ∃ page sys, g.sys.newPage env mm g.la perm = some (page, sys) ∧
      ∀ f, page = some f → Loading s mm va top want
        { g with la := g.la + PGSIZE, page := some f, sys := sys, log := g.log ++ [.alloc g.la page] } := by
  have hsame : ptep mm g.start = ptep mm g.la := ptep_of_near h.aligned hla h.near
  have hzero : g.sys.pte (ptep mm g.la) = .zero := h.todo g.la le_rfl (by omega)
  obtain ⟨page, sys, hrun, hpaged, hown⟩ := h.paged.paging.newPage_spec hzero env perm
  refine ⟨page, sys, hrun, fun f hf => ?_⟩
  have hallocs : allocs (g.log ++ [.alloc g.la page]) = allocs g.log ++ [g.la] := by
    unfold allocs
    rw [List.filterMap_append, hf]
    rfl
  have hout : ∀ a ∈ allocs g.log, a < g.la := fun a ha => ((h.pages a).mp ha).2.2
  have hal := h.aligned
  have hpos : 0 < PGSIZE := by decide
  refine ⟨h.paged.trans (hpaged.mono ?_), hal.add (dvd_refl _), ?_, h.low, ?_, ?_, ?_, ?_, ?_, ?_, ?_⟩
  · rintro y rfl
    exact ⟨g.start, h.low, htop, hsame.symm⟩
  · exact h.base.trans (Nat.le_add_right ..)
  · have hnear := h.near
    show g.start < g.la + PGSIZE + PGSIZE
    omega
  · intro hlt
    have hnear := h.near
    change g.la + PGSIZE < g.start at hlt
    omega
  · intro b hlo hhi
    change g.la + PGSIZE ≤ b at hlo
    have hne : ptep mm b ≠ ptep mm g.la := by
      intro heq
      have hdiv : b / PGSIZE = g.la / PGSIZE := (Loc.user.inj heq).2
      obtain ⟨k, hk⟩ := hal
      rw [hk] at hdiv hlo
      unfold PGSIZE at *
      omega
    exact (hpaged.pte _ hne).trans (h.todo b (by omega) hhi)
  · intro b hlo hhi
    have hbyte := h.done b hlo hhi
    refine (hpaged.userByte fun heq => ?_).trans hbyte
    unfold userByte at hbyte
    rw [heq, hzero] at hbyte
    cases hbyte
  · show (allocs (g.log ++ [.alloc g.la page])).Nodup
    rw [hallocs]
    refine List.nodup_append.mpr ⟨h.nodup, List.nodup_singleton _, fun a ha c hc hac => ?_⟩
    rw [List.mem_singleton.mp hc] at hac
    exact absurd (hout a ha) (by omega)
  · intro a
    show a ∈ allocs (g.log ++ [.alloc g.la page]) ↔ _
    rw [hallocs, List.mem_append, List.mem_singleton, h.pages a]
    have hbase := h.base
    constructor
    · rintro (⟨hda, hb, hlt⟩ | rfl)
      · exact ⟨hda, hb, Nat.lt_add_right _ hlt⟩
      · exact ⟨hal, hbase, Nat.lt_add_of_pos_right hpos⟩
    · rintro ⟨hda, hb, hlt⟩
      by_cases heq : a = g.la
      · exact Or.inr heq
      · refine Or.inl ⟨hda, hb, ?_⟩
        exact lt_of_le_of_ne (aligned_le hda hal hlt) heq
  · intro _
    refine ⟨Nat.add_le_add_right hla _, f, rfl, ?_⟩
    rw [hsame]
    exact hown f hf

/-- A block of the current page is stored. -/
theorem Loading.store (h : Loading s mm va top want g) (hcur : g.start < g.la) (hpage : g.page = some f)
    (hfit : g.start + n ≤ g.la) (htop : g.start < top) (hd : ∀ j < n, d j = want (g.start + j))
    {evs : List LoadEvent} (hevs : allocs evs = []) (offset : ℕ) : Loading s mm va top want
      { g with start := g.start + n, offset := offset,
               sys := g.sys.writePage f (g.start % PGSIZE) n d, log := g.log ++ evs } := by
  obtain ⟨hle, f', hf', hown⟩ := h.current hcur
  rw [hpage] at hf'
  cases hf'
  have hallocs : allocs (g.log ++ evs) = allocs g.log := by
    have happ : allocs (g.log ++ evs) = allocs g.log ++ allocs evs := List.filterMap_append
    rw [happ, hevs, List.append_nil]
  have hpaged := hown.writePage_paged h.paged.paging (g.start % PGSIZE) n d
  have hal := h.aligned
  have hlow := h.low
  refine ⟨h.paged.trans (hpaged.mono ?_), hal, h.base, ?_, ?_, ?_, h.todo, fun b hlo hhi => ?_, ?_, ?_, ?_⟩
  · rintro y rfl
    exact ⟨g.start, hlow, htop, rfl⟩
  · exact hlow.trans (Nat.le_add_right ..)
  · have hpos : 0 < PGSIZE := by decide
    show g.start + n < g.la + PGSIZE
    omega
  · intro hlt
    exact absurd hfit (Nat.not_le.mpr hlt)
  · change b < g.start + n at hhi
    show (g.sys.writePage f (g.start % PGSIZE) n d).userByte mm b = some (want b)
    by_cases hsame : ptep mm b = ptep mm g.start
    · -- the page of the block
      have hdiv : b / PGSIZE = g.start / PGSIZE := (Loc.user.inj hsame).2
      have hb := Nat.div_add_mod b PGSIZE
      have hs := Nat.div_add_mod g.start PGSIZE
      rw [hdiv] at hb
      rw [← hsame] at hown
      rw [hown.userByte_writePage]
      split
      · rename_i hin
        rw [hd _ (by omega)]
        congr 2
        omega
      · exact h.done b hlo (by omega)
    · refine (hpaged.userByte hsame).trans (h.done b hlo ?_)
      by_contra hge
      exact hsame (ptep_of_block hal hle (Nat.le_of_not_lt hge) (by omega))
  · show (allocs (g.log ++ evs)).Nodup
    rw [hallocs]
    exact h.nodup
  · intro a
    show a ∈ allocs (g.log ++ evs) ↔ _
    rw [hallocs]
    exact h.pages a
  · intro hlt
    change g.start + n < g.la at hlt
    have hsame : ptep mm (g.start + n) = ptep mm g.start :=
      ptep_of_block hal hle (Nat.le_add_right ..) hlt
    refine ⟨by show g.la ≤ g.start + n + PGSIZE; omega, f, hpage, ?_⟩
    show (g.sys.writePage f (g.start % PGSIZE) n d).Own (ptep mm (g.start + n)) f
    rw [hsame]
    exact hown.writePage _ _ _

/-- Some call of the iteration has failed. -/
def Failed (log : List LoadEvent) : Prop := ∃ e ∈ log, ¬ e.Ok

/-- What a page loop does with a block: it stores the bytes `want`, unless a call fails; `ok` relates
`start` and `offset`. -/
def Fills (fill : Seg → ℕ → ℕ → ℕ → Option (Int × Seg)) (want : ℕ → UInt8) (va stop : ℕ)
    (ok : ℕ → ℕ → Prop) : Prop :=
  ∀ (g : Seg) (f off size : ℕ), off + size ≤ PGSIZE → va ≤ g.start → g.start + size ≤ stop →
    ok g.start g.offset → ∃ ret g', fill g f off size = some (ret, g') ∧
      (ret ≠ 0 ∧ Failed g'.log ∨ ret = 0 ∧ ∃ offset evs d, ok (g.start + size) offset ∧ allocs evs = [] ∧
        (∀ j < size, d j = want (g.start + j)) ∧
        g' = { g with offset := offset, sys := g.sys.writePage f off size d, log := g.log ++ evs })

theorem fileFill_fills (file : ElfFile) {offset : ℕ} (hwant : ∀ b, va ≤ b → b < stop →
    want b = file.bytes (offset + (b - va))) :
    Fills (fileFill file) want va stop fun start o => o = offset + (start - va) := by
  intro g f off size hfit hlow hstop hok
  change g.offset = offset + (g.start - va) at hok
  unfold fileFill loadIcodeRead
  simp only [hfit, guard, if_true, Option.bind_eq_bind, Option.pure_def, Option.bind_some]
  by_cases hseek : file.sysfileSeek g.offset = 0
  · rw [if_neg (not_not.mpr hseek)]
    by_cases hread : file.read g.offset = size
    · have hoff : g.offset < 2 ^ 31 := by
        by_contra hge
        unfold ElfFile.sysfileSeek at hseek
        rw [if_neg hge] at hseek
        cases hseek
      rw [if_neg (not_not.mpr hread), hread, Int.toNat_natCast, min_self]
      refine ⟨_, _, rfl, Or.inr ⟨rfl, wadd g.offset size, [.read 0], fun j => file.bytes (g.offset + j),
        ?_, rfl, fun j hj => ?_, rfl⟩⟩
      · unfold wadd
        unfold PGSIZE at hfit
        show (g.offset + size) % 2 ^ 32 = offset + (g.start + size - va)
        omega
      · rw [hwant _ (by omega) (by omega)]
        exact congrArg file.bytes (by omega)
    · rw [if_pos hread]
      refine ⟨_, _, rfl, Or.inl ⟨?_, .read _, List.mem_append_right _ (List.mem_singleton_self _), ?_⟩⟩
      · split <;> omega
      · show ¬ _ = (0 : Int)
        split <;> omega
  · rw [if_pos hseek]
    exact ⟨_, _, rfl, Or.inl ⟨hseek, .read _, List.mem_append_right _ (List.mem_singleton_self _), hseek⟩⟩

theorem memset_eq {off size : ℕ} (hfit : off + size ≤ PGSIZE) :
    s.memset f off size = some (s.writePage f off size fun _ => 0) := by
  unfold memset guard
  rw [if_pos hfit]
  rfl

theorem zeroFill_fills (hwant : ∀ b, va ≤ b → b < stop → want b = 0) :
    Fills zeroFill want va stop fun _ _ => True := by
  intro g f off size hfit hlow hstop _
  unfold zeroFill
  rw [memset_eq hfit]
  refine ⟨0, _, rfl, Or.inr ⟨rfl, g.offset, [], fun _ => 0, trivial, rfl, fun j hj => ?_, ?_⟩⟩
  · rw [hwant _ (by omega) (by omega)]
  · rw [List.append_nil]

/-- **A page loop** ends; if no call fails, it loads the segment up to `stop`. -/
theorem pageLoop_spec {fill : Seg → ℕ → ℕ → ℕ → Option (Int × Seg)} {lo : ℕ} {ok : ℕ → ℕ → Prop}
    (hfill : Fills fill want lo stop ok) (hstop : stop ≤ top) (htop : top ≤ USERTOP) (envs : ℕ → Env)
    (perm : Perm) : ∀ (fuel : ℕ) (g : Seg), Loading s mm va top want g → ok g.start g.offset →
      lo ≤ g.start → g.start ≤ stop → (g.start < stop → g.la ≤ g.start) → g.la < g.start + PGSIZE →
      stop - g.start ≤ fuel →
      ∃ ret g', pageLoop fill envs mm perm stop fuel g = some (ret, g') ∧
        (ret ≠ 0 ∧ Failed g'.log ∨ ret = 0 ∧ Loading s mm va top want g' ∧ g'.start = stop ∧
          g'.la < g'.start + PGSIZE) := by
  intro fuel
  induction fuel with
  | zero =>
    intro g h _ _ hle _ hlast hfuel
    have hend : ¬ g.start < stop := by omega
    refine ⟨0, g, ?_, Or.inr ⟨rfl, h, by omega, hlast⟩⟩
    unfold pageLoop
    rw [if_neg hend]
  | succ fuel ih =>
    intro g h hok hlo hle hla hlast hfuel
    unfold pageLoop
    by_cases hlt : g.start < stop
    · rw [if_pos hlt]
      have hla := hla hlt
      have hnear := h.near
      obtain ⟨page, sys, hnew, htake⟩ := h.takePage hla (by omega) (envs g.la) perm
      simp only [hnew, Option.bind_eq_bind, Option.bind_some]
      cases page with
      | none =>
        refine ⟨_, _, rfl, Or.inl ⟨by decide, .alloc g.la none, ?_, fun hne => hne rfl⟩⟩
        exact List.mem_append_right _ (List.mem_singleton_self _)
      | some f =>
        have h₁ := htake f rfl
        -- the block, with the arithmetic of the source
        have hend : wadd g.la PGSIZE = g.la + PGSIZE := by
          unfold wadd
          unfold USERTOP at htop
          unfold PGSIZE
          omega
        obtain ⟨size, hsize, hpos, hfit, hblock, hnext⟩ := chunk_spec h₁.aligned hnear
          (Nat.add_le_add_right hla _) hlt (hstop.trans htop)
        change g.start + size = min stop (g.la + PGSIZE) at hblock
        rw [off_new h.aligned hla hnear, hend, hsize]
        obtain ⟨ret, g', hfilled, hres⟩ := hfill
          { g with la := g.la + PGSIZE, page := some f, sys := sys,
                   log := g.log ++ [.alloc g.la (some f)] }
          f (g.start % PGSIZE) size hfit hlo (by show g.start + size ≤ stop; omega) hok
        dsimp only
        rw [hfilled]
        rcases hres with ⟨hne, hfailed⟩ | ⟨rfl, offset, evs, d, hok', hevs, hd, rfl⟩
        · refine ⟨ret, g', ?_, Or.inl ⟨hne, hfailed⟩⟩
          rw [Option.bind_some, if_pos hne]
        · have h₂ := h₁.store hnear rfl (by show g.start + size ≤ g.la + PGSIZE; omega)
            (by show g.start < top; omega) hd hevs offset
          rw [Option.bind_some, if_neg (not_not.mpr rfl), hnext]
          exact ih _ h₂ hok' (hlo.trans (Nat.le_add_right ..)) (by show g.start + size ≤ stop; omega)
            (fun hmore => by
              change g.start + size < stop at hmore
              show g.la + PGSIZE ≤ g.start + size
              omega)
            (by show g.la + PGSIZE < g.start + size + PGSIZE; omega)
            (by show stop - (g.start + size) ≤ fuel; omega)
    · rw [if_neg hlt]
      exact ⟨0, g, rfl, Or.inr ⟨rfl, h, by omega, hlast⟩⟩

/-- The shared page: the assertion holds. -/
theorem Loading.sharedPage (h : Loading s mm va top want g) (hcur : g.start < g.la)
    (hlt : g.start < stop) (hstop : stop ≤ top) (htop : top ≤ USERTOP)
    (hzero : ∀ b, g.start ≤ b → b < stop → want b = 0) : ∃ g', g.sharedPage stop = some g' ∧
      Loading s mm va top want g' ∧ g'.start = min stop g.la ∧ g'.la = g.la := by
  obtain ⟨hle, f, hpage, -⟩ := h.current hcur
  obtain ⟨size, hsize, hpos, hfit, hblock, hnext⟩ :=
    chunk_spec h.aligned hcur hle hlt (hstop.trans htop)
  have hassert : stop < g.la ∧ g.start + size = stop ∨ stop ≥ g.la ∧ g.start + size = g.la := by omega
  refine ⟨{ g with start := g.start + size, sys := g.sys.writePage f (g.start % PGSIZE) size fun _ => 0 },
    ?_, ?_, hblock, rfl⟩
  · unfold Seg.sharedPage
    simp only [off_shared h.aligned hcur hle (by omega), hsize, hpage, memset_eq hfit, hnext, hassert,
      guard, Option.bind_eq_bind, Option.bind_some, if_true, Option.pure_def]
  · have hd : ∀ j < size, (0 : UInt8) = want (g.start + j) :=
      fun j hj => (hzero _ (by omega) (by omega)).symm
    have hnone : allocs [] = [] := rfl
    have hstore := h.store hcur hpage (by omega) (by omega) hd hnone g.offset
    rw [List.append_nil] at hstore
    exact hstore

/-- **The rest of the segment** is cleared. -/
theorem Loading.clearRest (h : Loading s mm va top want g) (hcur : g.start ≤ g.la)
    (hlast : g.la < g.start + PGSIZE) (hle : g.start ≤ top) (htop : top ≤ USERTOP)
    (hzero : ∀ b, g.start ≤ b → b < top → want b = 0) (envs : ℕ → Env) (perm : Perm) :
    ∃ ret g', g.clearRest envs mm perm top = some (ret, g') ∧
      (ret ≠ 0 ∧ Failed g'.log ∨ ret = 0 ∧ Loading s mm va top want g' ∧ g'.start = top ∧
        g'.la < g'.start + PGSIZE) := by
  unfold Seg.clearRest zeroLoop
  have hfill := zeroFill_fills hzero
  by_cases hlt : g.start < g.la
  · rw [if_pos hlt]
    by_cases hend : g.start = top
    · rw [if_pos hend]
      exact ⟨0, g, rfl, Or.inr ⟨rfl, h, hend, hlast⟩⟩
    · rw [if_neg hend]
      obtain ⟨g', hrun, h', hstart, hla⟩ := h.sharedPage hlt (by omega) le_rfl htop hzero
      rw [hrun]
      exact pageLoop_spec hfill le_rfl htop envs perm _ g' h' trivial (by omega) (by omega)
        (fun hmore => by omega) (by omega) le_rfl
  · rw [if_neg hlt]
    exact pageLoop_spec hfill le_rfl htop envs perm _ g h trivial le_rfl hle (fun _ => by omega) hlast
      le_rfl

end Seg

/-! ## The image of a segment -/

namespace ProgHdr

open Sys Seg

variable {ph : ProgHdr} {s : Sys}

/-- The byte of the segment at the address `b`: of the file, or zero. -/
def image (ph : ProgHdr) (file : ElfFile) (b : ℕ) : UInt8 :=
  if b < ph.pVa + ph.pFilesz then file.bytes (ph.pOffset + (b - ph.pVa)) else 0

theorem seg_loading (hs : s.Paging) (ph : ProgHdr) {mm top : ℕ} (want : ℕ → UInt8)
    (htop : ph.pVa < top)
    (hfree : ∀ b, ph.pVa ≤ b → b < top → s.pte (ptep mm b) = .zero) :
    Loading s mm ph.pVa top want (ph.seg s) := by
  have hal := rounddown_aligned ph.pVa
  have hle := Mm.rounddown_le ph.pVa
  have hnear : ph.pVa < rounddown ph.pVa + PGSIZE := by
    unfold rounddown PGSIZE
    omega
  refine ⟨.refl hs _, hal, le_rfl, le_rfl, hnear, fun _ => rfl, fun b hlo hhi => ?_,
    fun b hlo hhi => absurd hhi (Nat.not_lt.mpr hlo), List.nodup_nil, fun a => ?_, fun hlt => ?_⟩
  · change rounddown ph.pVa ≤ b at hlo
    by_cases hb : ph.pVa ≤ b
    · exact hfree b hb hhi
    · -- a byte below the segment, in its first page
      have hsame : ptep mm b = ptep mm ph.pVa := by
        rw [ptep_of_near hal hlo ((Nat.lt_of_not_le hb).trans hnear), ptep_of_near hal hle hnear]
      show s.pte (ptep mm b) = .zero
      rw [hsame]
      exact hfree _ le_rfl htop
  · refine ⟨fun ha => absurd ha List.not_mem_nil, fun ⟨_, hlo, hhi⟩ => ?_⟩
    exact absurd hhi (Nat.not_lt.mpr hlo)
  · exact absurd hlt (Nat.not_lt.mpr hle)

/-- The page loops load the whole segment, unless a call fails. -/
theorem loadPages_spec (hs : s.Paging) (hpos : 0 < ph.pFilesz) (hle : ph.pFilesz ≤ ph.pMemsz)
    (htop : ph.pVa + ph.pMemsz ≤ USERTOP) {mm : ℕ}
    (hfree : ∀ b, ph.pVa ≤ b → b < ph.pVa + ph.pMemsz → s.pte (ptep mm b) = .zero)
    (file : ElfFile) (envs : ℕ → Env) : ∃ ret g, ph.loadPages file envs mm s = some (ret, g) ∧
      (ret ≠ 0 ∧ Failed g.log ∨ ret = 0 ∧
        Loading s mm ph.pVa (ph.pVa + ph.pMemsz) (ph.image file) g ∧
        g.start = ph.pVa + ph.pMemsz ∧ g.la < g.start + PGSIZE) := by
  have hword : ∀ n, n ≤ ph.pMemsz → wadd ph.pVa n = ph.pVa + n := by
    intro n hn
    unfold wadd
    unfold USERTOP at htop
    omega
  have hseg := seg_loading hs ph (ph.image file) (by omega) hfree
  have hfill : Fills (fileFill file) (ph.image file) ph.pVa (ph.pVa + ph.pFilesz)
      fun start o => o = ph.pOffset + (start - ph.pVa) :=
    fileFill_fills file fun b _ hb => if_pos hb
  have hbase := Mm.rounddown_le ph.pVa
  have hnear : rounddown ph.pVa < ph.pVa + PGSIZE := hbase.trans_lt (Nat.lt_add_of_pos_right (by decide))
  unfold loadPages fileLoop
  rw [hword _ hle, hword _ le_rfl]
  obtain ⟨ret, g, hrun, hres⟩ := pageLoop_spec hfill (Nat.add_le_add_left hle _) htop envs ph.perm
    _ (ph.seg s) hseg (by show ph.pOffset = ph.pOffset + (ph.pVa - ph.pVa); omega) le_rfl
    (Nat.le_add_right ..) (fun _ => hbase) hnear le_rfl
  rw [hrun]
  rcases hres with ⟨hne, hfailed⟩ | ⟨rfl, hg, hstart, hlast⟩
  · refine ⟨ret, g, ?_, Or.inl ⟨hne, hfailed⟩⟩
    simp only [Option.bind_eq_bind, Option.bind_some, if_pos hne]
  · have hcur : g.start ≤ g.la := by
      by_contra hgt
      have hfirst := hg.first (Nat.lt_of_not_le hgt)
      omega
    simp only [Option.bind_eq_bind, Option.bind_some, ne_eq, not_true_eq_false, if_false]
    exact hg.clearRest hcur hlast (by omega) htop
      (fun b hlo _ => if_neg (by omega)) envs ph.perm

/-- **The image of a segment.**  The iteration for a program header ends, with its assertion and with
every read and `memset` inside one page.  Unless `mm_map`, an allocation or a read fails, each byte of
the segment is that of the file, or zero behind the file part, and each page of the segment has been
allocated once. -/
theorem load_segment (ph : ProgHdr) (hload : ph.pType = ELF_PT_LOAD) (hpos : 0 < ph.pFilesz)
    (hle : ph.pFilesz ≤ ph.pMemsz) (hwrap : ph.pVa + ph.pMemsz < 2 ^ 32) (mm : Mm) (h : Mm.Inv mm)
    (pgdir : ℕ) (s : Sys) (hs : s.Paging)
    (hfree : ∀ b, ph.pVa ≤ b → b < ph.pVa + ph.pMemsz → s.pte (ptep pgdir b) = .zero)
    (file : ElfFile) (envs : ℕ → Env) (a : Option ℕ) (mem : ℕ → Option (RbTree ℕ)) (brkStart : ℕ) :
    ∃ r, ph.loadSegment file envs a mem mm brkStart pgdir s = some r ∧
      (r.ret ≠ 0 → (mm.mmMap ph.pVa ph.pMemsz ph.vmFlags a mem).map Prod.fst ≠ some 0 ∨
        ∃ e ∈ r.log, ¬ e.Ok) ∧
      (r.ret = 0 →
        (∀ i < ph.pFilesz, r.sys.userByte pgdir (ph.pVa + i) = some (file.bytes (ph.pOffset + i))) ∧
        (∀ i, ph.pFilesz ≤ i → i < ph.pMemsz → r.sys.userByte pgdir (ph.pVa + i) = some 0) ∧
        (allocs r.log).Nodup ∧
        (∀ la, la ∈ allocs r.log ↔
          PGSIZE ∣ la ∧ rounddown ph.pVa ≤ la ∧ la < ph.pVa + ph.pMemsz) ∧
        Paged s r.sys (Within pgdir ph.pVa (ph.pVa + ph.pMemsz))) := by
  obtain ⟨ret, vma, mm', hmap, -⟩ := h.mmMap_spec ph.pVa ph.pMemsz ph.vmFlags a mem
  unfold loadSegment
  rw [if_neg (not_not.mpr hload), if_neg (by omega), if_neg (by omega), hmap]
  simp only [Option.bind_eq_bind, Option.bind_some]
  by_cases hret : ret = 0
  · subst hret
    rw [if_neg (not_not.mpr rfl)]
    have htop : ph.pVa + ph.pMemsz ≤ USERTOP := by
      rcases Mm.range_cases (by omega) (by omega) (h.mmMap_area hmap).1 with ⟨htop, -⟩ | ⟨hw, -⟩
      · exact htop
      · unfold Mm.Wraps at hw
        omega
    obtain ⟨ret, g, hrun, hres⟩ := loadPages_spec hs hpos hle htop hfree file envs
    rw [hrun]
    refine ⟨_, rfl, fun hne => ?_, fun hzero => ?_⟩
    · rcases hres with ⟨-, hfailed⟩ | ⟨hzero, -⟩
      · exact Or.inr hfailed
      · exact absurd hzero hne
    · rcases hres with ⟨hne, -⟩ | ⟨-, hg, hstart, hlast⟩
      · exact absurd hzero hne
      have hend : g.start ≤ g.la := by
        by_contra hgt
        have hfirst := hg.first (Nat.lt_of_not_le hgt)
        omega
      refine ⟨fun i hi => ?_, fun i hlo hhi => ?_, hg.nodup, fun la => ?_, hg.paged⟩
      · have himage : ph.image file (ph.pVa + i) = file.bytes (ph.pOffset + i) := by
          unfold image
          rw [if_pos (Nat.add_lt_add_left hi _), Nat.add_sub_cancel_left]
        exact (hg.done _ (Nat.le_add_right ..) (by omega)).trans (congrArg some himage)
      · have himage : ph.image file (ph.pVa + i) = 0 := if_neg (by omega)
        exact (hg.done _ (Nat.le_add_right ..) (by omega)).trans (congrArg some himage)
      · rw [← hstart]
        refine (hg.pages la).trans ⟨fun ⟨hal, hlo, hlt⟩ => ⟨hal, hlo, ?_⟩,
          fun ⟨hal, hlo, hlt⟩ => ⟨hal, hlo, hlt.trans_le hend⟩⟩
        -- a page below `la` starts below the end, since that lies in the last page
        by_contra hge
        have hnext := aligned_le hg.aligned hal (by omega)
        omega
  · rw [if_pos hret]
    refine ⟨_, rfl, fun _ => Or.inl ?_, fun hzero => absurd hzero hret⟩
    intro heq
    exact hret (Option.some.inj heq)

/-- A segment of two bytes, and two more that are cleared, at the bottom of user space. -/
def smallHdr : ProgHdr := ⟨ELF_PT_LOAD, 0, USERBASE, 2, 4, ELF_PF_R⟩

/-- A file of sevens. -/
def smallFile : ElfFile := ⟨fun _ => 7, fun _ => 0, fun _ => 2⟩

/-- The small segment is loaded into an empty address space. -/
theorem load_segment_small : ∃ r,
    smallHdr.loadSegment smallFile (fun _ => bootEnv) (some 0) (fun _ => none)
      (Mm.mmCreate 0 fun _ => none) 0 0 boot = some r ∧
    r.sys.userByte 0 (USERBASE + 1) = some 7 ∧ r.sys.userByte 0 (USERBASE + 3) = some 0 := by
  obtain ⟨r, hrun, -, himage⟩ := load_segment smallHdr rfl (by decide) (by decide) (by decide)
    (Mm.mmCreate 0 fun _ => none) (Mm.mmCreate_inv 0 _) 0 boot boot_init.paging (fun _ _ _ => rfl)
    smallFile (fun _ => bootEnv) (some 0) (fun _ => none) 0
  have hret : r.ret = 0 := by
    have hmap : (smallHdr.loadSegment smallFile (fun _ => bootEnv) (some 0) (fun _ => none)
        (Mm.mmCreate 0 fun _ => none) 0 0 boot).map Loaded.ret = some 0 := rfl
    rw [hrun] at hmap
    exact Option.some.inj hmap
  obtain ⟨hfile, hzero, -⟩ := himage hret
  exact ⟨r, hrun, hfile 1 (by decide), hzero 3 (by decide) (by decide)⟩

end ProgHdr

end Ucore
