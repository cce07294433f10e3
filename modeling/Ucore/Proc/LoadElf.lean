import Ucore.Proc.LoadIcode

/-!
# Loading a program (`kern/process/proc.c`)

Reference model of `load_icode`, up to the VMA of the stack: the headers of the file are read, and each
program header is one iteration (`ProgHdr.loadSegment`).  What it does on an error before it returns,
and the arguments on the new stack, are left out.

* `Program` — the file, and what the calls of `load_icode` come to.
* `load_icode_covers` — which programs are loaded without leaving a page, and which segments of an accepted
  one are mapped.
-/

namespace Ucore

def ELF_MAGIC : ℕ := 0x464C457F

def EXEC_MAX_ARG_NUM : Int := 32

def USTACKTOP : ℕ := USERTOP

def USTACKPAGE : ℕ := 256

def USTACKSIZE : ℕ := USTACKPAGE * PGSIZE

/-- The number in so many bytes from `o` on, the lowest first. -/
def leNat (d : ℕ → UInt8) : ℕ → ℕ → ℕ
  | _, 0 => 0
  | o, n + 1 => (d o).toNat + 256 * leNat d (o + 1) n

/-- `struct elfhdr`, without the fields that decide nothing here. -/
structure ElfHdr where
  eMagic : ℕ
  ePhoff : ℕ
  ePhnum : ℕ

namespace ElfFile

variable (file : ElfFile)

/-- `load_icode_read` of a header. -/
def readHeader (size offset : ℕ) : Int :=
  if file.sysfileSeek offset ≠ 0 then file.sysfileSeek offset
  else if file.read offset ≠ size then (if file.read offset < 0 then file.read offset else -1) else 0

def elfhdr : ElfHdr := ⟨leNat file.bytes 0 4, leNat file.bytes 28 4, leNat file.bytes 44 2⟩

def proghdr (o : ℕ) : ProgHdr :=
  ⟨leNat file.bytes o 4, leNat file.bytes (o + 4) 4, leNat file.bytes (o + 8) 4, leNat file.bytes (o + 16) 4,
    leNat file.bytes (o + 20) 4, UInt32.ofNat (leNat file.bytes (o + 24) 4)⟩

end ElfFile

/-- The places of `load_icode` with calls that may fail. -/
inductive LoadPhase where
  | elf
  | header (phnum : ℕ)
  | segment (phnum : ℕ)
  | stack
  deriving DecidableEq

/-- The file, and what the calls return: `mm` and `pgdir` are the objects that `mm_create` and `setup_pgdir`
make. -/
structure Program where
  bytes : ℕ → UInt8
  seek : LoadPhase → ℕ → Int
  read : LoadPhase → ℕ → Int
  mm : Option ℕ
  pgdir : Option ℕ
  vmas : ℕ → Option Vma
  vma : LoadPhase → Option ℕ
  tree : LoadPhase → ℕ → Option (RbTree ℕ)
  envs : LoadPhase → ℕ → Env

namespace Program

variable (x : Program)

def file (k : LoadPhase) : ElfFile := ⟨x.bytes, x.seek k, x.read k⟩

def elf : ElfHdr := (x.file .elf).elfhdr

/-- `phoff`. -/
def phoff (phnum : ℕ) : ℕ := wadd x.elf.ePhoff (32 * phnum)

/-- The program header that is read into `ph`. -/
def hdr (phnum : ℕ) : ProgHdr := (x.file (.header phnum)).proghdr (x.phoff phnum)

/-- An iteration; after an error there is none. -/
def header (pgdir : ℕ) (r : Loaded) (phnum : ℕ) : Option Loaded :=
  if r.ret ≠ 0 then some r
  else
    let ret := (x.file (.header phnum)).readHeader 32 (x.phoff phnum)
    if ret ≠ 0 then some { r with ret := ret }
    else
      ((x.hdr phnum).loadSegment (x.file (.segment phnum)) (x.envs (.segment phnum)) (x.vma (.segment phnum))
        (x.tree (.segment phnum)) r.mm r.brkStart pgdir r.sys).map fun r' => { r' with log := r.log ++ r'.log }

/-- The loop over the program headers, up to one of them. -/
def headers (pgdir : ℕ) (r : Loaded) (phnum : ℕ) : Option Loaded :=
  (List.range phnum).foldlM (x.header pgdir) r

/-- What is there when the loop begins. -/
def created (self : ℕ) (s : Sys) : Loaded := ⟨0, Mm.mmCreate self x.vmas, 0, s, []⟩

/-- What follows the loop: `brk`, and the stack. -/
def mapStack (r : Loaded) : Option Loaded :=
  (r.mm.mmMap (USTACKTOP - USTACKSIZE) USTACKSIZE (VM_READ ||| VM_WRITE ||| VM_STACK) (x.vma .stack)
    (x.tree .stack)).map fun (ret, _, mm) => { r with ret := ret, mm := mm, brkStart := roundup r.brkStart }

/-- `load_icode`; `current` is `current->mm`. -/
def loadIcode (argc : Int) (current : Option ℕ) (s : Sys) : Option Loaded := do
  guard (0 ≤ argc ∧ argc ≤ EXEC_MAX_ARG_NUM)
  guard (current = none)
  match x.mm, x.pgdir with
  | none, _ => some { x.created 0 s with ret := -E_NO_MEM }
  | some self, none => some { x.created self s with ret := -E_NO_MEM }
  | some self, some pgdir =>
    let ret := (x.file .elf).readHeader 52 0
    if ret ≠ 0 then some { x.created self s with ret := ret }
    else if x.elf.eMagic ≠ ELF_MAGIC then some { x.created self s with ret := -E_INVAL_ELF }
    else do
      let r ← x.headers pgdir (x.created self s) x.elf.ePhnum
      if r.ret ≠ 0 then some r else x.mapStack r

end Program

/-! ## What is mapped -/

namespace ProgHdr

variable {ph : ProgHdr} {mm : Mm} {s : Sys} {file : ElfFile} {envs : ℕ → Env} {a : Option ℕ}
  {mem : ℕ → Option (RbTree ℕ)} {brkStart pgdir : ℕ} {r : Loaded}

/-- The header asks for a VMA. -/
def Maps (ph : ProgHdr) : Prop := ph.pType = ELF_PT_LOAD ∧ 0 < ph.pFilesz ∧ ph.pFilesz ≤ ph.pMemsz

/-- The VMA. -/
def area (ph : ProgHdr) : Vma :=
  ⟨none, rounddown ph.pVa, roundup (wadd ph.pVa ph.pMemsz), ph.vmFlags &&& ~~~VM_SHARE, 0, 0⟩

/-- The segment is in user space, and in a VMA. -/
def Covered (ph : ProgHdr) (mm : Mm) : Prop :=
  USERBASE ≤ ph.pVa ∧ ph.pVa + ph.pMemsz ≤ USERTOP ∧
    ∃ y ∈ mm.areas, y.vmStart ≤ ph.pVa ∧ ph.pVa + ph.pMemsz ≤ y.vmEnd

/-- An iteration that returns `0` has called `mm_map`, or the header asks for nothing. -/
theorem loadSegment_zero (hrun : ph.loadSegment file envs a mem mm brkStart pgdir s = some r) (hret : r.ret = 0) :
    (¬ ph.Maps ∧ r.mm = mm ∧ (ph.pType = ELF_PT_LOAD → ph.pFilesz = 0)) ∨
      ph.Maps ∧ ∃ vma, mm.mmMap ph.pVa ph.pMemsz ph.vmFlags a mem = some (0, vma, r.mm) := by
  unfold loadSegment at hrun
  split at hrun
  · rename_i htype
    cases hrun
    exact .inl ⟨fun hmaps => htype hmaps.1, rfl, fun hload => absurd hload htype⟩
  rename_i htype
  split at hrun
  · cases hrun
    cases hret
  rename_i hle
  split at hrun
  · rename_i hzero
    cases hrun
    exact .inl ⟨fun hmaps => absurd hzero hmaps.2.1.ne', rfl, fun _ => hzero⟩
  rename_i hpos
  obtain ⟨⟨ret, vma, mm'⟩, hmap, hrest⟩ := Option.bind_eq_some_iff.mp hrun
  dsimp only at hrest
  split at hrest
  · rename_i hne
    cases hrest
    exact absurd hret hne
  · rename_i hzero
    obtain ⟨⟨ret', g⟩, -, hrest⟩ := Option.bind_eq_some_iff.mp hrest
    cases hrest
    rw [not_not] at hzero
    rw [hzero] at hmap
    exact .inr ⟨⟨not_not.mp htype, Nat.pos_of_ne_zero hpos, Nat.le_of_not_lt hle⟩, vma, hmap⟩

end ProgHdr

theorem leNat_lt (d : ℕ → UInt8) : ∀ (o n : ℕ), leNat d o n < 256 ^ n
  | _, 0 => Nat.one_pos
  | o, n + 1 => by
    have hrest := leNat_lt d (o + 1) n
    have hbyte := (d o).toNat_lt
    unfold leNat
    rw [Nat.pow_succ]
    omega

namespace Program

variable {x : Program} {pgdir self n phnum : ℕ} {r r' : Loaded} {s : Sys} {mm : Mm} {argc : Int} {current : Option ℕ}

theorem hdr_lt (x : Program) (n : ℕ) : (x.hdr n).pVa < 2 ^ 32 ∧ (x.hdr n).pMemsz < 2 ^ 32 :=
  ⟨leNat_lt _ _ 4, leNat_lt _ _ 4⟩

theorem headers_succ : x.headers pgdir r (n + 1) = (x.headers pgdir r n).bind fun r' => x.header pgdir r' n := by
  unfold headers
  rw [List.range_succ, List.foldlM_append]
  refine congrArg _ (funext fun r' => ?_)
  rw [List.foldlM_cons]
  cases x.header pgdir r' n <;> rfl

/-- An iteration that returns `0` comes after such iterations, and has read its header. -/
theorem header_zero (hrun : x.header pgdir r n = some r') (hret : r'.ret = 0) : r.ret = 0 ∧ ∃ r₁,
    (x.hdr n).loadSegment (x.file (.segment n)) (x.envs (.segment n)) (x.vma (.segment n)) (x.tree (.segment n))
      r.mm r.brkStart pgdir r.sys = some r₁ ∧ r₁.ret = 0 ∧ r'.mm = r₁.mm := by
  unfold header at hrun
  split at hrun
  · rename_i hne
    cases hrun
    exact absurd hret hne
  rename_i hzero
  dsimp only at hrun
  split at hrun
  · rename_i hne
    cases hrun
    exact absurd hret hne
  · obtain ⟨r₁, hseg, rfl⟩ := Option.map_eq_some_iff.mp hrun
    exact ⟨not_not.mp hzero, r₁, hseg, hret, rfl⟩

/-- The VMAs after so many iterations that have returned `0`. -/
structure Mapped (x : Program) (n : ℕ) (mm : Mm) : Prop where
  inv : Mm.Inv mm
  areas : ∀ y, y ∈ mm.areas ↔ ∃ m < n, (x.hdr m).Maps ∧ (x.hdr m).area = y
  access : ∀ m < n, (x.hdr m).Maps →
    USER_ACCESS (rounddown (x.hdr m).pVa) (roundup (wadd (x.hdr m).pVa (x.hdr m).pMemsz))
  empty : ∀ m < n, (x.hdr m).pType = ELF_PT_LOAD → ¬ (x.hdr m).Maps → (x.hdr m).pFilesz = 0

/-- A header that asks for nothing. -/
theorem Mapped.skip (h : x.Mapped n mm) (hno : ¬ (x.hdr n).Maps)
    (hzero : (x.hdr n).pType = ELF_PT_LOAD → (x.hdr n).pFilesz = 0) : x.Mapped (n + 1) mm := by
  have hlt : ∀ m < n + 1, m < n ∨ m = n := fun m hm => Nat.lt_succ_iff_lt_or_eq.mp hm
  refine ⟨h.inv, fun y => (h.areas y).trans ⟨fun ⟨m, hm, hy⟩ => ⟨m, by omega, hy⟩, ?_⟩, fun m hm hmaps => ?_,
    fun m hm hload hnone => ?_⟩
  · rintro ⟨m, hm, hmaps, hy⟩
    rcases hlt m hm with hm | rfl
    · exact ⟨m, hm, hmaps, hy⟩
    · exact absurd hmaps hno
  · rcases hlt m hm with hm | rfl
    · exact h.access m hm hmaps
    · exact absurd hmaps hno
  · rcases hlt m hm with hm | rfl
    · exact h.empty m hm hload hnone
    · exact hzero hload

/-- A header with a VMA. -/
theorem Mapped.map {a vma : Option ℕ} {mem : ℕ → Option (RbTree ℕ)} {mm' : Mm} (h : x.Mapped n mm)
    (hmaps : (x.hdr n).Maps)
    (hrun : mm.mmMap (x.hdr n).pVa (x.hdr n).pMemsz (x.hdr n).vmFlags a mem = some (0, vma, mm')) :
    x.Mapped (n + 1) mm' := by
  have hlt : ∀ m < n + 1, m < n ∨ m = n := fun m hm => Nat.lt_succ_iff_lt_or_eq.mp hm
  have hacc := (h.inv.mmMap_area hrun).1
  obtain ⟨ret, w, mm₁, hrun', hinv, -, hnone, hnew⟩ :=
    h.inv.mmMap_spec (x.hdr n).pVa (x.hdr n).pMemsz (x.hdr n).vmFlags a mem
  cases hrun.symm.trans hrun'
  cases hv : vma with
  | none => exact absurd rfl (hnone hv).1
  | some v =>
    obtain ⟨-, -, -, -, hareas⟩ := hnew v hv
    refine ⟨hinv, fun y => ?_, fun m hm hm' => ?_, fun m hm hload hno => ?_⟩
    · rw [hareas, Multiset.mem_cons, h.areas]
      constructor
      · rintro (rfl | ⟨m, hm, hy⟩)
        · exact ⟨n, by omega, hmaps, rfl⟩
        · exact ⟨m, by omega, hy⟩
      · rintro ⟨m, hm, hm', hy⟩
        rcases hlt m hm with hm | rfl
        · exact .inr ⟨m, hm, hm', hy⟩
        · exact .inl hy.symm
    · rcases hlt m hm with hm | rfl
      · exact h.access m hm hm'
      · exact hacc
    · rcases hlt m hm with hm | rfl
      · exact h.empty m hm hload hno
      · exact absurd hmaps hno

theorem created_mapped (x : Program) (self : ℕ) (s : Sys) : x.Mapped 0 (x.created self s).mm :=
  ⟨Mm.mmCreate_inv self x.vmas, fun y => ⟨fun hy => absurd hy (Multiset.notMem_zero y),
    fun ⟨_, hm, _⟩ => absurd hm (Nat.not_lt_zero _)⟩,
    fun _ hm => absurd hm (Nat.not_lt_zero _), fun _ hm => absurd hm (Nat.not_lt_zero _)⟩

theorem headers_mapped (hrun : x.headers pgdir (x.created self s) n = some r) (hret : r.ret = 0) :
    x.Mapped n r.mm := by
  induction n generalizing r with
  | zero =>
    cases hrun
    exact x.created_mapped self s
  | succ n ih =>
    rw [headers_succ] at hrun
    obtain ⟨r₀, hrun₀, hstep⟩ := Option.bind_eq_some_iff.mp hrun
    obtain ⟨hret₀, r₁, hseg, hret₁, hmm⟩ := header_zero hstep hret
    have h := ih hrun₀ hret₀
    rw [hmm]
    rcases ProgHdr.loadSegment_zero hseg hret₁ with ⟨hno, hsame, hzero⟩ | ⟨hmaps, vma, hmap⟩
    · rw [hsame]
      exact h.skip hno hzero
    · exact h.map hmaps hmap

/-! ## The segments of an accepted program -/

/-- The VMA of the stack. -/
def stackArea : Vma := ⟨none, USTACKTOP - USTACKSIZE, USTACKTOP, VM_READ ||| VM_WRITE ||| VM_STACK, 0, 0⟩

/-- The segment is mapped for its file part and does not wrap, or lies in the stack or in a VMA that another
header asks for. -/
def Placed (x : Program) (ph : ProgHdr) : Prop :=
  ph.pFilesz ≠ 0 ∧ ph.pVa + ph.pMemsz < 2 ^ 32 ∨ ph.pFilesz = 0 ∧
    (USTACKTOP - USTACKSIZE ≤ ph.pVa ∧ ph.pVa + ph.pMemsz ≤ USTACKTOP ∨
      ∃ m < x.elf.ePhnum, (x.hdr m).Maps ∧ rounddown (x.hdr m).pVa ≤ ph.pVa ∧
        ph.pVa + ph.pMemsz ≤ roundup (wadd (x.hdr m).pVa (x.hdr m).pMemsz))

theorem mapStack_areas (hinv : Mm.Inv r.mm) (hrun : x.mapStack r = some r') (hret : r'.ret = 0) :
    r'.mm.areas = stackArea ::ₘ r.mm.areas := by
  obtain ⟨⟨ret, vma, mm'⟩, hmap, rfl⟩ := Option.map_eq_some_iff.mp hrun
  obtain ⟨ret', w, mm₁, hrun', -, -, hnone, hnew⟩ := hinv.mmMap_spec (USTACKTOP - USTACKSIZE) USTACKSIZE
    (VM_READ ||| VM_WRITE ||| VM_STACK) (x.vma .stack) (x.tree .stack)
  cases hmap.symm.trans hrun'
  cases hv : vma with
  | none => exact absurd hret (hnone hv).1
  | some v =>
    obtain ⟨-, -, -, -, hareas⟩ := hnew v hv
    have harea : (⟨none, rounddown (USTACKTOP - USTACKSIZE), roundup (wadd (USTACKTOP - USTACKSIZE) USTACKSIZE),
        (VM_READ ||| VM_WRITE ||| VM_STACK) &&& ~~~VM_SHARE, 0, 0⟩ : Vma) = stackArea := by decide
    rw [← harea]
    exact hareas

theorem Mapped.covered_iff {mm' : Mm} (h : x.Mapped x.elf.ePhnum mm) (hareas : mm'.areas = stackArea ::ₘ mm.areas)
    (hn : n < x.elf.ePhnum) (hload : (x.hdr n).pType = ELF_PT_LOAD) :
    (x.hdr n).Covered mm' ↔ x.Placed (x.hdr n) := by
  obtain ⟨hva, hmemsz⟩ := x.hdr_lt n
  by_cases hzero : (x.hdr n).pFilesz = 0
  · have hno : ¬ (x.hdr n).pFilesz ≠ 0 := not_not.mpr hzero
    unfold ProgHdr.Covered Placed
    simp only [hareas, Multiset.mem_cons, hzero, ne_eq, not_true_eq_false, false_and, false_or, true_and]
    constructor
    · rintro ⟨-, -, y, rfl | hy, hlo, hhi⟩
      · exact .inl ⟨hlo, hhi⟩
      · obtain ⟨m, hm, hmaps, rfl⟩ := (h.areas y).mp hy
        exact .inr ⟨m, hm, hmaps, hlo, hhi⟩
    · rintro (⟨hlo, hhi⟩ | ⟨m, hm, hmaps, hlo, hhi⟩)
      · have hbase : USERBASE ≤ USTACKTOP - USTACKSIZE := by decide
        exact ⟨hbase.trans hlo, hhi, stackArea, .inl rfl, hlo, hhi⟩
      · obtain ⟨hbase, -, htop⟩ := h.access m hm hmaps
        exact ⟨hbase.trans hlo, hhi.trans htop, (x.hdr m).area, .inr ((h.areas _).mpr ⟨m, hm, hmaps, rfl⟩), hlo, hhi⟩
  · have hmaps : (x.hdr n).Maps := by
      by_contra hno
      exact hzero (h.empty n hn hload hno)
    have hacc := h.access n hn hmaps
    constructor
    · rintro ⟨-, htop, -⟩
      refine .inl ⟨hzero, ?_⟩
      unfold USERTOP at htop
      omega
    · rintro (⟨-, hlt⟩ | ⟨hno, -⟩)
      · have hnowrap : ¬ Mm.Wraps (x.hdr n).pVa (x.hdr n).pMemsz := by
          unfold Mm.Wraps
          omega
        obtain ⟨htop, hstop⟩ := (Mm.range_cases hva hmemsz hacc).resolve_right fun hwrap => hnowrap hwrap.1
        have hlow := Mm.rounddown_le (x.hdr n).pVa
        exact ⟨hacc.1.trans hlow, htop, (x.hdr n).area,
          hareas ▸ Multiset.mem_cons_of_mem ((h.areas _).mpr ⟨n, hn, hmaps, rfl⟩), hlow, hstop⟩
      · exact absurd hno hzero

/-! ## Every read and `memset` inside its page -/

/-- No range that `mm_map` accepts wraps. -/
def NoWrap (x : Program) (s : Sys) : Prop :=
  ∀ self pgdir, x.mm = some self → x.pgdir = some pgdir → ∀ n < x.elf.ePhnum, ∀ r,
    x.headers pgdir (x.created self s) n = some r → r.ret = 0 → (x.hdr n).Maps → ∀ vma mm',
      r.mm.mmMap (x.hdr n).pVa (x.hdr n).pMemsz (x.hdr n).vmFlags (x.vma (.segment n)) (x.tree (.segment n)) =
        some (0, vma, mm') → (x.hdr n).pVa + (x.hdr n).pMemsz < 2 ^ 32

/-- The new address space has pages in its VMAs only. -/
structure Fitted (pgdir : ℕ) (mm : Mm) (s : Sys) : Prop where
  inv : Mm.Inv mm
  paging : s.Paging
  inside : ∀ b < USERTOP, s.pte (Sys.ptep pgdir b) ≠ .zero → ∃ fl, mm.Covers b fl

section Segment

variable {ph : ProgHdr} {a : Option ℕ} {mem : ℕ → Option (RbTree ℕ)}

/-- The pages that a segment gets are in its VMA. -/
theorem Fitted.load {mm' : Mm} {s' : Sys} {vma : Option ℕ} (h : Fitted pgdir mm s)
    (htop : ph.pVa + ph.pMemsz ≤ USERTOP) (hmap : mm.mmMap ph.pVa ph.pMemsz ph.vmFlags a mem = some (0, vma, mm'))
    (hpaged : Sys.Paged s s' (Seg.Within pgdir ph.pVa (ph.pVa + ph.pMemsz))) : Fitted pgdir mm' s' := by
  obtain ⟨-, -, v, hv, -, hhas⟩ := h.inv.mmMap_area hmap
  obtain ⟨ret, w, mm₁, hrun, hinv, hgrows, -⟩ := h.inv.mmMap_spec ph.pVa ph.pMemsz ph.vmFlags a mem
  cases hmap.symm.trans hrun
  refine ⟨hinv, hpaged.paging, fun b hb hne => ?_⟩
  by_cases hin : Seg.Within pgdir ph.pVa (ph.pVa + ph.pMemsz) (Sys.ptep pgdir b)
  · obtain ⟨b', hlo, hhi, hsame⟩ := hin
    have hpage : b / PGSIZE = b' / PGSIZE := (Loc.user.inj hsame).2
    refine ⟨_, v, hv, hhas b ?_ ?_, rfl⟩
    · unfold rounddown
      unfold PGSIZE at *
      omega
    · unfold roundup rounddown wadd
      unfold PGSIZE USERTOP at *
      omega
  · rw [hpaged.pte _ hin] at hne
    obtain ⟨fl, hcov⟩ := h.inside b hb hne
    exact ⟨fl, hgrows.keeps b fl hcov⟩

/-- **An iteration** returns, if its range does not wrap where `mm_map` accepts it. -/
theorem Fitted.loadSegment (h : Fitted pgdir mm s) (file : ElfFile) (envs : ℕ → Env) (brkStart : ℕ)
    (hva : ph.pVa < 2 ^ 32) (hmemsz : ph.pMemsz < 2 ^ 32)
    (hnowrap : ph.Maps → ∀ vma mm', mm.mmMap ph.pVa ph.pMemsz ph.vmFlags a mem = some (0, vma, mm') →
      ph.pVa + ph.pMemsz < 2 ^ 32) :
    ∃ r, ph.loadSegment file envs a mem mm brkStart pgdir s = some r ∧ (r.ret = 0 → Fitted pgdir r.mm r.sys) := by
  unfold ProgHdr.loadSegment
  split
  · exact ⟨_, rfl, fun _ => h⟩
  rename_i htype
  split
  · exact ⟨_, rfl, nofun⟩
  rename_i hle
  split
  · exact ⟨_, rfl, fun _ => h⟩
  rename_i hpos
  have hmaps : ph.Maps := ⟨not_not.mp htype, Nat.pos_of_ne_zero hpos, Nat.le_of_not_lt hle⟩
  obtain ⟨ret, vma, mm', hmap, -⟩ := h.inv.mmMap_spec ph.pVa ph.pMemsz ph.vmFlags a mem
  rw [hmap]
  simp only [Option.bind_eq_bind, Option.bind_some]
  by_cases hret : ret = 0
  · subst hret
    rw [if_neg (not_not.mpr rfl)]
    have hlt := hnowrap hmaps vma mm' hmap
    have hwraps : ¬ Mm.Wraps ph.pVa ph.pMemsz := by
      unfold Mm.Wraps
      omega
    obtain ⟨hacc, hclear, -⟩ := h.inv.mmMap_area hmap
    obtain ⟨htop, hstop⟩ := (Mm.range_cases hva hmemsz hacc).resolve_right fun hw => hwraps hw.1
    have hfree : ∀ b, ph.pVa ≤ b → b < ph.pVa + ph.pMemsz → s.pte (Sys.ptep pgdir b) = .zero := by
      intro b hlo hhi
      by_contra hne
      obtain ⟨fl, v, hv, hhas, -⟩ := h.inside b (by omega) hne
      have hlow := Mm.rounddown_le ph.pVa
      have hv := hclear v hv
      unfold Vma.Has at hhas
      omega
    obtain ⟨ret, g, hrun, hres⟩ := ProgHdr.loadPages_spec h.paging hmaps.2.1 hmaps.2.2 htop hfree file envs
    rw [hrun]
    refine ⟨_, rfl, fun hzero => ?_⟩
    rcases hres with ⟨hne, -⟩ | ⟨-, hg, -⟩
    · exact absurd hzero hne
    · exact h.load htop hmap hg.paged
  · rw [if_pos hret]
    exact ⟨_, rfl, fun hzero => absurd hzero hret⟩

end Segment

theorem Fitted.header (h : Fitted pgdir r.mm r.sys) (hnowrap : (x.hdr n).Maps → ∀ vma mm',
      r.mm.mmMap (x.hdr n).pVa (x.hdr n).pMemsz (x.hdr n).vmFlags (x.vma (.segment n)) (x.tree (.segment n)) =
        some (0, vma, mm') → (x.hdr n).pVa + (x.hdr n).pMemsz < 2 ^ 32) :
    ∃ r', x.header pgdir r n = some r' ∧ (r'.ret = 0 → Fitted pgdir r'.mm r'.sys) := by
  unfold Program.header
  split
  · exact ⟨r, rfl, fun _ => h⟩
  dsimp only
  split
  · rename_i hne
    exact ⟨_, rfl, fun hzero => absurd hzero hne⟩
  · obtain ⟨hva, hmemsz⟩ := x.hdr_lt n
    obtain ⟨r', hrun, hfit⟩ := h.loadSegment (x.file (.segment n)) (x.envs (.segment n)) r.brkStart hva hmemsz
      hnowrap
    rw [hrun]
    exact ⟨_, rfl, hfit⟩

/-- The loop returns. -/
theorem NoWrap.headers (h : x.NoWrap s) (hmm : x.mm = some self) (hpgdir : x.pgdir = some pgdir)
    (hfit : Fitted pgdir (x.created self s).mm s) (hn : n ≤ x.elf.ePhnum) :
    ∃ r, x.headers pgdir (x.created self s) n = some r ∧ (r.ret = 0 → Fitted pgdir r.mm r.sys) := by
  induction n with
  | zero => exact ⟨_, rfl, fun _ => hfit⟩
  | succ n ih =>
    obtain ⟨r, hrun, hr⟩ := ih (by omega)
    rw [headers_succ, hrun, Option.bind_some]
    by_cases hret : r.ret = 0
    · exact (hr hret).header fun hmaps vma mm' hmap =>
        h self pgdir hmm hpgdir n (by omega) r hrun hret hmaps vma mm' hmap
    · refine ⟨r, ?_, fun hzero => absurd hzero hret⟩
      unfold Program.header
      rw [if_pos hret]

theorem mapStack_returns (hinv : Mm.Inv r.mm) : ∃ r', x.mapStack r = some r' := by
  obtain ⟨ret, vma, mm', hrun, -⟩ := hinv.mmMap_spec (USTACKTOP - USTACKSIZE) USTACKSIZE
    (VM_READ ||| VM_WRITE ||| VM_STACK) (x.vma .stack) (x.tree .stack)
  unfold mapStack
  rw [hrun]
  exact ⟨_, rfl⟩

/-- What `load_icode` returns `0` after. -/
theorem loadIcode_zero (hrun : x.loadIcode argc current s = some r') (hret : r'.ret = 0) :
    ∃ self pgdir r, x.headers pgdir (x.created self s) x.elf.ePhnum = some r ∧ r.ret = 0 ∧
      x.mapStack r = some r' := by
  unfold loadIcode at hrun
  obtain ⟨-, -, hrun⟩ := Option.bind_eq_some_iff.mp hrun
  obtain ⟨-, -, hrun⟩ := Option.bind_eq_some_iff.mp hrun
  split at hrun
  · cases hrun
    cases hret
  · cases hrun
    cases hret
  · rename_i self pgdir _ _
    dsimp only at hrun
    split at hrun
    · rename_i hne
      cases hrun
      exact absurd hret hne
    · split at hrun
      · cases hrun
        cases hret
      · obtain ⟨r, hheaders, hrun⟩ := Option.bind_eq_some_iff.mp hrun
        split at hrun
        · rename_i hne
          cases hrun
          exact absurd hret hne
        · rename_i hzero
          exact ⟨self, pgdir, r, hheaders, not_not.mp hzero, hrun⟩

/-- A file with one program header. -/
def oneHeader (va filesz memsz : ℕ) : Program where
  bytes o := UInt8.ofNat ([ELF_MAGIC, 0, 0, 0, 0, 0, 0, 52, 0, 0, 0, 1, 0, ELF_PT_LOAD, 0, va, 0, filesz, memsz,
    6].getD (o / 4) 0 / 256 ^ (o % 4))
  seek _ _ := 0
  read
    | .elf, _ => 52
    | .header _, _ => 32
    | _, _ => filesz
  mm := some 0
  pgdir := some 0
  vmas _ := none
  vma
    | .stack => some 1
    | _ => some 2
  tree _ _ := none
  envs _ _ := Sys.bootEnv

/-- **An accepted program is mapped** where its segments are placed; and **no read or `memset` leaves its page**,
where no range that is accepted wraps. -/
theorem load_icode_covers (x : Program) (argc : Int) (hargc : 0 ≤ argc ∧ argc ≤ EXEC_MAX_ARG_NUM) (s : Sys)
    (hs : s.Paging) (hnew : ∀ pgdir, x.pgdir = some pgdir → ∀ b < USERTOP, s.pte (Sys.ptep pgdir b) = .zero) :
    (x.NoWrap s → ∃ r, x.loadIcode argc none s = some r) ∧
      ∀ r, x.loadIcode argc none s = some r → r.ret = 0 → ∀ n < x.elf.ePhnum, (x.hdr n).pType = ELF_PT_LOAD →
        ((x.hdr n).Covered r.mm ↔ x.Placed (x.hdr n)) := by
  constructor
  · intro h
    unfold loadIcode
    simp only [hargc, and_self, guard, if_true, Option.pure_def, Option.bind_eq_bind, Option.bind_some]
    split
    · exact ⟨_, rfl⟩
    · exact ⟨_, rfl⟩
    · rename_i self pgdir hmm hpgdir
      split
      · exact ⟨_, rfl⟩
      split
      · exact ⟨_, rfl⟩
      have hfit : Fitted pgdir (x.created self s).mm s :=
        ⟨Mm.mmCreate_inv self x.vmas, hs, fun b hb hne => absurd (hnew pgdir hpgdir b hb) hne⟩
      obtain ⟨r, hrun, hr⟩ := h.headers hmm hpgdir hfit (Nat.le_refl _)
      rw [hrun, Option.bind_some]
      split
      · exact ⟨r, rfl⟩
      · rename_i hzero
        exact mapStack_returns (hr (not_not.mp hzero)).inv
  · intro r hrun hret n hn hload
    obtain ⟨self, pgdir, r₀, hheaders, hret₀, hstack⟩ := loadIcode_zero hrun hret
    have hmapped := headers_mapped hheaders hret₀
    exact hmapped.covered_iff (mapStack_areas hmapped.inv hstack hret) hn hload

/-- A segment of 16 bytes, and 16 more that are cleared. -/
theorem load_icode_covers_small : ∃ r, (oneHeader 0x800000 16 32).loadIcode 1 none Sys.boot = some r ∧ r.ret = 0 ∧
    ((oneHeader 0x800000 16 32).hdr 0).Covered r.mm := by
  obtain ⟨hreturns, hcovers⟩ := load_icode_covers (oneHeader 0x800000 16 32) 1 (by decide) Sys.boot
    Sys.boot_init.paging fun _ _ _ _ => rfl
  obtain ⟨r, hrun⟩ := hreturns fun self pgdir _ _ n hn _ _ _ _ _ _ _ => by
    obtain rfl : n = 0 := Nat.lt_one_iff.mp hn
    decide
  have hret : r.ret = 0 := by
    have hmap : ((oneHeader 0x800000 16 32).loadIcode 1 none Sys.boot).map (·.ret) = some 0 := by decide +kernel
    rw [hrun] at hmap
    exact Option.some.inj hmap
  exact ⟨r, hrun, hret, (hcovers r hrun hret 0 (by decide) (by decide)).mpr (.inl (by decide))⟩

/-- A segment without a file part is not mapped; and of one that wraps, the end of the file part is cleared up to an
address below it. -/
theorem segments_not_covered :
    (∃ r, (oneHeader 0x800000 0 4096).loadIcode 1 none Sys.boot = some r ∧ r.ret = 0 ∧
      ((oneHeader 0x800000 0 4096).hdr 0).pType = ELF_PT_LOAD ∧ 0 < ((oneHeader 0x800000 0 4096).hdr 0).pMemsz ∧
      ¬ ((oneHeader 0x800000 0 4096).hdr 0).Covered r.mm) ∧
    (oneHeader 0x800100 16 0xFFFFFF80).loadIcode 1 none Sys.boot = none := by
  constructor
  · have hrun : ((oneHeader 0x800000 0 4096).loadIcode 1 none Sys.boot).map (fun r =>
        (r.ret, r.mm.mmapList, r.mm.vma 1)) = some (0, [1], ⟨some 0, 0xAFF00000, 0xB0000000, 11, 0, 0⟩) := by
      decide +kernel
    obtain ⟨r, hr, heq⟩ := Option.map_eq_some_iff.mp hrun
    simp only [Prod.mk.injEq] at heq
    obtain ⟨hret, hlist, hvma⟩ := heq
    refine ⟨r, hr, hret, by decide, by decide, ?_⟩
    rintro ⟨-, -, y, hy, hlo, -⟩
    obtain ⟨v, hv, rfl⟩ := Mm.mem_areas.mp hy
    rw [hlist, List.mem_singleton] at hv
    rw [hv, hvma] at hlo
    exact absurd hlo (by decide)
  · exact Option.isNone_iff_eq_none.mp (by decide +kernel)

end Program

end Ucore
