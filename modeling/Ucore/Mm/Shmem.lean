import Ucore.Mm.Vmm
import Mathlib.Data.Finset.Erase
import Mathlib.Data.Finset.Insert
import Mathlib.Logic.Function.Basic

/-!
# Shared memory

Reference model of the shared mappings of `kern/mm/vmm.c`: `mm_map_shmem`, `mm_unmap`, `dup_mmap` and `mm_destroy`
over any number of address spaces, with the reference counts of `kern/mm/shmem.h`.

The VMAs of different address spaces are kept apart, so an address of a VMA means something only together with
its `mm_struct`.  `copy_range` succeeds or fails as an argument decides.  `origin`, which is not in the code,
has for every address of an address space the object and the offset that `mm_map_shmem` has put there.
-/

namespace Ucore.Shm

/-- `struct shmem_struct`, without its pages. -/
structure Shmem where
  len : ℕ
  ref : ℤ
  deriving DecidableEq, Repr

/-- The live address spaces and shared-memory objects. -/
structure Sys where
  ids : Finset ℕ
  mms : ℕ → Mm
  shmems : ℕ → Option Shmem
  origin : ℕ → ℕ → ℕ × ℕ

/-! ## Reference counts -/

section Ref

variable (shmems : ℕ → Option Shmem)

/-- `shmem_ref_inc`; no result is a call with `NULL` or a destroyed object. -/
def shmemRefInc (o : ℕ) : Option (ℕ → Option Shmem) :=
  (shmems o).map fun x => Function.update shmems o (some { x with ref := x.ref + 1 })

/-- `shmem_ref_dec`. -/
def shmemRefDec (o : ℕ) : Option (ℕ → Option Shmem) :=
  (shmems o).map fun x => Function.update shmems o (some { x with ref := x.ref - 1 })

/-- What `vma_destroy` does with the object of a shared VMA: `shmem_ref_dec` and, if no reference is left,
`shmem_destroy`. -/
def shmemPut (o : ℕ) : Option (ℕ → Option Shmem) :=
  (shmems o).map fun x =>
    Function.update shmems o (if x.ref - 1 = 0 then none else some { x with ref := x.ref - 1 })

end Ref

/-- The calls into shared memory that the VMA operations have made. -/
def putAll : List VmEffect → (ℕ → Option Shmem) → Option (ℕ → Option Shmem)
  | [], shmems => some shmems
  | .unmapRange _ _ :: rest, shmems => putAll rest shmems
  | .shmemRefDec o :: rest, shmems => (shmemPut shmems o).bind (putAll rest)

/-! ## Operations -/

/-- `dup_mmap` between `vma_create` and `insert_vma_struct`: the new VMA gets the object of the old one. -/
def dupShare (x : Vma) (nvma : ℕ) (dst : Mm) (shmems : ℕ → Option Shmem) : Option (Mm × (ℕ → Option Shmem)) :=
  (dst.vmas nvma).bind fun y =>
    if x.vmFlags &&& VM_SHARE ≠ 0 then
      (shmemRefInc shmems x.shmem).map fun shmems =>
        (dst.setVma nvma { y with shmem := x.shmem, shmemOff := x.shmemOff }, shmems)
    else some (dst, shmems)

/-- The loop of `dup_mmap` over the VMAs of `src`, from the last to the first. -/
def dupLoop (src : Mm) (a : ℕ → Option ℕ) (mem : ℕ → Option (RbTree ℕ)) (copyRange : ℕ → Bool) :
    List ℕ → Mm → (ℕ → Option Shmem) → Option (Int × Mm × (ℕ → Option Shmem))
  | [], dst, shmems => some (0, dst, shmems)
  | v :: vs, dst, shmems =>
    (src.vmas v).bind fun x =>
      match dst.vmaCreate (a v) x.vmStart x.vmEnd x.vmFlags with
      | (none, dst) => some (-E_NO_MEM, dst, shmems)
      | (some nvma, dst) =>
        (dupShare x nvma dst shmems).bind fun (dst, shmems) =>
          (dst.insertVmaStruct (mem nvma) nvma).bind fun dst =>
            if copyRange v then dupLoop src a mem copyRange vs dst shmems
            else some (-E_NO_MEM, dst, shmems)

/-- The loop of `mm_destroy`. -/
def destroyLoop : List ℕ → Mm → (ℕ → Option Shmem) → Option (ℕ → Option Shmem)
  | [], _, shmems => some shmems
  | v :: vs, mm, shmems =>
    (mm.vmaDestroy v).bind fun (effects, mm) => (putAll effects shmems).bind (destroyLoop vs mm)

/-- A call, with the outcome of the allocations it may make. -/
inductive Op where
  | shmemCreate (o : ℕ) (len : UInt32)
  | mmCreate (m : ℕ)
  | map (m : ℕ) (addr len vmFlags : UInt32) (a : Option ℕ) (mem : ℕ → Option (RbTree ℕ))
  | mapShmem (m : ℕ) (addr vmFlags : UInt32) (o : ℕ) (a : Option ℕ) (mem : ℕ → Option (RbTree ℕ))
  | unmap (m : ℕ) (addr len : UInt32) (a : Option ℕ) (mem : ℕ → Option (RbTree ℕ))
  | dup (dst src : ℕ) (a : ℕ → Option ℕ) (mem : ℕ → Option (RbTree ℕ)) (copyRange : ℕ → Bool)
  | destroy (m : ℕ)

namespace Sys

variable (s : Sys)

def setMm (m : ℕ) (mm : Mm) : Sys := { s with mms := Function.update s.mms m mm }

/-- `mm_map`. -/
def mmMap (m addr len : ℕ) (vmFlags : UInt32) (a : Option ℕ) (mem : ℕ → Option (RbTree ℕ)) : Option (Int × Sys) :=
  ((s.mms m).mmMap addr len vmFlags a mem).map fun (ret, _, mm) => (ret, s.setMm m mm)

/-- The addresses from `start` to `stop` belong to the object, from its offset 0 on. -/
def setOrigin (m start stop o : ℕ) : ℕ → ℕ → ℕ × ℕ :=
  Function.update s.origin m fun addr => if start ≤ addr ∧ addr < stop then (o, addr - start) else s.origin m addr

/-- `mm_map_shmem`; `*vma_store` is left out. -/
def mmMapShmem (m addr : ℕ) (vmFlags : UInt32) (o : ℕ) (a : Option ℕ) (mem : ℕ → Option (RbTree ℕ)) :
    Option (Int × Sys) :=
  if addr % PGSIZE ≠ 0 ∨ o = 0 then some (-E_INVAL, s)
  else
    (shmemRefInc s.shmems o).bind fun shmems =>
      (shmems o).bind fun shmem =>
        ((s.mms m).mmMap addr shmem.len vmFlags a mem).bind fun (ret, vma, mm) =>
          if ret ≠ 0 then (shmemRefDec shmems o).map fun shmems => (ret, { s.setMm m mm with shmems := shmems })
          else
            vma.bind fun v => (mm.vmas v).map fun x =>
              (0,
                { s with
                  mms := Function.update s.mms m
                    (mm.setVma v { x with shmem := o, shmemOff := 0, vmFlags := x.vmFlags ||| VM_SHARE })
                  shmems := shmems
                  origin := s.setOrigin m x.vmStart x.vmEnd o })

/-- `mm_unmap`. -/
def mmUnmap (m addr len : ℕ) (a : Option ℕ) (mem : ℕ → Option (RbTree ℕ)) : Option (Int × Sys) :=
  ((s.mms m).mmUnmap addr len a mem).bind fun (ret, effects, mm) =>
    (putAll effects s.shmems).map fun shmems => (ret, { s.setMm m mm with shmems := shmems })

/-- `dup_mmap`. -/
def dupMmap (dst src : ℕ) (a : ℕ → Option ℕ) (mem : ℕ → Option (RbTree ℕ)) (copyRange : ℕ → Bool) :
    Option (Int × Sys) :=
  (dupLoop (s.mms src) a mem copyRange (s.mms src).mmapList.reverse (s.mms dst) s.shmems).map
    fun (ret, mm, shmems) =>
      (ret, { s.setMm dst mm with shmems := shmems, origin := Function.update s.origin dst (s.origin src) })

/-- `mm_destroy`. -/
def mmDestroy (m : ℕ) : Option Sys :=
  (destroyLoop (s.mms m).mmapList (s.mms m) s.shmems).map fun shmems =>
    { s with ids := s.ids.erase m, shmems := shmems }

/-- One call; no result is a failed assertion, or the use of `NULL` or of a destroyed object. -/
def step : Op → Option Sys
  | .shmemCreate o len => some { s with shmems := Function.update s.shmems o (some ⟨len.toNat, 0⟩) }
  | .mmCreate m => some { s.setMm m (Mm.mmCreate m fun _ => none) with ids := insert m s.ids }
  | .map m addr len vmFlags a mem => (s.mmMap m addr.toNat len.toNat vmFlags a mem).map (·.2)
  | .mapShmem m addr vmFlags o a mem => (s.mmMapShmem m addr.toNat vmFlags o a mem).map (·.2)
  | .unmap m addr len a mem => (s.mmUnmap m addr.toNat len.toNat a mem).map (·.2)
  | .dup dst src a mem copyRange => (s.dupMmap dst src a mem copyRange).map (·.2)
  | .destroy m => s.mmDestroy m

/-- The call is made with what it may be made with: `kmalloc` returns an address that is free and not `NULL`, pointers
are to live objects, and `dup_mmap` is made into a fresh `mm_struct`. -/
def Enabled : Op → Prop
  | .shmemCreate o _ => o ≠ 0 ∧ s.shmems o = none
  | .mmCreate m => m ∉ s.ids
  | .map m _ _ _ _ _ | .unmap m _ _ _ _ | .destroy m => m ∈ s.ids
  | .mapShmem m _ _ o _ _ => m ∈ s.ids ∧ (o = 0 ∨ s.shmems o ≠ none)
  | .dup dst src _ _ _ => dst ∈ s.ids ∧ src ∈ s.ids ∧ dst ≠ src ∧ (s.mms dst).mmapList = []

end Sys

/-- Nothing is mapped. -/
def boot : Sys := ⟨∅, fun m => Mm.mmCreate m fun _ => none, fun _ => none, fun _ _ => (0, 0)⟩

end Ucore.Shm
