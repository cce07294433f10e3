import Mathlib.Logic.Function.Basic

/-!
# Page descriptors (`kern/mm/memlayout.h`)

`struct Page` describes one physical page frame; the array `pages` is indexed by the frame
number `ppn`, so a `struct Page *` is modelled by its index.  The two list links are not fields:
each list of the kernel is kept as the list of the frame numbers on it.
-/

namespace Ucore

/-- The bits of `Page.flags`. -/
structure PageFlags where
  reserved : Bool
  property : Bool
  slab : Bool
  dirty : Bool
  swap : Bool
  active : Bool
  deriving DecidableEq, Repr

/-- `flags = 0`. -/
def PageFlags.zero : PageFlags := ⟨false, false, false, false, false, false⟩

/-- `struct Page`. -/
structure Page where
  ref : Int
  flags : PageFlags
  property : Nat
  zoneNum : Nat
  index : Nat
  deriving DecidableEq, Repr

/-- `SetPageReserved`. -/
def Page.setReserved (p : Page) : Page := { p with flags := { p.flags with reserved := true } }

/-- `SetPageProperty`. -/
def Page.setProperty (p : Page) : Page := { p with flags := { p.flags with property := true } }

/-- `ClearPageProperty`. -/
def Page.clearProperty (p : Page) : Page := { p with flags := { p.flags with property := false } }

end Ucore
