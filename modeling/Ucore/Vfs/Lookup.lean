import Ucore.Lib.Track
import Ucore.Sfs.Path

/-!
# The front of a path

Reference model of `vfslookup.c` over the functions it calls: what stands in front of the first colon or
slash says where the lookup begins.

* `front` — the four kinds of paths;
* `getDevice` — the node to begin with, and the rest of the path;
* `vfsLookup`, `vfsLookupParent` — `vop_lookup` and `vop_lookup_parent` from there.
-/

namespace Ucore.VfsLookup

open Sfs (Name noName SLASH)

/-- `':'`. -/
def COLON : UInt8 := 58

/-- A byte that the scan of `get_device` passes. -/
def plain (c : UInt8) : Bool := c ≠ COLON ∧ c ≠ SLASH

/-- What stands in front of the first colon or slash. -/
def devname (path : Name) : Name := ⟨path.val.takeWhile plain, Sfs.zero_not_mem_takeWhile path _⟩

/-- What follows it, without the slashes there. -/
def subpath (path : Name) : Name :=
  ⟨((path.val.dropWhile plain).drop 1).dropWhile (· = SLASH), fun h => path.property
    ((List.dropWhile_suffix _).subset (List.mem_of_mem_drop ((List.dropWhile_suffix _).subset h)))⟩

/-- The cases of `get_device`. -/
inductive Front where
  /-- The whole path, from the current directory. -/
  | relative
  /-- `device:path`. -/
  | device (devname subpath : Name)
  /-- `/path`. -/
  | boot (subpath : Name)
  /-- `:path`. -/
  | current (subpath : Name)
  deriving DecidableEq

def front (path : Name) : Front :=
  match (path.val.dropWhile plain).head? with
  | none => .relative
  | some c =>
    if c = COLON then
      if devname path = noName then .current (subpath path) else .device (devname path) (subpath path)
    else if devname path = noName then .boot (subpath path) else .relative

/-- What `vfslookup.c` calls, for nodes of type `ν`; the caller holds the nodes that are returned. -/
structure Callees (σ ε ν : Type) where
  /-- `vfs_get_curdir`. -/
  getCurdir : Op σ ε ν
  /-- `vfs_get_root`. -/
  getRoot : Name → Op σ ε ν
  /-- `vfs_get_bootfs`. -/
  getBootfs : Op σ ε ν
  /-- `fsop_get_root(node->in_fs)`. -/
  fsRoot : ν → Op σ ε ν
  /-- `vop_ref_dec`. -/
  refDec : ν → Op σ ε Unit
  /-- `vop_lookup`. -/
  lookup : ν → Name → Op σ ε ν
  /-- `vop_lookup_parent`. -/
  lookupParent : ν → Name → Op σ ε (ν × Name)
  /-- `-E_INVAL`. -/
  inval : ε

variable {σ ε ν : Type} (C : Callees σ ε ν)

/-- `get_device`. -/
def getDevice (path : Name) : Op σ ε (Name × ν) :=
  match front path with
  | .relative => do
    let node ← C.getCurdir
    pure (path, node)
  | .device devname subpath => do
    let node ← C.getRoot devname
    pure (subpath, node)
  | .boot subpath => do
    let node ← C.getBootfs
    pure (subpath, node)
  | .current subpath => do
    let node ← C.getCurdir
    let root ← C.fsRoot node
    C.refDec node
    pure (subpath, root)

/-- `vfs_lookup`. -/
def vfsLookup (path : Name) : Op σ ε ν := do
  let (subpath, node) ← getDevice C path
  if subpath ≠ noName then Op.cleanup (C.lookup node subpath) (C.refDec node) else pure node

/-- `vfs_lookup_parent`. -/
def vfsLookupParent (path : Name) : Op σ ε (ν × Name) := do
  let (subpath, node) ← getDevice C path
  Op.cleanup (if subpath ≠ noName then C.lookupParent node subpath else Op.throw C.inval) (C.refDec node)

end Ucore.VfsLookup
