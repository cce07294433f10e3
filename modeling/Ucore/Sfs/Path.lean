import Ucore.Sfs.Fs

/-!
# Paths

Reference model of `sfs_lookup_subpath`, `sfs_lookup` and `sfs_lookup_parent` (`sfs_inode.c`).  The
slashes after a component are overwritten with zeros, so that the component is a C string of its own.

* `lookupSubpath` — a component, and what follows it;
* `sfsLookup`, `sfsLookupParent` — the two loops over a path;
* `components` — what lies between the slashes.
-/

namespace Ucore.Sfs

/-- `'/'`. -/
def SLASH : UInt8 := 47

theorem zero_not_mem_takeWhile (path : Name) (p : UInt8 → Bool) : (0 : UInt8) ∉ path.val.takeWhile p :=
  fun h => path.property ((List.takeWhile_prefix p).subset h)

theorem zero_not_mem_dropWhile (path : Name) (p q : UInt8 → Bool) :
    (0 : UInt8) ∉ (path.val.dropWhile p).dropWhile q :=
  fun h => path.property ((List.dropWhile_suffix p).subset ((List.dropWhile_suffix q).subset h))

/-- The component that `sfs_lookup_subpath` leaves at `path`. -/
def pathComp (path : Name) : Name := ⟨path.val.takeWhile (· ≠ SLASH), zero_not_mem_takeWhile path _⟩

/-- From the first slash on, without the slashes there. -/
def pathRest (path : Name) : Name :=
  ⟨(path.val.dropWhile (· ≠ SLASH)).dropWhile (· = SLASH), zero_not_mem_dropWhile path _ _⟩

/-- What `sfs_lookup_subpath` returns. -/
def lookupSubpath (path : Name) : Option Name := if pathRest path = noName then none else some (pathRest path)

theorem dropWhile_head {l l' : List UInt8} {c : UInt8} (h : l.dropWhile (· ≠ SLASH) = c :: l') : c = SLASH := by
  have hhead := List.head_dropWhile_not (p := (· ≠ SLASH)) (l := l) (by rw [h]; nofun)
  simp only [h, List.head_cons] at hhead
  simpa using hhead

theorem pathRest_lt {path : Name} (h : pathRest path ≠ noName) : strlen (pathRest path) < strlen path := by
  have hne : (pathRest path).val ≠ [] := fun he => h (Subtype.ext he)
  have hle : ((path.val.dropWhile (· ≠ SLASH)).dropWhile (· = SLASH)).length ≤
      (path.val.dropWhile (· ≠ SLASH)).length := (List.dropWhile_suffix _).length_le
  have hle' : (path.val.dropWhile (· ≠ SLASH)).length ≤ path.val.length := (List.dropWhile_suffix _).length_le
  unfold strlen
  cases hd : path.val.dropWhile (· ≠ SLASH) with
  | nil =>
    refine absurd ?_ hne
    show (path.val.dropWhile (· ≠ SLASH)).dropWhile (· = SLASH) = []
    rw [hd]
    rfl
  | cons c l =>
    have hc : c = SLASH := dropWhile_head hd
    have hdrop : (pathRest path).val = l.dropWhile (· = SLASH) := by
      show (path.val.dropWhile (· ≠ SLASH)).dropWhile (· = SLASH) = _
      rw [hd, List.dropWhile_cons, if_pos (by simpa using hc)]
    have hlen : (l.dropWhile (· = SLASH)).length ≤ l.length := (List.dropWhile_suffix _).length_le
    rw [hd, List.length_cons] at hle'
    rw [hdrop]
    omega

theorem lookupSubpath_lt {path rest : Name} (h : lookupSubpath path = some rest) : strlen rest < strlen path := by
  unfold lookupSubpath at h
  split at h
  · cases h
  · rename_i hne
    cases h
    exact pathRest_lt hne

/-- `vop_ref_inc`. -/
def refInc (ino : ℕ) : Op Fs Err Unit := do
  let s ← sinOf ino
  setSin ino { s with ref := s.ref + 1 }

/-- The check at the head of both loops. -/
def checkDir (node : ℕ) : Op Fs Err Unit := do
  let s ← sinOf node
  if s.din.type ≠ SFS_TYPE_DIR then
    refDec node
    Op.throw .notDir

/-- The node of a component other than `.`, for which the reference to `node` is given up. -/
def lookupComp (node : ℕ) (comp : Name) : Op Fs Err ℕ := do
  let r ← Op.attempt
    (if comp = DOTDOT then loadParent node
    else if SFS_MAX_FNAME_LEN < strlen comp then Op.throw .tooBig
    else lookupOnce node comp)
  refDec node
  match r with
  | .ok subnode => pure subnode
  | .error e => Op.throw e

/-- The loop of `sfs_lookup` from `next` on. -/
def lookupNext (node : ℕ) (path : Name) : Op Fs Err ℕ :=
  match h : lookupSubpath path with
  | none => if pathComp path = DOT then pure node else lookupComp node (pathComp path)
  | some subpath =>
    if pathComp path = DOT then lookupNext node subpath
    else do
      let subnode ← lookupComp node (pathComp path)
      checkDir subnode
      lookupNext subnode subpath
termination_by strlen path
decreasing_by all_goals exact lookupSubpath_lt h

/-- `sfs_lookup`: the caller holds the node that is returned. -/
def sfsLookup (node : ℕ) (path : Name) : Op Fs Err ℕ := do
  Op.assert (path ≠ noName ∧ path.val.head? ≠ some SLASH)
  refInc node
  checkDir node
  lookupNext node path

/-- The loop of `sfs_lookup_parent` from `next` on. -/
def lookupParentNext (node : ℕ) (path : Name) : Op Fs Err (ℕ × Name) :=
  match h : lookupSubpath path with
  | none => pure (node, pathComp path)
  | some subpath =>
    if pathComp path = DOT then lookupParentNext node subpath
    else do
      let subnode ← lookupComp node (pathComp path)
      checkDir subnode
      lookupParentNext subnode subpath
termination_by strlen path
decreasing_by all_goals exact lookupSubpath_lt h

/-- `sfs_lookup_parent`: the caller holds the node that is returned; the name is `*endp`. -/
def sfsLookupParent (node : ℕ) (path : Name) : Op Fs Err (ℕ × Name) := do
  Op.assert (path ≠ noName ∧ path.val.head? ≠ some SLASH)
  refInc node
  checkDir node
  lookupParentNext node path

/-- `sfs_lookup_once` in the directory that `sfs_lookup_parent` has found, and its `vop_ref_dec`. -/
def lookupLast (dir : ℕ) (name : Name) : Op Fs Err ℕ := do
  let r ← Op.attempt (lookupOnce dir name)
  refDec dir
  match r with
  | .ok node => pure node
  | .error e => Op.throw e

/-! ## Components -/

/-- What lies between the slashes of a path. -/
def components (path : Name) : List (List UInt8) := (path.val.splitOn SLASH).filter (· ≠ [])

theorem components_noName : components noName = [] := rfl

theorem splitOn_slash (l : List UInt8) : (SLASH :: l).splitOn SLASH = [] :: l.splitOn SLASH := by
  simpa using List.splitOn_append_cons_self (a := SLASH) [] l

/-- The slashes before a component do not matter. -/
theorem filter_splitOn_dropWhile (l : List UInt8) :
    ((l.dropWhile (· = SLASH)).splitOn SLASH).filter (· ≠ []) = (l.splitOn SLASH).filter (· ≠ []) := by
  induction l with
  | nil => rfl
  | cons c l ih =>
    by_cases hc : c = SLASH
    · subst hc
      rw [List.dropWhile_cons, if_pos (by simp), ih, splitOn_slash]
      simp
    · rw [List.dropWhile_cons, if_neg (by simpa using hc)]

/-- The first component, and the others. -/
theorem filter_splitOn {l : List UInt8} (hne : l.takeWhile (· ≠ SLASH) ≠ []) :
    (l.splitOn SLASH).filter (· ≠ []) = l.takeWhile (· ≠ SLASH) ::
      ((l.dropWhile (· ≠ SLASH)).splitOn SLASH).filter (· ≠ []) := by
  have hnot : SLASH ∉ l.takeWhile (· ≠ SLASH) := fun h => by
    have hall := List.all_eq_true.mp (List.all_takeWhile (p := (· ≠ SLASH)) (l := l)) SLASH h
    simp at hall
  have hl : l.takeWhile (· ≠ SLASH) ++ l.dropWhile (· ≠ SLASH) = l := List.takeWhile_append_dropWhile
  cases hd : l.dropWhile (· ≠ SLASH) with
  | nil =>
    rw [hd, List.append_nil] at hl
    rw [hl] at hnot hne ⊢
    rw [List.splitOn_eq_singleton hnot]
    simp [hne]
  | cons c l' =>
    obtain rfl := dropWhile_head hd
    rw [hd] at hl
    generalize l.takeWhile (· ≠ SLASH) = comp at hl hnot hne
    rw [← hl, List.splitOn_append_cons_self_of_not_mem hnot, splitOn_slash]
    simp [hne]

/-- `sfs_lookup_subpath` takes the first component off. -/
theorem components_eq {path : Name} (hne : path ≠ noName) (hhead : path.val.head? ≠ some SLASH) :
    components path = (pathComp path).val :: components (pathRest path) := by
  have hcomp : path.val.takeWhile (· ≠ SLASH) ≠ [] := by
    cases hp : path.val with
    | nil => exact absurd (Subtype.ext hp) hne
    | cons c l =>
      rw [hp] at hhead
      have hc : c ≠ SLASH := fun he => hhead (by rw [he]; rfl)
      rw [List.takeWhile_cons, if_pos (by simpa using hc)]
      nofun
  unfold components
  rw [filter_splitOn hcomp]
  exact congrArg (_ :: ·) (filter_splitOn_dropWhile _).symm

end Ucore.Sfs
