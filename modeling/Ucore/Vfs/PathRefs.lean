import Mathlib.Algebra.Group.Pi.Lemmas
import Mathlib.Algebra.Group.Prod
import Mathlib.Algebra.Notation.Pi.Basic
import Mathlib.Tactic.Abel
import Ucore.Vfs.PathOps

/-!
# Path operations balance their references

* `books` — the counters of every inode, and the current directory;
* `refDec_track`, `loadInode_track`, … — what each function adds to them;
* `path_references` — what the operations on paths add.
-/

namespace Ucore.PathOps

open Op (Track)
open Sfs (Name noName DOT DOTDOT strlen pathComp lookupSubpath SFS_MAX_FNAME_LEN)

variable {ν σ : Type} [DecidableEq ν]

/-! ## The books -/

/-- `ref_count` and `open_count`; both are 0 where there is no inode. -/
def tally : Option Inode → ℤ × ℤ
  | none => 0
  | some i => (i.refCount, i.openCount)

/-- The counters of every inode. -/
def counts (s : State ν σ) (node : ν) : ℤ × ℤ := tally (s.inodes node)

/-- One reference to `node`. -/
def oneRef (node : ν) : ν → ℤ × ℤ := Pi.single node (1, 0)

/-- `node` is open once more. -/
def oneOpen (node : ν) : ν → ℤ × ℤ := Pi.single node (0, 1)

/-- The counters, and the current directory. -/
def books (s : State ν σ) : (ν → ℤ × ℤ) × Option ν := (counts s, s.pwd)

section Counters

variable {L : Below ν σ} {s : State ν σ} {node : ν} {i : Inode} {A : (ν → ℤ × ℤ) × Option ν}
  {c : ν → ℤ × ℤ} {p : Option ν}

omit [DecidableEq ν] in
theorem counts_eq {inodes : ν → Option Inode} {m : ν} :
    counts { s with inodes := inodes } m = tally (inodes m) := rfl

/-- An inode changes. -/
theorem counts_update {d : ℤ × ℤ} {j : Option Inode} (hi : tally j = tally (s.inodes node) + d) :
    counts { s with inodes := Function.update s.inodes node j } = counts s + Pi.single node d := by
  funext m
  rw [counts_eq, Pi.add_apply]
  by_cases hm : m = node
  · subst hm
    rw [Function.update_self, Pi.single_eq_same, hi]
    rfl
  · rw [Function.update_of_ne hm, Pi.single_eq_of_ne hm, add_zero]
    rfl

/-- What changes an inode other than in its counters. -/
theorem books_update {j : Option Inode} (hj : tally j = tally (s.inodes node)) :
    books { s with inodes := Function.update s.inodes node j } = books s := by
  refine Prod.ext ?_ rfl
  have h : counts { s with inodes := Function.update s.inodes node j } = counts s + Pi.single node 0 :=
    counts_update (by rw [hj, add_zero])
  rw [Pi.single_zero, add_zero] at h
  exact h

/-- One count less. -/
theorem books_sub {d : ℤ × ℤ} {j : Option Inode} (hj : tally j = tally (s.inodes node) - d) :
    books { s with inodes := Function.update s.inodes node j } = (counts s - Pi.single node d, s.pwd) := by
  refine Prod.ext ?_ rfl
  have h : counts { s with inodes := Function.update s.inodes node j } = counts s + Pi.single node (-d) :=
    counts_update (by rw [hj, sub_eq_add_neg])
  rw [Pi.single_neg, ← sub_eq_add_neg] at h
  exact h

omit [DecidableEq ν] in
theorem wpx_inode {α : Type} {f : Inode → Act ν σ α} {R : Except Errno α → State ν σ → Prop}
    (h : ∀ i, s.inodes node = some i → Op.wpx True (f i) R s) : Op.wpx True (inode node >>= f) R s := by
  cases hi : s.inodes node with
  | none =>
    have hnone : inode node s = none := by
      unfold inode
      rw [hi]
      rfl
    exact Op.wpx_of_none (Op.bind_of_none hnone) trivial
  | some i =>
    have hsome : inode node s = some (.ok i, s) := by
      unfold inode
      rw [hi]
      rfl
    exact Op.wpx_bind_of_ok hsome (h i hi)

omit [DecidableEq ν] in
theorem wpx_assert {α : Type} {q : Prop} [Decidable q] {f : Unit → Act ν σ α}
    {R : Except Errno α → State ν σ → Prop} (h : q → Op.wpx True (f ()) R s) :
    Op.wpx True (Op.assert q >>= f) R s := by
  by_cases hq : q
  · exact Op.wpx_bind_assert hq (h hq)
  · exact Op.wpx_of_none (Op.bind_of_none (if_neg hq)) trivial

theorem wpx_setInode {α : Type} {j : Option Inode} {f : Unit → Act ν σ α}
    {R : Except Errno α → State ν σ → Prop}
    (h : Op.wpx True (f ()) R { s with inodes := Function.update s.inodes node j }) :
    Op.wpx True (setInode node j >>= f) R s := Op.wpx_bind_of_ok rfl h

omit [DecidableEq ν] in
/-- The functions below leave the books alone. -/
theorem call_track {α : Type} (f : Low ν σ α) {l : (ν → ℤ × ℤ) × Option ν} :
    Track books A (call f) (fun _ => A) l := by
  intro s hs
  cases hf : f s with
  | none =>
    refine Op.wpx_of_none ?_ trivial
    unfold call
    rw [hf]
    rfl
  | some r =>
    have hcall : call f s = some (.ok r.1, { s with rest := r.2 }) := by
      unfold call
      rw [hf]
      rfl
    exact Op.wpx_of_eq hcall hs

omit [DecidableEq ν] in
theorem check_track {α : Type} (f : Low ν σ (Except Errno α)) : Track books A (check f) (fun _ => A) A := by
  unfold check
  refine .bind (call_track f) fun r => ?_
  cases r with
  | ok a => exact .pure rfl
  | error e => exact .throw rfl

omit [DecidableEq ν] in
theorem inode_track {l : (ν → ℤ × ℤ) × Option ν} :
    Track books A (inode node : Act ν σ Inode) (fun _ => A) l := by
  intro s hs
  cases hi : s.inodes node with
  | none =>
    refine Op.wpx_of_none ?_ trivial
    unfold inode
    rw [hi]
    rfl
  | some i =>
    have hsome : inode node s = some (.ok i, s) := by
      unfold inode
      rw [hi]
      rfl
    exact Op.wpx_of_eq hsome hs

omit [DecidableEq ν] in
theorem inodeCheck_track {l : (ν → ℤ × ℤ) × Option ν} :
    Track books A (inodeCheck node : Act ν σ Inode) (fun _ => A) l := by
  unfold inodeCheck
  exact .bind inode_track fun _ => .bind (.assert rfl) fun _ => .bind (.assert rfl) fun _ => .pure rfl

theorem refInc_track {l : (ν → ℤ × ℤ) × Option ν} :
    Track books (c, p) (refInc node : Act ν σ ℕ) (fun _ => (c + oneRef node, p)) l := by
  intro s hs
  cases hs
  unfold refInc
  refine wpx_inode fun i hi => wpx_setInode (Op.wpx_of_eq rfl (Prod.ext (counts_update ?_) rfl))
  rw [hi]
  simp [tally]

theorem openInc_track {l : (ν → ℤ × ℤ) × Option ν} :
    Track books (c, p) (openInc node : Act ν σ Unit) (fun _ => (c + oneOpen node, p)) l := by
  intro s hs
  cases hs
  unfold openInc
  refine wpx_inode fun i hi => Op.wpx_of_eq rfl (Prod.ext (counts_update ?_) rfl)
  rw [hi]
  simp [tally]

theorem inodeKill_track {l : (ν → ℤ × ℤ) × Option ν} :
    Track books A (inodeKill node : Act ν σ Unit) (fun _ => A) l := by
  intro s hs
  cases hs
  unfold inodeKill
  refine wpx_inode fun i hi => wpx_assert fun href => wpx_assert fun hopen => Op.wpx_of_eq rfl ?_
  refine books_update ?_
  rw [hi]
  simp only [tally, href, hopen]
  rfl

theorem sfsReclaim_track : Track books A (sfsReclaim L node) (fun _ => A) A := by
  intro s hs
  unfold sfsReclaim
  refine wpx_inode fun i hi => wpx_assert fun _ => wpx_setInode ?_
  have hbooks : books { s with
      inodes := Function.update s.inodes node (some { i with reclaimCount := i.reclaimCount - 1 }) } = A :=
    (books_update (by rw [hi]; rfl)).trans hs
  split
  · exact Track.throw rfl _ hbooks
  · exact Track.bind (.assert rfl) (fun _ => .bind (check_track _) fun _ => .bind (call_track _)
      fun _ => inodeKill_track) _ hbooks

theorem vopReclaim_track : Track books A (vopReclaim L node) (fun _ => A) A := by
  unfold vopReclaim
  exact .bind inodeCheck_track fun _ => .ite (.pure rfl) sfsReclaim_track

omit [DecidableEq ν] in
theorem vopClose_track : Track books A (vopClose L node) (fun _ => A) A := by
  unfold vopClose
  exact .bind inodeCheck_track fun _ => check_track _

omit [DecidableEq ν] in
/-- What the last count sets off, if it was the last one. -/
theorem last_track {x : Act ν σ Unit} {q : Prop} [Decidable q] {l : (ν → ℤ × ℤ) × Option ν}
    (hx : Track books A x (fun _ => A) A) :
    Track books A (if q then (do let _ ← Op.attempt x; pure ()) else pure ()) (fun _ => A) l := by
  refine .ite (.bind (.attempt hx) fun r => .pure ?_) (.pure rfl)
  cases r <;> rfl

/-- A reference is dropped, whatever becomes of the inode. -/
theorem refDec_track {l : (ν → ℤ × ℤ) × Option ν} :
    Track books (c, p) (refDec L node) (fun _ => (c - oneRef node, p)) l := by
  intro s hs
  cases hs
  unfold refDec
  refine wpx_inode fun i hi => wpx_assert fun hpos => wpx_setInode (last_track vopReclaim_track _ ?_)
  refine books_sub ?_
  rw [hi]
  simp [tally, Nat.cast_sub (Nat.one_le_of_lt hpos)]

theorem openDec_track {l : (ν → ℤ × ℤ) × Option ν} :
    Track books (c, p) (openDec L node) (fun _ => (c - oneOpen node, p)) l := by
  intro s hs
  cases hs
  unfold openDec
  refine wpx_inode fun i hi => wpx_assert fun hpos => wpx_setInode (last_track vopClose_track _ ?_)
  refine books_sub ?_
  rw [hi]
  simp [tally, Nat.cast_sub (Nat.one_le_of_lt hpos)]

end Counters

/-! ## Inodes that are loaded and made -/

section Load

variable {L : Below ν σ} {fs ino type : ℕ} {node : ν} {c : ν → ℤ × ℤ} {p : Option ν}

theorem lookupSfs_track {l : (ν → ℤ × ℤ) × Option ν} : Track books (c, p) (lookupSfs L fs ino)
    (fun r => match r with
      | none => (c, p)
      | some node => (c + oneRef node, p)) l := by
  unfold lookupSfs
  refine .bind (g := fun _ => (c, p)) (.gets fun _ => rfl) fun r => ?_
  cases r with
  | none => exact .pure rfl
  | some node =>
    refine .bind refInc_track fun n => ?_
    split
    · intro s hs
      refine wpx_inode fun i hi => wpx_setInode (Op.wpx_of_eq rfl ?_)
      exact (books_update (by rw [hi]; rfl)).trans hs
    · exact .pure rfl

theorem inodeInit_track {ops : Ops} {l : (ν → ℤ × ℤ) × Option ν} :
    Track books (c, p) (inodeInit node ops fs : Act ν σ Unit) (fun _ => (c + oneRef node, p)) l := by
  intro s hs
  have hinc : Track books (c, p) (refInc node >>= fun _ => (pure () : Act ν σ Unit))
      (fun _ => (c + oneRef node, p)) l := .bind refInc_track fun _ => .pure rfl
  refine Op.wpx_bind_of_ok (rfl : Op.gets _ s = some (.ok (s.inodes node), s)) (wpx_assert fun hnone =>
    wpx_setInode (hinc _ ?_))
  have hnone : s.inodes node = none := Option.isNone_iff_eq_none.mp hnone
  exact (books_update (by rw [hnone]; rfl)).trans hs

theorem createInode_track : Track books (c, p) (createInode L fs type ino)
    (fun node => (c + oneRef node, p)) (c, p) := by
  unfold createInode
  refine .bind (call_track _) fun r => ?_
  cases r with
  | none => exact .throw rfl
  | some node =>
    refine .bind (g := fun _ => (c, p)) ?_ fun ops => .bind inodeInit_track fun _ => .bind (call_track _)
      fun _ => .pure rfl
    exact .bind (.assert rfl) fun _ => .pure rfl

theorem loadInode_track : Track books (c, p) (loadInode L fs ino) (fun node => (c + oneRef node, p)) (c, p) := by
  unfold loadInode
  refine .bind lookupSfs_track fun r => ?_
  cases r with
  | some node => exact .pure rfl
  | none =>
    refine .bind (call_track _) fun b => .ite ?_ (.throw rfl)
    exact .bind (check_track _) fun type => .bind createInode_track fun node => .bind (call_track _)
      fun _ => .pure rfl

theorem direntCreateInode_track : Track books (c, p) (direntCreateInode L fs type)
    (fun node => (c + oneRef node, p)) (c, p) := by
  unfold direntCreateInode
  refine .bind (call_track _) fun b => .ite (.bind (check_track _) fun ino => ?_) (.throw rfl)
  refine .bind (.attempt createInode_track) fun r => ?_
  cases r with
  | ok node => exact .bind (call_track _) fun _ => .pure rfl
  | error e => exact .bind (call_track _) fun _ => .throw rfl

end Load

/-! ## The operations of a directory -/

section Dir

variable {L : Below ν σ} {fs slot slot' : ℕ} {node link newNode : ν} {name newName comp path : Name}
  {c : ν → ℤ × ℤ} {p : Option ν} {A : (ν → ℤ × ℤ) × Option ν}

omit [DecidableEq ν] in
theorem fsOf_track {l : (ν → ℤ × ℤ) × Option ν} : Track books A (fsOf node : Act ν σ ℕ) (fun _ => A) l := by
  intro s hs
  cases hfs : (s.inodes node).bind Inode.inFs with
  | none =>
    refine Op.wpx_of_none ?_ trivial
    unfold fsOf
    rw [hfs]
    rfl
  | some fs =>
    have hsome : fsOf node s = some (.ok fs, s) := by
      unfold fsOf
      rw [hfs]
      rfl
    exact Op.wpx_of_eq hsome hs

theorem lookupOnce_track : Track books (c, p) (lookupOnce L fs node name) (fun n => (c + oneRef n, p)) (c, p) := by
  unfold lookupOnce
  refine .bind (check_track _) fun _ => .bind (call_track _) fun r => ?_
  cases r.ret with
  | some e => exact .throw rfl
  | none => exact loadInode_track

theorem loadParent_track : Track books (c, p) (loadParent L fs node) (fun n => (c + oneRef n, p)) (c, p) := by
  unfold loadParent
  exact .bind (g := fun _ => (c, p)) (.gets fun _ => rfl) fun _ => loadInode_track

/-- A reference to `node` is exchanged for what `x` finds. -/
theorem release_track {α : Type} {x : Act ν σ α} {g : α → ν → ℤ × ℤ}
    (hx : ∀ c, Track books (c, p) x (fun a => (c + g a, p)) (c, p)) :
    Track books (c + oneRef node, p) (Op.cleanup x (refDec L node)) (fun a => (c + g a, p)) (c, p) := by
  refine .cleanup (hx _) (fun a => ?_) ?_
  · exact refDec_track.conv (fun _ => Prod.ext (by dsimp only; abel) rfl) rfl
  · exact refDec_track.conv (fun _ => Prod.ext (by dsimp only; abel) rfl) rfl

/-- A reference to `node` is given up, and `x` leaves the books alone. -/
theorem release_quiet {α : Type} {x : Act ν σ α} (hx : ∀ A, Track books A x (fun _ => A) A) :
    Track books (c + oneRef node, p) (Op.cleanup x (refDec L node)) (fun _ => (c, p)) (c, p) := by
  refine .cleanup (hx _) (fun a => ?_) ?_
  · exact refDec_track.conv (fun _ => Prod.ext (add_sub_cancel_right ..) rfl) rfl
  · exact refDec_track.conv (fun _ => Prod.ext (add_sub_cancel_right ..) rfl) rfl

theorem lookupComp_track : Track books (c + oneRef node, p) (lookupComp L fs node comp)
    (fun n => (c + oneRef n, p)) (c, p) := by
  unfold lookupComp
  exact release_track fun c => .ite loadParent_track (.ite (.throw rfl) lookupOnce_track)

theorem checkDir_track : Track books (c + oneRef node, p) (checkDir L node)
    (fun _ => (c + oneRef node, p)) (c, p) := by
  unfold checkDir
  refine .bind (g := fun _ => (c + oneRef node, p)) (.gets fun _ => rfl) fun type => ?_
  split
  · refine .bind (g := fun _ => (c, p)) ?_ fun _ => .throw rfl
    exact refDec_track.conv (fun _ => Prod.ext (add_sub_cancel_right ..) rfl) rfl
  · exact .pure rfl

/-- The loop of `sfs_lookup`: one reference is held at any time. -/
theorem lookupNext_track : Track books (c + oneRef node, p) (lookupNext L fs node path)
    (fun n => (c + oneRef n, p)) (c, p) := by
  fun_induction lookupNext L fs node path with
  | case1 => exact .pure rfl
  | case2 => exact lookupComp_track
  | case3 node path subpath hsub hdot ih => exact ih
  | case4 node path subpath hsub hdot ih =>
    exact .bind lookupComp_track fun subnode => .bind checkDir_track fun _ => ih subnode

theorem lookupParentNext_track : Track books (c + oneRef node, p) (lookupParentNext L fs node path)
    (fun r => (c + oneRef r.1, p)) (c, p) := by
  fun_induction lookupParentNext L fs node path with
  | case1 => exact .pure rfl
  | case2 node path subpath hsub hdot ih => exact ih
  | case3 node path subpath hsub hdot ih =>
    exact .bind lookupComp_track fun subnode => .bind checkDir_track fun _ => ih subnode

theorem sfsLookup_track : Track books (c, p) (sfsLookup L node path) (fun n => (c + oneRef n, p)) (c, p) := by
  unfold sfsLookup
  exact .bind fsOf_track fun fs => .bind (.assert rfl) fun _ => .bind refInc_track fun _ =>
    .bind checkDir_track fun _ => lookupNext_track

theorem sfsLookupParent_track : Track books (c, p) (sfsLookupParent L node path)
    (fun r => (c + oneRef r.1, p)) (c, p) := by
  unfold sfsLookupParent
  exact .bind fsOf_track fun fs => .bind (.assert rfl) fun _ => .bind refInc_track fun _ =>
    .bind checkDir_track fun _ => lookupParentNext_track

omit [DecidableEq ν] in
theorem checkName_track {dots : Errno} : Track books A (checkName name dots : Act ν σ Unit) (fun _ => A) A := by
  unfold checkName
  exact .ite (.throw rfl) (.ite (.throw rfl) (.pure rfl))

/-- A node that was found is dropped with an error. -/
theorem drop_throw {α : Type} {e : Errno} {g : α → (ν → ℤ × ℤ) × Option ν} :
    Track books (c + oneRef node, p) (refDec L node >>= fun _ => (Op.throw e : Act ν σ α)) g (c, p) := by
  refine .bind (g := fun _ => (c, p)) ?_ fun _ => .throw rfl
  exact refDec_track.conv (fun _ => Prod.ext (add_sub_cancel_right ..) rfl) rfl

theorem createNolock_track {excl : Bool} : Track books (c, p) (createNolock L fs node name excl)
    (fun n => (c + oneRef n, p)) (c, p) := by
  unfold createNolock
  refine .bind (call_track _) fun r => .ite ?_ ?_
  · cases r.ret with
    | some e => exact .throw rfl
    | none =>
      refine .ite (.throw rfl) (.bind loadInode_track fun link => ?_)
      exact .bind (g := fun _ => (c + oneRef link, p)) (.gets fun _ => rfl) fun type =>
        .ite (.pure rfl) drop_throw
  · refine .bind direntCreateInode_track fun link => .bind (.attempt (check_track _)) fun r => ?_
    cases r with
    | ok _ => exact .pure rfl
    | error e => exact drop_throw

theorem sfsCreate_track {excl : Bool} : Track books (c, p) (sfsCreate L node name excl)
    (fun n => (c + oneRef n, p)) (c, p) := by
  unfold sfsCreate
  exact .bind checkName_track fun _ => .bind fsOf_track fun fs => .bind (check_track _) fun _ =>
    createNolock_track

omit [DecidableEq ν] in
theorem linkDir_track : Track books A (linkDir L node link slot name) (fun _ => A) A := by
  unfold linkDir
  refine .bind (.attempt (check_track _)) fun r => ?_
  cases r with
  | error e =>
    exact .bind (g := fun _ => A) (.gets fun _ => rfl) fun _ => .bind (.assert rfl) fun _ =>
      .bind inode_track fun _ => .bind (.assert rfl) fun _ => .throw rfl
  | ok _ => exact .bind (call_track _) fun _ => .bind (call_track _) fun _ => call_track _

theorem mkdirNolock_track : Track books (c, p) (mkdirNolock L fs node name) (fun _ => (c, p)) (c, p) := by
  unfold mkdirNolock
  refine .bind (call_track _) fun r => .ite (.throw rfl) (.bind direntCreateInode_track fun link => ?_)
  exact release_quiet fun A => linkDir_track

theorem sfsMkdir_track : Track books (c, p) (sfsMkdir L node name) (fun _ => (c, p)) (c, p) := by
  unfold sfsMkdir
  exact .bind checkName_track fun _ => .bind fsOf_track fun fs => .bind (check_track _) fun _ =>
    mkdirNolock_track

omit [DecidableEq ν] in
theorem linkNolock_track : Track books A (linkNolock L node link name) (fun _ => A) A := by
  unfold linkNolock
  exact .bind (call_track _) fun r => .ite (.throw rfl) (check_track _)

omit [DecidableEq ν] in
theorem sfsLink_track : Track books A (sfsLink L node name link) (fun _ => A) A := by
  unfold sfsLink
  exact .bind checkName_track fun _ => .bind (g := fun _ => A) (.gets fun _ => rfl) fun type =>
    .ite (.throw rfl) (.bind (check_track _) fun _ => linkNolock_track)

omit [DecidableEq ν] in
theorem unlinkDir_track : Track books A (unlinkDir L node link slot) (fun _ => A) A := by
  unfold unlinkDir
  refine .bind (check_track _) fun _ => .bind (g := fun _ => A) (.gets fun _ => rfl) fun n =>
    .ite (.throw rfl) ?_
  exact .bind (check_track _) fun _ => .bind (call_track _) fun _ => .bind (call_track _) fun _ => call_track _

theorem unlinkNolock_track : Track books (c, p) (unlinkNolock L fs node name) (fun _ => (c, p)) (c, p) := by
  unfold unlinkNolock
  refine .bind (call_track _) fun r => ?_
  cases r.ret with
  | some e => exact .throw rfl
  | none =>
    refine .bind loadInode_track fun link => ?_
    exact .bind (g := fun _ => (c + oneRef link, p)) (.gets fun _ => rfl) fun type =>
      release_quiet fun A => .ite (check_track _) unlinkDir_track

theorem sfsUnlink_track : Track books (c, p) (sfsUnlink L node name) (fun _ => (c, p)) (c, p) := by
  unfold sfsUnlink
  exact .bind checkName_track fun _ => .bind fsOf_track fun fs => .bind (check_track _) fun _ =>
    unlinkNolock_track

omit [DecidableEq ν] in
theorem rename1Nolock_track : Track books A (rename1Nolock L node name newName) (fun _ => A) A := by
  unfold rename1Nolock
  refine .ite (.pure rfl) (.bind (call_track _) fun r => ?_)
  cases r.ret with
  | some e => exact .throw rfl
  | none => exact .bind (call_track _) fun r' => .ite (.throw rfl) (check_track _)

omit [DecidableEq ν] in
theorem ifDir_track {isdir : Bool} {x : Act ν σ Unit} (hx : Track books A x (fun _ => A) A) :
    Track books A (ifDir isdir x) (fun _ => A) A := by
  unfold ifDir
  exact .ite hx (.pure rfl)

omit [DecidableEq ν] in
theorem enterDir_track {isdir : Bool} : Track books A
    (enterDir L node slot name newNode slot' newName link isdir) (fun _ => A) A := by
  unfold enterDir
  refine .bind (.attempt (check_track _)) fun r => ?_
  cases r with
  | error e =>
    refine .bind (.attempt (check_track _)) fun r => ?_
    cases r with
    | ok _ => exact .bind (ifDir_track (call_track _)) fun _ => .throw rfl
    | error _ => exact .throw rfl
  | ok _ => exact ifDir_track (.bind (call_track _) fun _ => call_track _)

omit [DecidableEq ν] in
theorem moveEntry_track : Track books A (moveEntry L node slot name newNode slot' newName link)
    (fun _ => A) A := by
  unfold moveEntry
  exact .bind (check_track _) fun _ => .bind (g := fun _ => A) (.gets fun _ => rfl) fun type =>
    .bind (ifDir_track (call_track _)) fun _ => enterDir_track

theorem rename2Nolock_track : Track books (c, p) (rename2Nolock L fs node name newNode newName)
    (fun _ => (c, p)) (c, p) := by
  unfold rename2Nolock
  refine .bind (call_track _) fun r => ?_
  cases r.ret with
  | some e => exact .throw rfl
  | none =>
    refine .bind (call_track _) fun r' => .ite (.throw rfl) (.bind loadInode_track fun link => ?_)
    exact release_quiet fun A => moveEntry_track

theorem sfsRename_track : Track books (c, p) (sfsRename L node name newNode newName)
    (fun _ => (c, p)) (c, p) := by
  unfold sfsRename
  refine .ite (.throw rfl) (.ite (.throw rfl) (.ite (.throw rfl) (.bind fsOf_track fun fs => ?_)))
  exact .bind (check_track _) fun _ => .ite rename1Nolock_track
    (.bind (check_track _) fun _ => rename2Nolock_track)

end Dir

/-! ## The operations of a node -/

section Vops

variable {L : Below ν σ} {node link newNode : ν} {name newName path : Name} {flags : ℕ} {len : ℤ}
  {c : ν → ℤ × ℤ} {p : Option ν} {A : (ν → ℤ × ℤ) × Option ν}

theorem vopLookup_track : Track books (c, p) (vopLookup L node path) (fun n => (c + oneRef n, p)) (c, p) := by
  unfold vopLookup
  refine .bind inodeCheck_track fun i => ?_
  cases i.ops with
  | device => exact .ite (.throw rfl) (.bind refInc_track fun _ => .pure rfl)
  | dir => exact sfsLookup_track
  | file => exact .throw rfl

omit [DecidableEq ν] in
theorem ofDir_track {α : Type} {x : Act ν σ α} {g : α → (ν → ℤ × ℤ) × Option ν} (hx : Track books A x g A) :
    Track books A (ofDir node x) g A := by
  unfold ofDir
  exact .bind inodeCheck_track fun i => .ite hx (.throw rfl)

omit [DecidableEq ν] in
theorem vopOpen_track : Track books A (vopOpen L node flags) (fun _ => A) A := by
  unfold vopOpen
  refine .bind inodeCheck_track fun i => ?_
  cases i.ops with
  | device => exact .ite (.throw rfl) (check_track _)
  | dir => exact .ite (.throw rfl) (.pure rfl)
  | file => exact .pure rfl

omit [DecidableEq ν] in
theorem vopTruncate_track : Track books A (vopTruncate L node len) (fun _ => A) A := by
  unfold vopTruncate
  refine .bind inodeCheck_track fun i => ?_
  cases i.ops with
  | device => exact .throw rfl
  | dir => exact .throw rfl
  | file => exact check_track _

omit [DecidableEq ν] in
theorem vopIsDir_track : Track books A (vopIsDir L node) (fun _ => A) A := by
  unfold vopIsDir
  exact .bind inodeCheck_track fun i => .ite (.pure rfl) (.bind (g := fun _ => A) (.gets fun _ => rfl)
    fun type => .bind (.assert rfl) fun _ => .pure rfl)

end Vops

/-! ## The operations on paths -/

section Vfs

variable {L : Below ν σ} {node dir : ν} {path oldPath newPath devname : Name} {flags fs : ℕ}
  {c : ν → ℤ × ℤ} {p : Option ν} {A : (ν → ℤ × ℤ) × Option ν}

theorem handOut_track {var : State ν σ → Option ν} : Track books (c, p) (handOut var)
    (fun n => (c + oneRef n, p)) (c, p) := by
  unfold handOut
  refine .bind (g := fun _ => (c, p)) (.gets fun _ => rfl) fun r => ?_
  cases r with
  | none => exact .throw rfl
  | some node => exact .bind refInc_track fun _ => .pure rfl

omit [DecidableEq ν] in
theorem none_track {α : Type} {g : α → (ν → ℤ × ℤ) × Option ν} {l : (ν → ℤ × ℤ) × Option ν} :
    Track books A (fun _ => none : Act ν σ α) g l := fun _ _ => trivial

/-- `sfs_get_root` does not fail. -/
theorem sfsGetRoot_track {l : (ν → ℤ × ℤ) × Option ν} :
    Track books (c, p) (sfsGetRoot L fs) (fun n => (c + oneRef n, p)) l := by
  unfold sfsGetRoot
  refine .bind (.attempt loadInode_track) fun r => ?_
  cases r with
  | ok node => exact .pure rfl
  | error e => exact none_track

theorem getRoot_track : Track books (c, p) (getRoot L devname) (fun n => (c + oneRef n, p)) (c, p) := by
  unfold getRoot
  refine .bind (g := fun _ => (c, p)) (.gets fun _ => rfl) fun vdevs => ?_
  cases vdevs.find? _ with
  | none => exact .throw rfl
  | some vdev =>
    dsimp only
    cases vdev.fs with
    | some fs => exact sfsGetRoot_track
    | none =>
      refine .ite (.throw rfl) ?_
      cases vdev.devnode with
      | none => exact none_track
      | some node => exact .bind refInc_track fun _ => .pure rfl

theorem fsRoot_track {l : (ν → ℤ × ℤ) × Option ν} :
    Track books (c, p) (fsRoot L node) (fun n => (c + oneRef n, p)) l := by
  unfold fsRoot
  exact .bind fsOf_track fun fs => sfsGetRoot_track

/-- `get_device` holds the node that it returns. -/
theorem getDevice_track : Track books (c, p) (VfsLookup.getDevice (callees L) path)
    (fun r => (c + oneRef r.2, p)) (c, p) := by
  unfold VfsLookup.getDevice
  cases VfsLookup.front path with
  | relative => exact .bind handOut_track fun _ => .pure rfl
  | device devname subpath => exact .bind getRoot_track fun _ => .pure rfl
  | boot subpath => exact .bind handOut_track fun _ => .pure rfl
  | current subpath =>
    refine .bind handOut_track fun node => .bind fsRoot_track fun root => ?_
    refine .bind (g := fun _ => (c + oneRef root, p)) ?_ fun _ => .pure rfl
    exact refDec_track.conv (fun _ => Prod.ext (by dsimp only; abel) rfl) rfl

theorem vfsLookup_track : Track books (c, p) (vfsLookup L path) (fun n => (c + oneRef n, p)) (c, p) := by
  unfold vfsLookup VfsLookup.vfsLookup
  refine .bind getDevice_track fun r => ?_
  obtain ⟨subpath, node⟩ := r
  exact .ite (release_track fun c => vopLookup_track) (.pure rfl)

theorem vfsLookupParent_track : Track books (c, p) (vfsLookupParent L path)
    (fun r => (c + oneRef r.1, p)) (c, p) := by
  unfold vfsLookupParent VfsLookup.vfsLookupParent
  refine .bind getDevice_track fun r => ?_
  obtain ⟨subpath, node⟩ := r
  exact release_track fun c => .ite (ofDir_track sfsLookupParent_track) (.throw rfl)

theorem openNode_track : Track books (c, p) (openNode L path flags) (fun n => (c + oneRef n, p)) (c, p) := by
  unfold openNode
  refine .ite (.bind vfsLookupParent_track fun r => ?_) vfsLookup_track
  obtain ⟨dir, name⟩ := r
  exact release_track fun c => ofDir_track sfsCreate_track

theorem vfsOpen_track : Track books (c, p) (vfsOpen L path flags)
    (fun n => (c + (oneRef n + oneOpen n), p)) (c, p) := by
  unfold vfsOpen
  refine .ite (.throw rfl) (.ite (.throw rfl) (.bind openNode_track fun node => ?_))
  refine .bind (.attempt vopOpen_track) fun r => ?_
  cases r with
  | error e => exact drop_throw
  | ok _ =>
    refine .bind openInc_track fun _ => .ite (.bind (.attempt vopTruncate_track) fun r => ?_)
      (.pure (Prod.ext (add_assoc ..) rfl))
    cases r with
    | error e =>
      -- the count of opens goes first, then the reference
      refine .bind (g := fun _ => (c + oneRef node, p)) ?_ fun _ => drop_throw
      exact openDec_track.conv (fun _ => Prod.ext (add_sub_cancel_right ..) rfl) rfl
    | ok _ => exact .pure (Prod.ext (add_assoc ..) rfl)

/-- What `vfs_unlink` and `vfs_mkdir` do with the parent that they find. -/
theorem inParent_track {x : ν → Name → Act ν σ Unit}
    (hx : ∀ dir name c, Track books (c, p) (x dir name) (fun _ => (c, p)) (c, p)) :
    Track books (c, p) (vfsLookupParent L path >>= fun r => Op.cleanup (x r.1 r.2) (refDec L r.1))
      (fun _ => (c, p)) (c, p) := by
  refine .bind vfsLookupParent_track fun r => .cleanup (hx r.1 r.2 _) (fun _ => ?_) ?_
  · exact refDec_track.conv (fun _ => Prod.ext (add_sub_cancel_right ..) rfl) rfl
  · exact refDec_track.conv (fun _ => Prod.ext (add_sub_cancel_right ..) rfl) rfl

theorem vfsUnlink_track : Track books (c, p) (vfsUnlink L path) (fun _ => (c, p)) (c, p) :=
  inParent_track fun _ _ _ => ofDir_track sfsUnlink_track

theorem vfsMkdir_track : Track books (c, p) (vfsMkdir L path) (fun _ => (c, p)) (c, p) :=
  inParent_track fun _ _ _ => ofDir_track sfsMkdir_track

theorem lookupNew_track : Track books (c + oneRef node, p) (lookupNew L node newPath)
    (fun r => (c + oneRef node + oneRef r.1, p)) (c, p) := by
  unfold lookupNew
  refine .bind (.attempt vfsLookupParent_track) fun r => ?_
  cases r with
  | ok found => exact .pure rfl
  | error e => exact drop_throw

/-- What `vfs_rename` and `vfs_link` do with the two nodes that they find. -/
theorem sameFs_track {x : Act ν σ Unit} (hx : ∀ c, Track books (c, p) x (fun _ => (c, p)) (c, p)) :
    Track books (c + oneRef node + oneRef dir, p) (Op.cleanup (sameFs node dir x) (refDecs L node dir))
      (fun _ => (c, p)) (c, p) := by
  have hdecs : ∀ l, Track books (c + oneRef node + oneRef dir, p) (refDecs L node dir)
      (fun _ => (c, p)) l := by
    intro l
    unfold refDecs
    exact .bind refDec_track fun _ => refDec_track.conv (fun _ => Prod.ext (by dsimp only; abel) rfl) rfl
  refine .cleanup ?_ (fun _ => hdecs _) (hdecs _)
  unfold sameFs
  exact .bind inode_track fun i => .bind inode_track fun i' => .ite (.throw rfl) (hx _)

theorem vfsRename_track : Track books (c, p) (vfsRename L oldPath newPath) (fun _ => (c, p)) (c, p) := by
  unfold vfsRename
  refine .bind vfsLookupParent_track fun r => .bind lookupNew_track fun r' => ?_
  exact sameFs_track fun c => ofDir_track sfsRename_track

theorem vfsLink_track : Track books (c, p) (vfsLink L oldPath newPath) (fun _ => (c, p)) (c, p) := by
  unfold vfsLink
  refine .bind vfsLookup_track fun node => .bind lookupNew_track fun r' => ?_
  exact sameFs_track fun c => ofDir_track sfsLink_track

/-- The reference that the current directory is. -/
def held : Option ν → ν → ℤ × ℤ
  | none => 0
  | some node => oneRef node

omit [DecidableEq ν] in
theorem setCwd_track {l : (ν → ℤ × ℤ) × Option ν} :
    Track books (c, p) (setCwd dir : Act ν σ Unit) (fun _ => (c, some dir)) l := by
  intro s hs
  have hcounts : counts s = c := congrArg Prod.fst hs
  exact Prod.ext hcounts rfl

theorem dropOld_track {q : Option ν} {l : (ν → ℤ × ℤ) × Option ν} :
    Track books (c, q) (dropOld L p) (fun _ => (c - held p, q)) l := by
  cases p with
  | none => exact .pure (Prod.ext (sub_zero c).symm rfl)
  | some old => exact refDec_track

theorem setCurdir_track : Track books (c, p) (setCurdir L dir)
    (fun _ => (c + oneRef dir - held p, some dir)) (c, p) := by
  intro s hs
  have hpwd : s.pwd = p := congrArg Prod.snd hs
  unfold setCurdir
  refine Op.wpx_bind_of_ok (rfl : Op.gets State.pwd s = some (.ok s.pwd, s)) ?_
  rw [hpwd]
  by_cases hsame : p = some dir
  · rw [if_neg (not_not.mpr hsame)]
    refine Track.pure ?_ s hs
    rw [hsame]
    exact Prod.ext (add_sub_cancel_right ..).symm rfl
  · rw [if_pos hsame]
    exact Track.bind vopIsDir_track (fun isDir => .ite (.throw rfl)
      (.bind refInc_track fun _ => .bind setCwd_track fun _ => dropOld_track)) s hs

/-- `vfs_set_curdir` and the drop after it, for the node that was found. -/
theorem enter_track : Track books (c + oneRef node, p) (Op.cleanup (setCurdir L node) (refDec L node))
    (fun _ => (c - held p + oneRef node, some node)) (c, p) := by
  refine .cleanup setCurdir_track (fun _ => ?_) ?_
  · exact refDec_track.conv (fun _ => Prod.ext (by dsimp only; abel) rfl) rfl
  · exact refDec_track.conv (fun _ => Prod.ext (add_sub_cancel_right ..) rfl) rfl

/-! ## The balance -/

/-- What returns with `a` has added `g a` to the counters; what fails has added nothing. -/
def Adds {α : Type} (x : Act ν σ α) (g : α → ν → ℤ × ℤ) : Prop :=
  ∀ s r s', x s = some (r, s') → s'.pwd = s.pwd ∧
    counts s' = counts s + match r with
      | .ok a => g a
      | .error _ => 0

omit [DecidableEq ν] in
theorem adds_of_track {α : Type} {x : Act ν σ α} {g : α → ν → ℤ × ℤ}
    (h : ∀ c p, Track books (c, p) x (fun a => (c + g a, p)) (c, p)) : Adds x g := by
  intro s r s' hx
  have hbooks := (h (counts s) s.pwd).elim hx
  cases r with
  | ok a => exact ⟨congrArg Prod.snd hbooks, congrArg Prod.fst hbooks⟩
  | error e => exact ⟨congrArg Prod.snd hbooks, (congrArg Prod.fst hbooks).trans (add_zero _).symm⟩

omit [DecidableEq ν] in
theorem adds_zero {x : Act ν σ Unit} (h : ∀ c p, Track books (c, p) x (fun _ => (c, p)) (c, p)) :
    Adds x fun _ => 0 :=
  adds_of_track fun c p => (h c p).conv (fun _ => Prod.ext (add_zero c).symm rfl) rfl

/-- What returns has made a node the current directory, and that node now has the reference that the
directory before it had; what fails has done nothing. -/
def MovesCurdir (x : Act ν σ Unit) : Prop :=
  ∀ s r s', x s = some (r, s') →
    match r with
    | .ok _ => ∃ node, s'.pwd = some node ∧ counts s' = counts s - held s.pwd + oneRef node
    | .error _ => s'.pwd = s.pwd ∧ counts s' = counts s

theorem vfsChdir_moves (path : Name) : MovesCurdir (vfsChdir L path) := by
  intro s r s' hx
  unfold vfsChdir at hx
  cases hl : vfsLookup L path s with
  | none =>
    rw [Op.bind_of_none hl] at hx
    cases hx
  | some p =>
    obtain ⟨found, s₁⟩ := p
    have hfound := (vfsLookup_track (c := counts s) (p := s.pwd)).elim hl
    cases found with
    | error e =>
      rw [Op.bind_of_error hl] at hx
      cases hx
      exact ⟨congrArg Prod.snd hfound, congrArg Prod.fst hfound⟩
    | ok node =>
      rw [Op.bind_of_ok hl] at hx
      have hbooks : books s₁ = (counts s + oneRef node, s.pwd) := hfound
      have henter := Op.wpx_elim (enter_track s₁ hbooks) hx
      cases r with
      | ok u => exact ⟨node, congrArg Prod.snd henter, congrArg Prod.fst henter⟩
      | error e => exact ⟨congrArg Prod.snd henter, congrArg Prod.fst henter⟩

/-- **Path operations balance their references.**  Whatever the functions below return, an operation on
paths adds one reference to the node or parent that it returns, `vfs_open` one count of opens besides, and
`vfs_chdir` moves the reference of the current directory; nothing else changes, and nothing at all when an
error code is returned. -/
theorem path_references (L : Below ν σ) (path newPath : Name) (flags : ℕ) :
    Adds (vfsLookup L path) oneRef ∧
    Adds (vfsLookupParent L path) (fun found => oneRef found.1) ∧
    Adds (vfsOpen L path flags) (fun node => oneRef node + oneOpen node) ∧
    Adds (vfsUnlink L path) (fun _ => 0) ∧
    Adds (vfsRename L path newPath) (fun _ => 0) ∧
    Adds (vfsLink L path newPath) (fun _ => 0) ∧
    Adds (vfsMkdir L path) (fun _ => 0) ∧
    MovesCurdir (vfsChdir L path) :=
  ⟨adds_of_track fun _ _ => vfsLookup_track, adds_of_track fun _ _ => vfsLookupParent_track,
    adds_of_track fun _ _ => vfsOpen_track, adds_zero fun _ _ => vfsUnlink_track,
    adds_zero fun _ _ => vfsRename_track, adds_zero fun _ _ => vfsLink_track,
    adds_zero fun _ _ => vfsMkdir_track, vfsChdir_moves path⟩

end Vfs

/-! ## The root of a file system is opened -/

/-- A file system of which nothing but the root, at address 0, is cached; its device is called `d`. -/
def rootBelow : Below ℕ Unit where
  type _ _ := Sfs.SFS_TYPE_DIR
  nlinks _ _ := 2
  slots _ _ := 0
  parent _ _ := Sfs.SFS_BLKN_ROOT
  hashFind _ ino _ := if ino = Sfs.SFS_BLKN_ROOT then some 0 else none
  kmalloc _ := some (false, ())
  allocInode _ := some (none, ())
  readInode _ _ _ := some (.error (.other 0), ())
  initSin _ _ _ _ := some ((), ())
  setLinks _ _ _ := some ((), ())
  blockAlloc _ _ := some (.error .noMem, ())
  blockFree _ _ _ := some ((), ())
  trylockSin _ _ := some (.ok (), ())
  direntSearch _ _ _ := some (⟨some .noEnt, 0, 0, 0⟩, ())
  direntWrite _ _ _ _ _ := some (.error (.other 0), ())
  direntLink _ _ _ _ _ := some (.error (.other 0), ())
  direntUnlink _ _ _ _ := some (.error (.other 0), ())
  setParent _ _ _ := some ((), ())
  nlinksInc _ _ := some ((), ())
  nlinksDec _ _ := some ((), ())
  setRemoved _ _ := some ((), ())
  truncfile _ _ _ := some (.error (.other 0), ())
  fsync _ _ := some (.ok (), ())
  takeDown _ _ := some (.ok (), ())
  removeLinks _ _ := some ((), ())
  dopOpen _ _ _ := some (.ok (), ())
  dopClose _ _ := some (.ok (), ())

def rootState : State ℕ Unit where
  inodes n := if n = 0 then some ⟨.dir, some 0, 1, 0, 1⟩ else none
  pwd := some 0
  bootfs := some 0
  vdevs := [⟨⟨[100], by decide⟩, none, some 0, true⟩]
  rest := ()

/-- `d:` is opened for reading. -/
theorem path_references_root : ∃ s', vfsOpen rootBelow ⟨[100, 58], by decide⟩ O_RDONLY rootState = some (.ok 0, s') ∧
    counts s' = counts rootState + (oneRef 0 + oneOpen 0) :=
  ⟨_, rfl, ((path_references rootBelow ⟨[100, 58], by decide⟩ noName O_RDONLY).2.2.1 rootState (.ok 0) _ rfl).2⟩

end Ucore.PathOps
