import Ucore.Sfs.DirentSpec
import Ucore.Sfs.Space

/-!
# The file system as a set of nodes

`Node` is what an inode is for: a file with a size, or a directory that maps slots to names and inode
numbers, with its link count, parent and references.  A `Tree` has a node for each inode of the volume.

* `Refines fs t` — the volume and the cache represent the nodes of `t`, and own their space.
* `Stores fs t c X` — besides, `c` is what the files contain.  If `X`, an attempt to make a file longer has
  failed at some time: the inode of a file on disk may count fewer blocks than the one in memory, so that the
  others are not found again, and may be lost.
* `Stores.put`, `Stores.edit` — each primitive operation on the volume and the cache changes one node.
-/

namespace Ucore.Sfs

open Bytes

structure Node where
  type : ℕ
  nlinks : ℕ
  /-- The size of a file, `dirinfo.slots` of a directory. -/
  info : ℕ
  parent : ℕ
  blocks : ℕ
  removed : Bool
  /-- 0 for an inode that is not cached. -/
  ref : ℕ
  /-- The slots of a directory: `none` for an empty one. -/
  ents : ℕ → Option (ℕ × Name)

abbrev Tree := ℕ → Option Node

def Lk.ents (k : Lk) (j : ℕ) : Option (ℕ × Name) :=
  if k.din.type = SFS_TYPE_DIR ∧ j < k.din.blocks then
    if (k.entry j).ino = 0 then none else some ((k.entry j).ino, (k.entry j).name)
  else none

def nodeOf (k : Lk) (removed : Bool) (ref : ℕ) : Node :=
  ⟨k.din.type, k.din.nlinks, k.din.info, k.din.parent, k.din.blocks, removed, ref, k.ents⟩

/-- The inode as it is cached, or as it would be loaded. -/
def Fs.view (fs : Fs) (i : ℕ) : Sin :=
  match fs.cache i with
  | some s => s
  | none => ⟨DiskInode.ofBlock (fs.vol.disk i), false, false, 0⟩

def Sin.node (fs : Fs) (s : Sin) : Node := nodeOf (fs.lk s) s.removed s.ref

def Fs.node (fs : Fs) (i : ℕ) : Node := (fs.view i).node fs

/-- The inodes of a tree. -/
def Tree.has (t : Tree) (i : ℕ) : Prop := t i ≠ none

/-- The superblock and the bitmap on disk are those in memory. -/
structure Fs.Synced (fs : Fs) : Prop where
  head : ∀ i, i < 44 → fs.vol.disk SFS_BLKN_SUPER i = superBlock fs.vol fs.info i
  map : ∀ j, j < fs.vol.freemapBlocks → ∀ i, i < SFS_BLKSIZE →
    fs.vol.disk (SFS_BLKN_FREEMAP + j) i = freemapBlock fs.vol j i

structure Refines (fs : Fs) (t : Tree) : Prop where
  space : Space fs t.has
  low : ∀ b, fs.vol.isMeta b → b < fs.vol.blocks
  node : ∀ i n, t i = some n → fs.node i = n
  type : ∀ i n, t i = some n → n.type = SFS_TYPE_DIR ∨ n.type = SFS_TYPE_FILE
  onDisk : ∀ i n, t i = some n → fs.cache i = none → n.nlinks ≠ 0
  held : ∀ i s, fs.cache i = some s → 0 < s.ref
  clean : ∀ i s, fs.cache i = some s → s.dirty = false → s.din.nlinks ≠ 0 →
    DiskInode.ofBlock (fs.vol.disk i) = s.din
  super : fs.vol.superDirty = false → fs.Synced

/-- `d` differs from `d'` at most in that it may count fewer blocks, if `P`. -/
structure Lags (P : Prop) (d d' : DiskInode) : Prop where
  same : d = { d' with blocks := d.blocks }
  le : d.blocks ≤ d'.blocks
  exact : ¬ P → d.blocks = d'.blocks

/-- The inode `d` on disk is the inode `d'` in memory, up to blocks beyond the size. -/
structure Behind (P : Prop) (d d' : DiskInode) : Prop extends Lags P d d' where
  cover : P → d'.info ≤ 4096 * d.blocks

/-- The blocks of a file reach up to its size, and there is nothing beyond it. -/
structure Neat (info blocks : ℕ) (d : ℕ → UInt8) : Prop where
  size : info ≤ 4096 * blocks
  blank : ∀ p, info ≤ p → d p = 0

structure Stores (fs : Fs) (t : Tree) (c : ℕ → ℕ → UInt8) (X : Prop) : Prop where
  owned : ∃ L, (X ∨ L = nowhere) ∧ Owned fs t.has L
  low : ∀ b, fs.vol.isMeta b → b < fs.vol.blocks
  covered : ∀ i, t.has i → (fs.lk (fs.view i)).Covered X
  node : ∀ i n, t i = some n → fs.node i = n
  type : ∀ i n, t i = some n → n.type = SFS_TYPE_DIR ∨ n.type = SFS_TYPE_FILE
  onDisk : ∀ i n, t i = some n → fs.cache i = none → n.nlinks ≠ 0
  held : ∀ i s, fs.cache i = some s → 0 < s.ref
  clean : ∀ i s, fs.cache i = some s → s.dirty = false → s.din.nlinks ≠ 0 →
    Behind (X ∧ s.din.type = SFS_TYPE_FILE) (DiskInode.ofBlock (fs.vol.disk i)) s.din
  super : fs.vol.superDirty = false → fs.Synced
  data : ∀ i n, t i = some n → n.type = SFS_TYPE_FILE →
    (fs.lk (fs.view i)).data = c i ∧ (X → Neat n.info n.blocks (c i))

section Views

variable {fs fs' : Fs} {t : Tree} {i j : ℕ} {s : Sin}

theorem Fs.view_cached (hs : fs.cache i = some s) : fs.view i = s := by
  unfold Fs.view
  rw [hs]

theorem Fs.node_cached (hs : fs.cache i = some s) : fs.node i = s.node fs := by
  unfold Fs.node
  rw [Fs.view_cached hs]

theorem Fs.din_view (fs : Fs) (i : ℕ) : fs.din i = (fs.view i).din := by
  unfold Fs.din Fs.view
  cases fs.cache i with
  | none => rfl
  | some s => rfl

theorem Tree.has_of {n : Node} (hn : t i = some n) : t.has i := by
  unfold Tree.has
  rw [hn]
  simp

theorem Tree.has_update {n : Node} (h : t.has i) :
    Tree.has (Function.update t i (some n)) = t.has := by
  funext j
  unfold Tree.has at *
  by_cases hj : j = i
  · rw [hj, Function.update_self]
    exact propext (iff_of_true (by simp) h)
  · rw [Function.update_of_ne hj]

theorem Fs.role_view (fs : Fs) (i : ℕ) : fs.role i = (fs.lk (fs.view i)).role := by
  unfold Fs.role
  rw [Fs.din_view]
  rfl

/-- The slots of a directory depend on its leaves and what is in them. -/
theorem Lk.ents_congr {X : Prop} {k k' : Lk} (hc : k.Covered X) (htype : k'.din.type = k.din.type)
    (hblocks : k'.din.blocks = k.din.blocks) (hrole : k'.role = k.role)
    (hdisk : ∀ m, k.role (.leaf m) ≠ 0 → k'.vol.disk (k.role (.leaf m)) = k.vol.disk (k.role (.leaf m))) :
    k'.ents = k.ents := by
  funext m
  unfold Lk.ents
  rw [htype, hblocks]
  by_cases hm : k.din.type = SFS_TYPE_DIR ∧ m < k.din.blocks
  · have he : k'.entry m = k.entry m := by
      unfold Lk.entry
      rw [hrole, hdisk m (hc.leaf m hm.2)]
    rw [if_pos hm, if_pos hm, he]
  · rw [if_neg hm, if_neg hm]

/-- An inode that is not touched. -/
theorem Fs.lk_congr {X : Prop} (hc : (fs.lk (fs.view j)).Covered X) (hview : fs'.view j = fs.view j)
    (hidx : ∀ r, fs.role j r ≠ 0 → fs'.vol.disk (fs.role j r) = fs.vol.disk (fs.role j r)) :
    fs'.node j = fs.node j ∧ (fs'.lk (fs'.view j)).Covered X ∧
      (fs'.lk (fs'.view j)).data = (fs.lk (fs.view j)).data := by
  have hdin : fs'.din j = fs.din j := by rw [Fs.din_view, Fs.din_view, hview]
  have hrole : (fs'.lk (fs.view j)).role = (fs.lk (fs.view j)).role := by
    have := Owned.role_congr hdin hidx
    rwa [Fs.role_view, Fs.role_view, hview] at this
  have hdisk : ∀ m, (fs.lk (fs.view j)).role (.leaf m) ≠ 0 →
      fs'.vol.disk ((fs.lk (fs.view j)).role (.leaf m)) = fs.vol.disk ((fs.lk (fs.view j)).role (.leaf m)) := by
    rw [← Fs.role_view]
    exact fun m => hidx (.leaf m)
  refine ⟨?_, ?_, ?_⟩
  · have hents : (fs'.lk (fs'.view j)).ents = (fs.lk (fs.view j)).ents := by
      rw [hview]
      exact Lk.ents_congr hc rfl rfl hrole hdisk
    unfold Fs.node Sin.node nodeOf
    rw [hents, hview]
    rfl
  · rw [hview]
    refine ⟨fun m hm => ?_, fun hx m hm => ?_⟩
    · rw [hrole]
      exact hc.leaf m hm
    · rw [hrole] at hm
      exact hc.exact hx m hm
  · rw [hview]
    exact funext fun p => Lk.data_congr (congrFun hrole _) (hdisk _)

/-- The uncached inodes are found in their blocks. -/
theorem Fs.view_congr (hcache : fs'.cache j = fs.cache j) (hdisk : fs'.vol.disk j = fs.vol.disk j) :
    fs'.view j = fs.view j := by
  unfold Fs.view
  rw [hcache, hdisk]

/-- The blocks that hold the superblock and the bitmap, and what they are to hold, are as before. -/
theorem Fs.Synced.congr (h : fs.Synced) (hinfo : fs'.info = fs.info)
    (hblocks : fs'.vol.blocks = fs.vol.blocks) (hunused : fs'.vol.unused = fs.vol.unused)
    (hmap : fs'.vol.freemap = fs.vol.freemap)
    (hdisk : ∀ b, fs.vol.isMeta b → fs'.vol.disk b = fs.vol.disk b) : fs'.Synced := by
  have hfree : fs'.vol.freemapBlocks = fs.vol.freemapBlocks := by
    unfold Vol.freemapBlocks
    rw [hblocks]
  refine ⟨fun i hi => ?_, fun j hj i hi => ?_⟩
  · have hsuper : superBlock fs'.vol fs'.info = superBlock fs.vol fs.info := by
      unfold superBlock
      rw [hblocks, hunused, hinfo]
    rw [hdisk SFS_BLKN_SUPER (.inl rfl), hsuper]
    exact h.head i hi
  · rw [hfree] at hj
    have hbits : freemapBlock fs'.vol j = freemapBlock fs.vol j := by
      unfold freemapBlock
      rw [hmap]
    rw [hdisk (SFS_BLKN_FREEMAP + j) (.inr ⟨Nat.le_add_right 2 j, Nat.add_lt_add_left hj 2⟩), hbits]
    exact h.map j hj i hi

variable {c : ℕ → ℕ → UInt8} {X : Prop}

theorem Stores.has (h : Stores fs t c X) (hs : fs.cache i = some s) : t.has i := by
  obtain ⟨L, -, ho⟩ := h.owned
  exact ho.cached i (by rw [hs]; simp)

theorem Stores.node_of (h : Stores fs t c X) (hs : fs.cache i = some s) : t i = some (s.node fs) := by
  obtain ⟨n, hn⟩ := Option.ne_none_iff_exists'.mp (h.has hs)
  rw [hn, ← h.node i n hn, Fs.node_cached hs]

theorem Stores.covered_lk (h : Stores fs t c X) (hs : fs.cache i = some s) : (fs.lk s).Covered X := by
  have := h.covered i (h.has hs)
  rwa [Fs.view_cached hs] at this

/-- The slots of a directory are all of its leaves. -/
theorem Stores.filled_lk (h : Stores fs t c X) (hs : fs.cache i = some s) (hdir : s.din.type = SFS_TYPE_DIR) :
    (fs.lk s).Filled := (h.covered_lk hs).filled fun _ => hdir

theorem Stores.data_lk (h : Stores fs t c X) (hs : fs.cache i = some s) (hfile : s.din.type = SFS_TYPE_FILE) :
    (fs.lk s).data = c i := by
  have := (h.data i _ (h.node_of hs) hfile).1
  rwa [Fs.view_cached hs] at this

theorem Stores.neat (h : Stores fs t c X) (hs : fs.cache i = some s) (hx : X)
    (hfile : s.din.type = SFS_TYPE_FILE) : Neat s.din.info s.din.blocks (c i) :=
  (h.data i _ (h.node_of hs) hfile).2 hx

/-- Only what is in the files matters. -/
theorem Stores.contents {c' : ℕ → ℕ → UInt8} (h : Stores fs t c X)
    (hc : ∀ j n, t j = some n → n.type = SFS_TYPE_FILE → c' j = c j) : Stores fs t c' X :=
  { h with data := fun j n hj hf => by rw [hc j n hj hf]; exact h.data j n hj hf }

/-- Node `i` changes, is new or is gone; the others, the blocks that they have, the superblock and the
bitmap on disk are left alone. -/
theorem Stores.change {L L' : ℕ → Prop} (h : Stores fs t c X) (ho : Owned fs t.has L)
    (hlost : (X ∨ L' = nowhere) ∧ ∀ b, L' b → ¬ fs.others t.has i b ∧ b ≠ i) {m : Option Node} {ci : ℕ → UInt8}
    (hinfo : fs'.info = fs.info)
    (hblocks : fs'.vol.blocks = fs.vol.blocks) (hcache : ∀ j, j ≠ i → fs'.cache j = fs.cache j)
    (hapart : ∀ j r, t.has j → j ≠ i → fs.role j r ≠ 0 → fs.role j r ≠ i)
    (hrest : ∀ b, fs.others t.has i b → b < fs.vol.blocks → fs'.vol.disk b = fs.vol.disk b)
    (hvol : fs'.vol.Ok)
    (hself : ∀ n, m = some n → (¬ fs.vol.isMeta i ∧ i < fs.vol.blocks) ∧
      (Own (fun b => (b = i ∨ fs.others t.has i b) ∨ L' b) fs'.vol (fs'.din i) ∧ (fs'.din i).Fits ∧
        (fs'.lk (fs'.view i)).Covered X) ∧
      fs'.node i = n ∧ (n.type = SFS_TYPE_DIR ∨ n.type = SFS_TYPE_FILE) ∧
      (fs'.cache i = none → n.nlinks ≠ 0) ∧ (n.type = SFS_TYPE_FILE →
        (fs'.lk (fs'.view i)).data = ci ∧ (X → Neat n.info n.blocks ci)))
    (hgone : m = none → fs'.cache i = none ∧
      ∀ b, b < fs.vol.blocks → (fs'.vol.freemap b = false ↔ fs.others t.has i b ∨ L' b))
    (hheld : ∀ s, fs'.cache i = some s → 0 < s.ref)
    (hclean : ∀ s, fs'.cache i = some s → s.dirty = false → s.din.nlinks ≠ 0 →
      Behind (X ∧ s.din.type = SFS_TYPE_FILE) (DiskInode.ofBlock (fs'.vol.disk i)) s.din)
    (hsuper : fs'.vol.superDirty = false → fs.vol.superDirty = false ∧
      fs'.vol.freemap = fs.vol.freemap ∧ fs'.vol.unused = fs.vol.unused) :
    Stores fs' (Function.update t i m) (Function.update c i ci) X := by
  have hdisk : ∀ j, j ≠ i → t.has j → fs'.vol.disk j = fs.vol.disk j := fun j hne hj =>
    hrest j (.inr ⟨j, hj, hne, .inl rfl⟩) (ho.node j hj).2
  have hidx : ∀ j, j ≠ i → t.has j → ∀ r, fs.role j r ≠ 0 →
      fs'.vol.disk (fs.role j r) = fs.vol.disk (fs.role j r) := fun j hne hj r h0 =>
    hrest _ (.inr ⟨j, hj, hne, .inr ⟨r, h0, rfl⟩⟩) (ho.data j r hj h0).2
  have hview : ∀ j, j ≠ i → t.has j → fs'.view j = fs.view j := fun j hne hj =>
    Fs.view_congr (hcache j hne) (hdisk j hne hj)
  have hdin : ∀ j, t.has j → j ≠ i → fs'.din j = fs.din j := fun j hj hne => by
    rw [Fs.din_view, Fs.din_view, hview j hne hj]
  have hsame : ∀ j, j ≠ i → t.has j → fs'.node j = fs.node j ∧ (fs'.lk (fs'.view j)).Covered X ∧
      (fs'.lk (fs'.view j)).data = (fs.lk (fs.view j)).data := fun j hne hj =>
    Fs.lk_congr (h.covered j hj) (hview j hne hj) (hidx j hne hj)
  have hI : ∀ j, j ≠ i → (Tree.has (Function.update t i m) j ↔ t.has j) := fun j hne => by
    unfold Tree.has
    rw [Function.update_of_ne hne]
  have hIi : Tree.has (Function.update t i m) i ↔ m ≠ none := by
    unfold Tree.has
    rw [Function.update_self]
  have howned : Owned fs' (Tree.has (Function.update t i m)) L' := by
    refine ho.change hI hblocks hdin (fun j hj hne => Owned.role_congr (hdin j hj hne) (hidx j hne hj))
      (fun j hj => ?_) hvol (fun hi => ?_) (fun hi => ?_) fun b hb => ⟨(hlost.2 b hb).1, fun _ => (hlost.2 b hb).2⟩
    · by_cases hji : j = i
      · rw [hji, hIi]
        rw [hji] at hj
        exact fun hm => hj (hgone hm).1
      · rw [hcache j hji] at hj
        exact (hI j hji).mpr (ho.cached j hj)
    · obtain ⟨n, hn⟩ := Option.ne_none_iff_exists'.mp (hIi.mp hi)
      obtain ⟨hmeta, ⟨hown, hfits, -⟩, -⟩ := hself n hn
      exact ⟨hmeta, fun j r hj hne h0 => hapart j r hj hne h0, hown, hfits⟩
    · refine (hgone ?_).2
      by_contra hne
      exact hi (hIi.mpr hne)
  refine ⟨⟨L', hlost.1, howned⟩, fun b hb => ?_, fun j hj => ?_, fun j n hj => ?_, fun j n hj => ?_,
    fun j n hj hc => ?_, fun j s hj => ?_, fun j s hj hd hl => ?_, fun hd => ?_, fun j n hj hf => ?_⟩
  · rw [hblocks]
    refine h.low b ?_
    unfold Vol.isMeta Vol.freemapBlocks at *
    rwa [hblocks] at hb
  · by_cases hji : j = i
    · rw [hji] at hj ⊢
      obtain ⟨n, hn⟩ := Option.ne_none_iff_exists'.mp (hIi.mp hj)
      exact (hself n hn).2.1.2.2
    · exact (hsame j hji ((hI j hji).mp hj)).2.1
  · by_cases hji : j = i
    · rw [hji, Function.update_self] at hj
      rw [hji]
      exact (hself n hj).2.2.1
    · rw [Function.update_of_ne hji] at hj
      rw [← h.node j n hj]
      exact (hsame j hji (Tree.has_of hj)).1
  · by_cases hji : j = i
    · rw [hji, Function.update_self] at hj
      exact (hself n hj).2.2.2.1
    · rw [Function.update_of_ne hji] at hj
      exact h.type j n hj
  · by_cases hji : j = i
    · rw [hji, Function.update_self] at hj
      rw [hji] at hc
      exact (hself n hj).2.2.2.2.1 hc
    · rw [Function.update_of_ne hji] at hj
      rw [hcache j hji] at hc
      exact h.onDisk j n hj hc
  · by_cases hji : j = i
    · rw [hji] at hj
      exact hheld s hj
    · rw [hcache j hji] at hj
      exact h.held j s hj
  · by_cases hji : j = i
    · rw [hji] at hj ⊢
      exact hclean s hj hd hl
    · rw [hcache j hji] at hj
      rw [hdisk j hji (h.has hj)]
      exact h.clean j s hj hd hl
  · obtain ⟨hd', hmap, hunused⟩ := hsuper hd
    exact (h.super hd').congr hinfo hblocks hunused hmap fun b hb => hrest b (.inl hb) (h.low b hb)
  · by_cases hji : j = i
    · rw [hji, Function.update_self] at hj
      rw [hji, Function.update_self]
      exact (hself n hj).2.2.2.2.2 hf
    · rw [Function.update_of_ne hji] at hj ⊢
      rw [(hsame j hji (Tree.has_of hj)).2.2]
      exact h.data j n hj hf

end Views

section Lags

variable {P : Prop} {d d' d'' : DiskInode}

theorem Lags.refl (d : DiskInode) : Lags P d d := ⟨rfl, le_rfl, fun _ => rfl⟩

theorem Behind.trans (h : Behind P d d') (h' : Lags P d' d'') : Behind P d d'' where
  same := by
    have hd := h.same
    rw [h'.same] at hd
    exact hd
  le := h.le.trans h'.le
  exact hp := (h.exact hp).trans (h'.exact hp)
  cover hp := by
    have hinfo : d''.info = d'.info := by rw [h'.same]
    rw [hinfo]
    exact h.cover hp

theorem Behind.eq (h : Behind P d d') (hp : ¬ P) : d = d' := by
  have hd := h.same
  rwa [h.exact hp] at hd

theorem Behind.refl (hp : ¬ P) : Behind P d d := ⟨Lags.refl d, fun h => absurd h hp⟩

end Lags

/-- The nodes alone, where no attempt to make a file longer has failed. -/
theorem refines_iff {fs : Fs} {t : Tree} :
    Refines fs t ↔ Stores fs t (fun i => (fs.lk (fs.view i)).data) False := by
  have hfilled : ∀ i, (∀ j, fs.role i (.leaf j) ≠ 0 ↔ j < (fs.din i).blocks) ↔ (fs.lk (fs.view i)).Filled := by
    intro i
    rw [Fs.role_view, Fs.din_view]
    rfl
  constructor
  · intro h
    refine ⟨⟨nowhere, .inr rfl, h.space.owned⟩, h.low, fun i hi => ?_, h.node, h.type, h.onDisk, h.held,
      fun i s hs hd hl => ?_, h.super, fun _ _ _ _ => ⟨rfl, nofun⟩⟩
    · exact ((hfilled i).mp (h.space.filled i hi)).covered
    · rw [h.clean i s hs hd hl]
      exact Behind.refl fun hf => hf.1
  · intro h
    obtain ⟨L, hL, ho⟩ := h.owned
    obtain rfl : L = nowhere := hL.resolve_left id
    exact ⟨.of_owned ho fun i hi => (hfilled i).mpr ((h.covered i hi).filled nofun), h.low, h.node, h.type, h.onDisk,
      h.held, fun i s hs hd hl => (h.clean i s hs hd hl).eq fun hf => hf.1, h.super⟩

theorem Refines.stores {fs : Fs} {t : Tree} (h : Refines fs t) :
    Stores fs t (fun i => (fs.lk (fs.view i)).data) False := refines_iff.mp h

theorem Stores.refines {fs : Fs} {t : Tree} {c : ℕ → ℕ → UInt8} (h : Stores fs t c False) : Refines fs t :=
  refines_iff.mpr { h with data := fun _ _ _ _ => ⟨rfl, nofun⟩ }

section Primitives

variable {fs : Fs} {t : Tree} {c : ℕ → ℕ → UInt8} {X : Prop} {i : ℕ} {s : Sin}

/-- An operation on a cached inode that is not seen by others changes its node; `s'` has the flag and
the references that it leaves. -/
theorem Stores.put {L : ℕ → Prop} (h : Stores fs t c X) (hL : X ∨ L = nowhere) (ho : Owned fs t.has L)
    (hs : fs.cache i = some s) {k : Lk} (ht : Local (fs.away t.has L i) (fs.lk s) k) (hc : k.Covered X)
    (hfits : k.din.Fits)
    (hclean : k.dirty = false → s.dirty = false ∧ Lags (X ∧ s.din.type = SFS_TYPE_FILE) s.din k.din)
    (s' : Sin) (href : 0 < s'.ref) {ci : ℕ → UInt8} (hdata : k.din.type = SFS_TYPE_FILE →
      k.data = ci ∧ (X → Neat k.din.info k.din.blocks ci)) :
    Stores (fs.put i s' k) (Function.update t i (some (nodeOf k s'.removed s'.ref))) (Function.update c i ci) X := by
  have hi := h.has hs
  have hcache : (fs.put i s' k).cache i = some { s' with din := k.din, dirty := k.dirty } :=
    Fs.put_cache_self
  have htype := h.type i _ (h.node_of hs)
  have hrest : ∀ b, fs.others t.has i b → b < fs.vol.blocks → k.vol.disk b = fs.vol.disk b :=
    fun b hb => ht.rest b (.inl ((Owned.rest_iff hi).mpr (.inr hb)))
  refine h.change ho ⟨hL, fun b => ho.lost_others hi⟩ rfl ht.blocks (fun j hj => Fs.put_cache_of_ne hj)
    (fun j r hj _ h0 => ho.apart j i r hj hi h0) hrest ht.own.vol (fun n hn => ?_) nofun
    (fun s₁ hj => ?_) (fun s₁ hj hd hl => ?_) ht.superClean
  · cases hn
    refine ⟨ho.node i hi, ?_, ?_, ?_, fun hc => ?_, fun hf => ?_⟩
    · rw [Fs.put_din_self, Owned.away_iff hi, Fs.view_cached hcache]
      exact ⟨ht.own, hfits, hc⟩
    · rw [Fs.node_cached hcache]
      rfl
    · show k.din.type = SFS_TYPE_DIR ∨ k.din.type = SFS_TYPE_FILE
      rw [ht.type]
      exact htype
    · rw [hcache] at hc
      cases hc
    · rw [Fs.view_cached hcache]
      exact hdata hf
  · rw [hcache] at hj
    cases hj
    exact href
  · rw [hcache] at hj
    cases hj
    obtain ⟨hd', hlags⟩ := hclean hd
    have hl' : s.din.nlinks ≠ 0 := by
      rw [hlags.same]
      exact hl
    show Behind (X ∧ k.din.type = SFS_TYPE_FILE) (DiskInode.ofBlock (k.vol.disk i)) k.din
    rw [ht.rest i (.inl (.inr (.inl hi))) (ho.node i hi).2, ht.type]
    exact (h.clean i s hs hd' hl').trans hlags

/-- The disk inode `d` differs from the one in `k` in the fields that the block map does not use. -/
theorem local_edit {R : ℕ → Prop} {k : Lk} {d : DiskInode} (h : Own R k.vol k.din)
    (hd : d = { k.din with info := d.info, parent := d.parent, nlinks := d.nlinks }) (dirty : Bool) :
    Local R k ⟨k.vol, d, dirty⟩ := by
  have hrole : roleAt k.vol.disk d = roleAt k.vol.disk k.din := by
    rw [hd]
    rfl
  exact ⟨h.congr h.vol rfl rfl hrole, fun _ _ _ => rfl, rfl, by rw [hd], fun hs => ⟨hs, rfl, rfl⟩⟩

/-- A change of the head of an inode, of its flag or of its references. -/
theorem Stores.edit (h : Stores fs t c X) (hs : fs.cache i = some s) (s' : Sin)
    (hd : s'.din = { s.din with
      info := s'.din.info, parent := s'.din.parent, nlinks := s'.din.nlinks })
    (hinfo : s'.din.info < 2 ^ 32) (hparent : s'.din.parent < 2 ^ 32) (hnlinks : s'.din.nlinks < 2 ^ 16)
    (href : 0 < s'.ref) (hclean : s'.dirty = false → s.dirty = false ∧ s'.din = s.din)
    (hsize : s.din.type = SFS_TYPE_FILE → s'.din.info = s.din.info) {n : Node} (hn : t i = some n) :
    setSin i s' fs = some (.ok (), fs.put i s' (fs.lk s')) ∧
      Stores (fs.put i s' (fs.lk s')) (Function.update t i (some { n with
        nlinks := s'.din.nlinks, info := s'.din.info, parent := s'.din.parent,
        removed := s'.removed, ref := s'.ref })) c X := by
  obtain ⟨L, hL, ho⟩ := h.owned
  have hown := ho.own_lk hs
  have hloc : Local (fs.away t.has L i) (fs.lk s) (fs.lk s') := local_edit hown hd s'.dirty
  have hcov := h.covered_lk hs
  have hrole : (fs.lk s').role = (fs.lk s).role := by
    unfold Lk.role
    show roleAt fs.vol.disk s'.din = roleAt fs.vol.disk s.din
    rw [hd]
    rfl
  have hblocks : s'.din.blocks = s.din.blocks := by rw [hd]
  have htype : s'.din.type = s.din.type := by rw [hd]
  have hc : (fs.lk s').Covered X := by
    refine ⟨fun j hj => ?_, fun hx j hj => ?_⟩
    · have hj' : j < s'.din.blocks := hj
      rw [hrole]
      exact hcov.leaf j (hblocks ▸ hj' : j < s.din.blocks)
    · rw [hrole] at hj
      have := hcov.exact (fun hX => htype ▸ hx hX) j hj
      show j < s'.din.blocks
      rw [hblocks]
      exact this
  have hfits := ho.fits_lk hs
  have hfits' : (fs.lk s').din.Fits := by
    refine hloc.own.fits hc hinfo hparent ?_ hnlinks fun j hj => ?_
    · show s'.din.type < 2 ^ 16
      rw [htype]
      exact hfits.type
    · show s'.din.direct j = 0
      rw [hd]
      exact hfits.beyond j hj
  have hdata : (fs.lk s').din.type = SFS_TYPE_FILE → (fs.lk s').data = c i ∧
      (X → Neat (fs.lk s').din.info (fs.lk s').din.blocks (c i)) := by
    intro hf
    have hf' : s.din.type = SFS_TYPE_FILE := htype ▸ hf
    refine ⟨?_, fun hx => ?_⟩
    · rw [← h.data_lk hs hf']
      exact funext fun p => Lk.data_congr (congrFun hrole _) fun _ => rfl
    · show Neat s'.din.info s'.din.blocks (c i)
      rw [hsize hf', hblocks]
      exact h.neat hs hx hf'
  refine ⟨rfl, ?_⟩
  have hnode : nodeOf (fs.lk s') s'.removed s'.ref = { n with
      nlinks := s'.din.nlinks, info := s'.din.info, parent := s'.din.parent,
      removed := s'.removed, ref := s'.ref } := by
    have hns := h.node_of hs
    rw [hn] at hns
    cases hns
    have hents : (fs.lk s').ents = (fs.lk s).ents :=
      Lk.ents_congr hcov htype hblocks hrole fun _ _ => rfl
    unfold nodeOf Sin.node nodeOf
    rw [hents]
    show (⟨s'.din.type, _, _, _, s'.din.blocks, _, _, _⟩ : Node) = _
    rw [htype, hblocks]
    rfl
  have hput := h.put hL ho hs hloc hc hfits' (fun hd' => by
    obtain ⟨hd₀, he⟩ := hclean hd'
    refine ⟨hd₀, ?_⟩
    show Lags _ s.din s'.din
    rw [he]
    exact Lags.refl _) s' href hdata
  rwa [hnode, Function.update_eq_self] at hput

end Primitives

end Ucore.Sfs
