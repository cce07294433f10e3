import Ucore.Sfs.Refine

/-!
# The primitive operations on a tree of nodes

Each step that the operations of `sfs_inode.c` are made of, as a change of one node of the tree that
the file system refines.
-/

namespace Ucore.Sfs

open Bytes
open Function (update update_apply update_eq_self update_idem update_of_ne update_self)

theorem onDisk_of_ok {α : Type} {fs : Fs} {x : Op Vol Err α} {a : α} {v : Vol}
    (h : x fs.vol = some (.ok a, v)) : onDisk x fs = some (.ok a, { fs with vol := v }) := by
  show Option.map _ (x fs.vol) = _
  rw [h]
  rfl

section Nodes

variable {fs : Fs} {t : Tree} {c : ℕ → ℕ → UInt8} {X : Prop} {i : ℕ} {n : Node}

/-- A node that somebody holds is cached. -/
theorem Stores.cached (h : Stores fs t c X) (hn : t i = some n) (href : 0 < n.ref) :
    ∃ s, fs.cache i = some s ∧ s.node fs = n := by
  have hnode := h.node i n hn
  cases hc : fs.cache i with
  | none =>
    have hview : fs.view i = ⟨DiskInode.ofBlock (fs.vol.disk i), false, false, 0⟩ := by
      unfold Fs.view
      rw [hc]
    rw [← hnode] at href
    unfold Fs.node at href
    rw [hview] at href
    exact absurd href (Nat.lt_irrefl 0)
  | some s =>
    refine ⟨s, rfl, ?_⟩
    rw [← hnode, Fs.node_cached hc]

theorem sinOf_eq {s : Sin} (hs : fs.cache i = some s) : sinOf i fs = some (.ok s, fs) := by
  unfold sinOf
  rw [hs]

/-- `trylock_sin`, by the flag of the node. -/
theorem trylockSin_eq (h : Stores fs t c X) (hn : t i = some n) (href : 0 < n.ref) : trylockSin i fs =
    if n.removed then some (.error .noEnt, fs) else some (.ok (), fs) := by
  obtain ⟨s, hs, rfl⟩ := h.cached hn href
  unfold trylockSin
  rw [Op.bind_of_ok (sinOf_eq hs)]
  show (if s.removed then _ else _ : Op Fs Err Unit) fs = if s.removed then _ else _
  cases s.removed with
  | true => rfl
  | false => rfl

theorem asDir_eq (h : Stores fs t c X) (hn : t i = some n) (href : 0 < n.ref) : asDir i fs =
    if n.type = SFS_TYPE_DIR then some (.ok (), fs) else some (.error .notDir, fs) := by
  obtain ⟨s, hs, rfl⟩ := h.cached hn href
  unfold asDir
  rw [Op.bind_of_ok (sinOf_eq hs)]
  show (if s.din.type ≠ SFS_TYPE_DIR then _ else _ : Op Fs Err Unit) fs =
    if s.din.type = SFS_TYPE_DIR then _ else _
  by_cases ht : s.din.type = SFS_TYPE_DIR
  · rw [if_neg (not_not.mpr ht), if_pos ht]
    rfl
  · rw [if_pos ht, if_neg ht]
    rfl

/-- An edit of the head of a cached inode. -/
theorem editDin_spec (h : Stores fs t c X) (hn : t i = some n) (href : 0 < n.ref)
    {f : DiskInode → DiskInode} {info parent nlinks : ℕ}
    (hf : ∀ d : DiskInode, d.info = n.info → d.parent = n.parent → d.nlinks = n.nlinks →
      f d = { d with info := info, parent := parent, nlinks := nlinks })
    (hinfo : info < 2 ^ 32) (hparent : parent < 2 ^ 32) (hnlinks : nlinks < 2 ^ 16)
    (hfile : n.type = SFS_TYPE_FILE → info = n.info) :
    ∃ fs', editDin i f fs = some (.ok (), fs') ∧ Stores fs' (update t i
      (some { n with info := info, parent := parent, nlinks := nlinks })) c X := by
  obtain ⟨s, hs, rfl⟩ := h.cached hn href
  have hfd := hf s.din rfl rfl rfl
  obtain ⟨heq, hr⟩ := h.edit hs
    ⟨{ s.din with info := info, parent := parent, nlinks := nlinks }, true, s.removed, s.ref⟩
    rfl hinfo hparent hnlinks (h.held i s hs) nofun hfile hn
  refine ⟨_, ?_, hr⟩
  unfold editDin
  rw [Op.bind_of_ok (sinOf_eq hs), hfd]
  exact heq

theorem Stores.bounds (h : Stores fs t c X) (hn : t i = some n) :
    n.info < 2 ^ 32 ∧ n.parent < 2 ^ 32 ∧ n.nlinks < 2 ^ 16 := by
  obtain ⟨L, -, ho⟩ := h.owned
  have hfits := ho.fits i (Tree.has_of hn)
  rw [Fs.din_view] at hfits
  rw [← h.node i n hn]
  exact ⟨hfits.info, hfits.parent, hfits.nlinks⟩

theorem nlinksInc_spec (h : Stores fs t c X) (hn : t i = some n) (href : 0 < n.ref) :
    ∃ fs', nlinksInc i fs = some (.ok (), fs') ∧
      Stores fs' (update t i (some { n with nlinks := (n.nlinks + 1) % 65536 })) c X := by
  obtain ⟨hinfo, hparent, -⟩ := h.bounds hn
  exact editDin_spec h hn href (fun d h1 h2 h3 => by rw [← h1, ← h2, ← h3]) hinfo hparent
    (Nat.mod_lt _ (by simp)) fun _ => rfl

theorem nlinksDec_spec (h : Stores fs t c X) (hn : t i = some n) (href : 0 < n.ref)
    (h0 : n.nlinks ≠ 0) : ∃ fs', nlinksDec i fs = some (.ok (), fs') ∧
      Stores fs' (update t i (some { n with nlinks := n.nlinks - 1 })) c X := by
  obtain ⟨hinfo, hparent, hnlinks⟩ := h.bounds hn
  obtain ⟨fs', heq, hr⟩ := editDin_spec (f := fun d => { d with nlinks := d.nlinks - 1 }) h hn href
    (fun d h1 h2 h3 => by rw [← h1, ← h2, ← h3]) hinfo hparent (by omega : n.nlinks - 1 < 2 ^ 16) fun _ => rfl
  refine ⟨fs', ?_, hr⟩
  obtain ⟨s, hs, rfl⟩ := h.cached hn href
  have h0' : s.din.nlinks ≠ 0 := h0
  unfold nlinksDec
  rw [Op.bind_of_ok (sinOf_eq hs),
    Op.bind_of_ok (if_pos h0' : Op.assert (s.din.nlinks ≠ 0) fs = some (.ok (), fs))]
  exact heq

theorem setParent_spec (h : Stores fs t c X) (hn : t i = some n) (href : 0 < n.ref) {p : ℕ}
    (hp : p < 2 ^ 32) : ∃ fs', setParent i p fs = some (.ok (), fs') ∧
      Stores fs' (update t i (some { n with parent := p })) c X := by
  obtain ⟨hinfo, -, hnlinks⟩ := h.bounds hn
  exact editDin_spec h hn href (fun d h1 h2 h3 => by rw [← h1, ← h3]) hinfo hp hnlinks fun _ => rfl

end Nodes

/-! ## Slots -/

section Slots

variable {fs : Fs} {t : Tree} {c : ℕ → ℕ → UInt8} {X : Prop} {d : ℕ} {n : Node} {name : Name}

/-- What a search says about the slots of the node. -/
structure Scan (n : Node) (name : Name) (r : Search) : Prop where
  hit : ∀ ino j, r.found = some (ino, j) → n.ents j = some (ino, name) ∧ j < n.blocks
  miss : r.found = none → ∀ j ino, n.ents j ≠ some (ino, name)
  empty : r.empty ≤ n.blocks ∧ (r.found = none → n.ents r.empty = none)

theorem Lk.ents_beyond {k : Lk} {j : ℕ} (hj : k.din.blocks ≤ j) : k.ents j = none :=
  if_neg fun hc => absurd hc.2 (Nat.not_lt.mpr hj)

theorem search_spec (h : Stores fs t c X) (hn : t d = some n) (href : 0 < n.ref)
    (htype : n.type = SFS_TYPE_DIR) (hlen : strlen name ≤ SFS_MAX_FNAME_LEN) :
    ∃ r, onSin d (direntSearch name) fs = some (.ok r, fs) ∧ Scan n name r := by
  obtain ⟨s, hs, rfl⟩ := h.cached hn href
  have htype' : (fs.lk s).din.type = SFS_TYPE_DIR := htype
  obtain ⟨L, -, ho⟩ := h.owned
  obtain ⟨r, heq, hr⟩ := direntSearch_spec (ho.own_lk hs) (h.filled_lk hs htype)
    htype' hlen
  have hents : ∀ j, j < s.din.blocks → (fs.lk s).ents j = if ((fs.lk s).entry j).ino = 0 then none
      else some (((fs.lk s).entry j).ino, ((fs.lk s).entry j).name) := fun j hj => if_pos ⟨htype', hj⟩
  refine ⟨r, ?_, ⟨fun ino j hj => ?_, fun hnone j ino he => ?_, ?_, fun hnone => ?_⟩⟩
  · rw [onSin_of_eq hs heq, Fs.put_lk hs]
  · obtain ⟨-, hj', h0, he⟩ := hr.hit ino j hj
    refine ⟨?_, hj'⟩
    show (fs.lk s).ents j = _
    rw [hents j hj', he, if_neg h0]
  · have he' : (fs.lk s).ents j = some (ino, name) := he
    by_cases hj : j < s.din.blocks
    · rw [hents j hj] at he'
      split at he'
      · cases he'
      · rename_i h0
        cases he'
        exact hr.miss hnone j (Nat.zero_le j) hj h0 rfl
    · rw [Lk.ents_beyond (Nat.not_lt.mp hj)] at he'
      cases he'
  · rcases hr.empty with he | ⟨-, hlt, -⟩
    · rw [he]
      exact le_rfl
    · exact hlt.le
  · show (fs.lk s).ents r.empty = none
    rcases hr.empty with he | ⟨-, hlt, h0⟩
    · rw [he]
      exact Lk.ents_beyond le_rfl
    · rw [hents _ hlt, if_pos h0]

/-- The value that a slot gets. -/
def slotOf (ino : ℕ) (name : Name) : Option (ℕ × Name) := if ino = 0 then none else some (ino, name)

theorem SlotSet.ents {R : ℕ → Prop} {k k' : Lk} {slot ino : ℕ} (h : SlotSet R k slot ino name k')
    (htype : k.din.type = SFS_TYPE_DIR) (hslot : slot ≤ k.din.blocks) :
    k'.ents = update k.ents slot (slotOf ino name) := by
  have hb := h.dinBlocks
  have htype' : k'.din.type = SFS_TYPE_DIR := h.type.trans htype
  funext j
  by_cases hj : j = slot
  · rw [hj, update_self]
    unfold Lk.ents slotOf
    rw [if_pos ⟨htype', by omega⟩, h.number]
    by_cases h0 : ino = 0
    · rw [if_pos h0, if_pos h0]
    · rw [if_neg h0, if_neg h0, h.entry h0]
  · rw [update_of_ne hj]
    unfold Lk.ents
    by_cases hlt : j < k.din.blocks
    · have hin : k.din.type = SFS_TYPE_DIR ∧ j < k.din.blocks := ⟨htype, hlt⟩
      have hin' : k'.din.type = SFS_TYPE_DIR ∧ j < k'.din.blocks := ⟨htype', by omega⟩
      rw [if_pos hin, if_pos hin', h.others j hlt hj]
    · have hout : ¬ (k.din.type = SFS_TYPE_DIR ∧ j < k.din.blocks) := fun hc => hlt hc.2
      have hout' : ¬ (k'.din.type = SFS_TYPE_DIR ∧ j < k'.din.blocks) := fun hc => by omega
      rw [if_neg hout, if_neg hout']

theorem Refused.ents {R : ℕ → Prop} {k k' : Lk} (h : Refused R k k') (hf : k.Filled) : k'.ents = k.ents := by
  funext j
  unfold Lk.ents
  rw [h.type, h.dinBlocks]
  by_cases hj : k.din.type = SFS_TYPE_DIR ∧ j < k.din.blocks
  · have he : k'.entry j = k.entry j := by
      unfold Lk.entry
      rw [h.leaves j, h.same j ((hf j).mpr hj.2)]
    rw [if_pos hj, if_pos hj, he]
  · rw [if_neg hj, if_neg hj]

/-- A slot that exists is overwritten. -/
theorem writeSlot_spec (h : Stores fs t c X) (hn : t d = some n) (href : 0 < n.ref)
    (htype : n.type = SFS_TYPE_DIR) {slot ino : ℕ} (hslot : slot < n.blocks) (hino : ino < 2 ^ 32)
    (hlen : ino ≠ 0 → strlen name ≤ SFS_MAX_FNAME_LEN) :
    ∃ fs', onSin d (direntWrite slot ino name) fs = some (.ok (), fs') ∧ Stores fs' (update t d
      (some { n with ents := update n.ents slot (slotOf ino name) })) c X := by
  obtain ⟨s, hs, rfl⟩ := h.cached hn href
  obtain ⟨L, hL, ho⟩ := h.owned
  have hfill := h.filled_lk hs htype
  have hle := hfill.blocks_le
  have hslot' : slot < (fs.lk s).din.blocks := hslot
  obtain ⟨r, k', hx, hq⟩ := Op.wp_iff.mp (direntWrite_spec (ho.own_lk hs) hfill
    htype hslot'.le (by omega) hino hlen)
  rcases hq with ⟨rfl, hset⟩ | ⟨-, hend, -⟩
  · refine ⟨_, onSin_of_eq hs hx, ?_⟩
    have hblocks : k'.din.blocks = (fs.lk s).din.blocks := by
      rw [hset.dinBlocks]
      omega
    have hcov : k'.Covered X := hset.filled.covered
    have hfits := hset.toTouch.fits hcov (ho.fits_lk hs)
      (by rw [hset.info]; exact (ho.fits_lk hs).info)
    have hput : Stores (fs.put d s k') _ (update c d (c d)) X :=
      h.put hL ho hs hset.toTouch.toLocal hcov hfits (fun hd => by
      obtain ⟨hd', he⟩ := hset.clean hd
      rw [hblocks] at he
      rw [he]
      exact ⟨hd', Lags.refl _⟩) s (h.held d s hs) fun hf =>
      absurd (hset.type.symm.trans hf) (by rw [show (fs.lk s).din.type = SFS_TYPE_DIR from htype]; decide)
    have hnode : nodeOf k' s.removed s.ref =
        { s.node fs with ents := update (s.node fs).ents slot (slotOf ino name) } := by
      unfold nodeOf
      rw [hset.ents htype hslot'.le, hset.type, hset.nlinks, hset.info, hset.parent, hblocks]
      rfl
    rw [hnode, update_eq_self] at hput
    exact hput
  · exact absurd hend (Nat.ne_of_lt hslot')

/-- The first half of `sfs_dirent_link_nolock`: a slot is filled or added, and counted. -/
theorem linkSlot_spec (h : Stores fs t c X) (hn : t d = some n) (href : 0 < n.ref)
    (htype : n.type = SFS_TYPE_DIR) {slot ino : ℕ} (hslot : slot ≤ n.blocks) (h0 : ino ≠ 0)
    (hino : ino < 2 ^ 32) (hlen : strlen name ≤ SFS_MAX_FNAME_LEN) {F : Prop} (hF : slot = NLEAF → F)
    {β : Type} {g : Unit → Op Fs Err β} {Q : Except Err β → Fs → Prop}
    (hok : ∀ fs', Stores fs' (update t d (some { n with
      info := (n.info + 1) % 2 ^ 32, blocks := max n.blocks (slot + 1),
      ents := update n.ents slot (some (ino, name)) })) c X → Op.wpx F (g ()) Q fs')
    (herr : ∀ fs', slot = n.blocks → Stores fs' t c X → Q (.error .noMem) fs') :
    Op.wpx F (do
      onSin d (direntWrite slot ino name)
      editDin d fun d => { d with info := (d.info + 1) % 2 ^ 32 }
      g ()) Q fs := by
  obtain ⟨s, hs, rfl⟩ := h.cached hn href
  obtain ⟨L, hL, ho⟩ := h.owned
  have hfill := h.filled_lk hs htype
  have hdir : ∀ {ty : ℕ}, ty = (fs.lk s).din.type → ty ≠ SFS_TYPE_FILE := fun he => by
    rw [he, show (fs.lk s).din.type = SFS_TYPE_DIR from htype]
    decide
  have hslot' : slot ≤ (fs.lk s).din.blocks := hslot
  have hw := direntWrite_wpx (ho.own_lk hs) hfill htype hslot' hino
    (fun _ => hlen) hF
  refine Op.wpx_bind (wpx_onSin hs (Op.wpx_mono hw ?_))
  rintro r k' (⟨rfl, hset⟩ | ⟨rfl, hend, hr⟩)
  · -- the size and `dirty` are set on what the write has left
    let k₂ : Lk := ⟨k'.vol, { k'.din with info := (k'.din.info + 1) % 2 ^ 32 }, true⟩
    have hedit : editDin d (fun d => { d with info := (d.info + 1) % 2 ^ 32 }) (fs.put d s k') =
        some (.ok (), fs.put d s k₂) := by
      unfold editDin
      rw [Op.bind_of_ok (sinOf_eq Fs.put_cache_self)]
      show some (Except.ok (), (⟨k'.vol, fs.info, update (update fs.cache d _) d _⟩ : Fs)) = _
      rw [update_idem]
      rfl
    have htouch : Touch (fs.away t.has L d) (fs.lk s) k₂ :=
      hset.toTouch.setInfo ((k'.din.info + 1) % 2 ^ 32) k'.din.blocks true
    have hfill₂ : k₂.Filled := hset.filled
    have hcov : k₂.Covered X := hfill₂.covered
    have hfits := htouch.fits hcov (ho.fits_lk hs) (Nat.mod_lt _ (by simp))
    have hput : Stores (fs.put d s k₂) _ (update c d (c d)) X :=
      h.put hL ho hs htouch.toLocal hcov hfits nofun s (h.held d s hs)
      fun hf => absurd hf (hdir htouch.type)
    have hnode : nodeOf k₂ s.removed s.ref = { s.node fs with
        info := ((s.node fs).info + 1) % 2 ^ 32
        blocks := max (s.node fs).blocks (slot + 1)
        ents := update (s.node fs).ents slot (some (ino, name)) } := by
      have hents : k₂.ents = update (fs.lk s).ents slot (slotOf ino name) :=
        hset.ents htype hslot'
      unfold nodeOf
      rw [hents, htouch.type, htouch.nlinks, htouch.parent]
      show (⟨_, _, (k'.din.info + 1) % 2 ^ 32, _, k'.din.blocks, _, _, _⟩ : Node) = _
      rw [hset.info, hset.dinBlocks]
      unfold slotOf
      rw [if_neg h0]
      rfl
    rw [hnode, update_eq_self] at hput
    exact Op.wpx_bind_of_ok hedit (hok _ hput)
  · refine herr _ hend ?_
    have hfill' := hr.toExtend.filled hfill
    have hcov : k'.Covered X := hfill'.covered
    have hfits := hr.toTouch.fits hcov (ho.fits_lk hs)
      (by rw [hr.info]; exact (ho.fits_lk hs).info)
    have hput : Stores (fs.put d s k') _ (update c d (c d)) X :=
      h.put hL ho hs hr.toTouch.toLocal hcov hfits (fun hd => by
      obtain ⟨hd', he⟩ := hr.clean hd
      rw [he]
      exact ⟨hd', Lags.refl _⟩) s (h.held d s hs) fun hf => absurd hf (hdir hr.type)
    have hnode : nodeOf k' s.removed s.ref = s.node fs := by
      unfold nodeOf
      rw [hr.ents hfill, hr.type, hr.nlinks, hr.info, hr.parent, hr.dinBlocks]
      rfl
    rw [hnode, ← hn, update_eq_self, update_eq_self] at hput
    exact hput

end Slots

/-! ## Inodes enter the cache -/

section Load

variable {fs : Fs} {t : Tree} {c : ℕ → ℕ → UInt8} {X : Prop} {i : ℕ} {n : Node}

/-- The inode moves between the cache and its block, or its references change: its disk inode is the
same, up to blocks that it does not count any more, and only its block may have been written. -/
theorem Stores.recache (h : Stores fs t c X) (hn : t i = some n) {fs' : Fs} {n' : Node}
    (hinfo : fs'.info = fs.info) (hok : fs'.vol.Ok) (hblocks : fs'.vol.blocks = fs.vol.blocks)
    (hmap : fs'.vol.freemap = fs.vol.freemap) (hunused : fs'.vol.unused = fs.vol.unused)
    (hsuper : fs'.vol.superDirty = fs.vol.superDirty)
    (hdisk : ∀ b, b ≠ i → fs'.vol.disk b = fs.vol.disk b)
    (hother : ∀ j, j ≠ i → fs'.cache j = fs.cache j)
    (hdin : Behind (X ∧ n.type = SFS_TYPE_FILE) (fs'.din i) (fs.din i))
    (hnode : fs'.node i = n') (honDisk : fs'.cache i = none → n'.nlinks ≠ 0)
    (hheld : ∀ s, fs'.cache i = some s → 0 < s.ref)
    (hclean : ∀ s, fs'.cache i = some s → s.dirty = false → s.din.nlinks ≠ 0 →
      DiskInode.ofBlock (fs'.vol.disk i) = s.din) :
    Stores fs' (update t i (some n')) c X := by
  obtain ⟨L, hL, ho⟩ := h.owned
  have hi := Tree.has_of hn
  have hmeta := ho.node i hi
  have htype : n.type = (fs.din i).type := by
    rw [← h.node i n hn, Fs.din_view]
    rfl
  have hndin : n'.type = n.type ∧ n'.info = (fs.din i).info ∧ n'.blocks = (fs'.din i).blocks := by
    have h1 : n'.type = (fs'.din i).type ∧ n'.info = (fs'.din i).info ∧ n'.blocks = (fs'.din i).blocks := by
      rw [← hnode, Fs.din_view]
      exact ⟨rfl, rfl, rfl⟩
    rw [hdin.same] at h1
    exact ⟨h1.1.trans htype.symm, h1.2.1, h1.2.2⟩
  have hidx : ∀ r, fs.role i r ≠ 0 → fs'.vol.disk (fs.role i r) = fs.vol.disk (fs.role i r) := fun r h0 =>
    hdisk _ (ho.apart i i r hi hi h0)
  have hrole : fs'.role i = fs.role i := by
    have hcongr : roleAt fs'.vol.disk (fs.din i) = roleAt fs.vol.disk (fs.din i) :=
      roleAt_congr (hidx .ind) (hidx .dbl) fun m => hidx (.mid m)
    unfold Fs.role
    rw [hdin.same, ← hcongr]
    rfl
  have hrole' : (fs'.lk (fs'.view i)).role = (fs.lk (fs.view i)).role := by
    rwa [Fs.role_view, Fs.role_view] at hrole
  have hrest : ∀ b, fs.others t.has i b → b < fs.vol.blocks → fs'.vol.disk b = fs.vol.disk b := by
    intro b hb _
    refine hdisk b ?_
    rcases hb with hm | ⟨j, hj, hne, rfl | ⟨r, h0, he⟩⟩
    · exact fun he => hmeta.1 (he ▸ hm)
    · exact hne
    · exact he ▸ ho.apart j i r hj hi h0
  have hcov := h.covered i hi
  have hdinv := hdin
  rw [Fs.din_view, Fs.din_view] at hdinv
  have hchange : Stores fs' (update t i (some n')) (update c i (c i)) X :=
    h.change ho ⟨hL, fun b => ho.lost_others hi⟩ hinfo hblocks
    hother (fun j r hj _ h0 => ho.apart j i r hj hi h0) hrest hok (fun m hm => ?_) nofun hheld
    (fun s hs hd hl => ?_) fun hd => ⟨hsuper ▸ hd, hmap, hunused⟩
  · rwa [update_eq_self] at hchange
  · cases hm
    refine ⟨hmeta, ⟨?_, ?_, ?_, ?_⟩, hnode, ?_, honDisk, fun hf => ⟨?_, fun hx => ?_⟩⟩
    · rw [Owned.away_iff hi]
      refine (ho.own hi).congr hok hblocks hmap ?_
      exact hrole
    · have hfits := ho.fits i hi
      have hle := hdin.le
      rw [hdin.same]
      exact { hfits with blocks := Nat.lt_of_le_of_lt hle hfits.blocks }
    · intro j hj
      rw [hrole']
      exact hcov.leaf j (Nat.lt_of_lt_of_le hj hdinv.le)
    · intro hx j hj
      have htypev : (fs'.view i).din.type = (fs.view i).din.type := by rw [hdinv.same]
      have hx' : X → (fs.view i).din.type = SFS_TYPE_DIR := fun hX => htypev ▸ hx hX
      have hno : ¬ (X ∧ n.type = SFS_TYPE_FILE) := by
        rintro ⟨hX, hf⟩
        have hd := hx' hX
        rw [← Fs.din_view, ← htype, hf] at hd
        exact absurd hd (by decide)
      rw [hrole'] at hj
      have := hcov.exact hx' j hj
      show j < (fs'.view i).din.blocks
      rw [hdinv.exact hno]
      exact this
    · rw [hndin.1]
      exact h.type i n hn
    · rw [← (h.data i n hn (hndin.1 ▸ hf)).1]
      refine funext fun p => Lk.data_congr (congrFun hrole' _) fun h0 => ?_
      rw [← Fs.role_view] at h0 ⊢
      exact hidx _ h0
    · have hf' : n.type = SFS_TYPE_FILE := hndin.1 ▸ hf
      have hblank := ((h.data i n hn hf').2 hx).blank
      rw [← h.node i n hn] at hblank
      have hsize : n'.info = (fs.view i).din.info := by rw [hndin.2.1, Fs.din_view]
      rw [hndin.2.2]
      refine ⟨?_, fun p hp => hblank p ?_⟩
      · rw [hndin.2.1]
        exact hdin.cover ⟨hx, hf'⟩
      · rw [hsize] at hp
        exact hp
  · rw [hclean s hs hd hl]
    refine ⟨Lags.refl _, fun hP => ?_⟩
    have hview : s.din = fs'.din i := (Fs.din_cached hs).symm
    rw [hview] at hP ⊢
    have htype' : (fs'.din i).type = n.type := by rw [hdin.same, htype]
    have hinfo' : (fs'.din i).info = (fs.din i).info := by rw [hdin.same]
    rw [hinfo']
    exact hdin.cover ⟨hP.1, htype'.symm.trans hP.2⟩

/-- What is in memory and on disk is the same. -/
theorem Stores.behind (h : Stores fs t c X) (hn : t i = some n) :
    Behind (X ∧ n.type = SFS_TYPE_FILE) (fs.din i) (fs.din i) := by
  refine ⟨Lags.refl _, fun hP => ?_⟩
  have := ((h.data i n hn hP.2).2 hP.1).size
  rw [← h.node i n hn] at this
  rw [Fs.din_view]
  exact this

/-- An inode that is on disk enters the cache. -/
theorem Stores.load (h : Stores fs t c X) (hn : t i = some n) (hc : fs.cache i = none) :
    Stores ⟨fs.vol, fs.info, update fs.cache i
      (some ⟨DiskInode.ofBlock (fs.vol.disk i), false, false, 1⟩)⟩
      (update t i (some { n with ref := 1 })) c X := by
  obtain ⟨L, -, ho⟩ := h.owned
  have hview : fs.view i = ⟨DiskInode.ofBlock (fs.vol.disk i), false, false, 0⟩ := by
    unfold Fs.view
    rw [hc]
  have hself : update fs.cache i
      (some ⟨DiskInode.ofBlock (fs.vol.disk i), false, false, 1⟩) i =
        some ⟨DiskInode.ofBlock (fs.vol.disk i), false, false, 1⟩ := update_self ..
  have hnode := h.node i n hn
  unfold Fs.node at hnode
  rw [hview] at hnode
  refine h.recache hn rfl ho.vol rfl rfl rfl rfl (fun _ _ => rfl)
    (fun j hj => update_of_ne hj ..) ?_ ?_ (fun hcn => ?_) (fun s hs => ?_) fun s hs hd hl => ?_
  · have hb := h.behind hn
    have hsame : Fs.din ⟨fs.vol, fs.info, update fs.cache i
        (some ⟨DiskInode.ofBlock (fs.vol.disk i), false, false, 1⟩)⟩ i = fs.din i := by
      rw [Fs.din_cached hself, Fs.din_view, hview]
    rwa [hsame]
  · rw [Fs.node_cached hself, ← hnode]
    rfl
  · exact nomatch hself.symm.trans hcn
  · cases hself.symm.trans hs
    exact Nat.one_pos
  · cases hself.symm.trans hs
    rfl

theorem loadInode_spec (h : Stores fs t c X) (hn : t i = some n) :
    ∃ fs', loadInode i fs = some (.ok (), fs') ∧
      Stores fs' (update t i (some { n with ref := n.ref + 1 })) c X := by
  obtain ⟨L, -, ho⟩ := h.owned
  have hi := Tree.has_of hn
  cases hc : fs.cache i with
  | some s =>
    have hns := h.node_of hc
    rw [hn] at hns
    cases hns
    have hfits := ho.fits_lk hc
    obtain ⟨heq, hr⟩ := h.edit hc { s with ref := s.ref + 1 } rfl hfits.info
      hfits.parent hfits.nlinks (Nat.succ_pos _) (fun hd => ⟨hd, rfl⟩) (fun _ => rfl) hn
    refine ⟨_, ?_, hr⟩
    unfold loadInode
    rw [Op.bind_of_ok (rfl : Op.gets _ fs = some (.ok (fs.cache i), fs)), hc]
    exact heq
  | none =>
    have hview : fs.view i = ⟨DiskInode.ofBlock (fs.vol.disk i), false, false, 0⟩ := by
      unfold Fs.view
      rw [hc]
    have hnode := h.node i n hn
    have hnode' : nodeOf (fs.lk ⟨DiskInode.ofBlock (fs.vol.disk i), false, false, 0⟩) false 0 = n := by
      rw [← hnode]
      unfold Fs.node
      rw [hview]
      rfl
    have href : n.ref = 0 := by rw [← hnode']; rfl
    have hnlinks := h.onDisk i n hn hc
    have htype := h.type i n hn
    rw [← hnode'] at hnlinks htype
    obtain ⟨hmeta, hlt⟩ := ho.node i hi
    have h0 : i ≠ 0 := fun he => hmeta (.inl he)
    have huse : fs.vol.freemap i = false := (ho.used i hlt).mpr (.inl (.inr (.inl hi)))
    have hread : rinode i fs.vol = some (.ok (DiskInode.ofBlock (fs.vol.disk i)), fs.vol) := by
      have hbuf : rbuf INODE_SIZE i 0 fs.vol = some (.ok fun j => fs.vol.disk i (0 + j), fs.vol) :=
        if_pos ⟨by unfold SFS_BLKSIZE; omega, by unfold SFS_BLKSIZE INODE_SIZE; omega, h0, hlt⟩
      have hdata : (fun j => fs.vol.disk i (0 + j)) = fs.vol.disk i := by
        funext j
        rw [Nat.zero_add]
      rw [hdata] at hbuf
      unfold rinode
      rw [Op.bind_of_ok hbuf]
      rfl
    have hr := h.load hn hc
    rw [href]
    refine ⟨_, ?_, hr⟩
    unfold loadInode
    rw [Op.bind_of_ok (rfl : Op.gets _ fs = some (.ok (fs.cache i), fs)), hc]
    dsimp only
    rw [Op.bind_of_ok (onDisk_of_ok (assertInuse_eq h0 hlt huse)), Op.bind_of_ok (onDisk_of_ok hread),
      Op.bind_of_ok (if_pos hnlinks : Op.assert _ fs = some (.ok (), fs)),
      Op.bind_of_ok (if_pos htype : Op.assert _ fs = some (.ok (), fs))]
    rfl

/-- The node of an inode that has just been created. -/
def freshNode (type : ℕ) : Node := ⟨type, 0, 0, 0, 0, false, 1, fun _ => none⟩

/-- A free block belongs to nobody. -/
theorem Stores.free (h : Stores fs t c X) {b : ℕ} (hb : fs.vol.freemap b = true) :
    b ≠ 0 ∧ b < fs.vol.blocks ∧ ¬ fs.vol.isMeta b ∧ t b = none ∧ ∀ j r, t.has j → fs.role j r ≠ b := by
  obtain ⟨L, -, ho⟩ := h.owned
  obtain ⟨h0, hlt⟩ := ho.vol.free b hb
  have hno : ¬ (fs.owns t.has b ∨ L b) := by
    rw [← ho.used b hlt, hb]
    simp
  refine ⟨h0, hlt, fun hm => hno (.inl (.inl hm)), ?_, fun j r hj he => ?_⟩
  · by_contra hne
    exact hno (.inl (.inr (.inl hne)))
  · exact hno (.inl (.inr (.inr ⟨j, r, hj, he ▸ h0, he⟩)))

/-- A new inode in a free block. -/
theorem Stores.create (h : Stores fs t c X) {b type : ℕ} (hb : fs.vol.freemap b = true)
    (htype : type = SFS_TYPE_DIR ∨ type = SFS_TYPE_FILE) :
    Stores ⟨fs.vol.take b, fs.info, update fs.cache b
      (some ⟨⟨0, 0, type, 0, 0, fun _ => 0, 0, 0⟩, false, false, 1⟩)⟩
      (update t b (some (freshNode type))) (update c b fun _ => 0) X := by
  obtain ⟨L, hL, ho⟩ := h.owned
  obtain ⟨h0, hlt, hmeta, htb, hrole⟩ := h.free hb
  have hlb : ¬ L b := fun hl => by
    have := (ho.used b hlt).mpr (.inr hl)
    rw [hb] at this
    cases this
  generalize hfs : (⟨fs.vol.take b, fs.info, update fs.cache b
    (some ⟨⟨0, 0, type, 0, 0, fun _ => 0, 0, 0⟩, false, false, 1⟩)⟩ : Fs) = fs'
  have hvol : fs'.vol = fs.vol.take b := by rw [← hfs]
  have hself : fs'.cache b = some ⟨⟨0, 0, type, 0, 0, fun _ => 0, 0, 0⟩, false, false, 1⟩ := by
    rw [← hfs]
    exact update_self ..
  have hother : ∀ j, j ≠ b → fs'.cache j = fs.cache j := by
    intro j hj
    rw [← hfs]
    exact update_of_ne hj ..
  have hok : fs'.vol.Ok := by
    rw [hvol]
    exact ho.vol.take hb
  have hneb : ∀ j, t.has j → j ≠ b := fun j hj he => hj (he ▸ htb)
  have hnew : ∀ r, roleAt fs'.vol.disk (fs'.din b) r = 0 := by
    intro r
    rw [Fs.din_cached hself]
    exact roleAt_empty (fun _ => rfl) rfl rfl r
  have hnew' : ∀ r, (fs'.lk (fs'.view b)).role r = 0 := by
    intro r
    rw [← Fs.role_view]
    exact hnew r
  have hothers : ∀ e, fs.others t.has b e → e ≠ b := by
    rintro e (hm | ⟨j, hj, hne, he | ⟨r, -, he⟩⟩) heb
    · exact hmeta (heb ▸ hm)
    · exact hne (he.symm.trans heb)
    · exact hrole j r hj (he.trans heb)
  have htype16 : type < 2 ^ 16 := by
    unfold SFS_TYPE_DIR SFS_TYPE_FILE at htype
    omega
  refine h.change (i := b) ho ⟨hL, fun e he => ⟨fun hoth => ?_, fun heb => hlb (heb ▸ he)⟩⟩ (by rw [← hfs])
    (by rw [hvol]; rfl)
    hother (fun j r hj _ _ => hrole j r hj)
    (fun e he _ => by rw [hvol]; exact take_disk_of_ne (hothers e he)) hok (fun n hn => ?_) nofun
    (fun s hs => ?_) (fun s hs _ hl => ?_) fun hd => ?_
  · rcases hoth with hm | ⟨j, hj, -, rfl | ⟨r, hr, rfl⟩⟩
    · exact ho.lost e he (.inl hm)
    · exact ho.lost e he (.inr (.inl hj))
    · exact ho.lost _ he (.inr (.inr ⟨j, r, hj, hr, rfl⟩))
  · cases hn
    refine ⟨⟨hmeta, hlt⟩, ⟨⟨hok, ?_, .inl (.inr (.inl (.inl rfl))), fun r _ hr => absurd (hnew r) hr,
      fun r hr => absurd (hnew r) hr, fun r hr => absurd (hnew r) hr, fun e he => ?_⟩, ?_,
      ⟨fun j hj => ?_, fun _ j hj => absurd (hnew' _) hj⟩⟩, ?_, htype, fun hc => ?_, fun _ => ⟨?_, fun _ => ?_⟩⟩
    · rw [hvol]
      exact ho.small
    · have he' : e < fs.vol.blocks := by rw [hvol] at he; exact he
      have hmap : fs'.vol.freemap e = if e = b then false else fs.vol.freemap e := by
        rw [hvol]
        exact update_apply ..
      have hno : ¬ ∃ r, roleAt fs'.vol.disk (fs'.din b) r ≠ 0 ∧ roleAt fs'.vol.disk (fs'.din b) r = e := by
        rintro ⟨r, hr, -⟩
        exact hr (hnew r)
      rw [hmap, or_iff_left hno]
      by_cases heb : e = b
      · rw [if_pos heb]
        exact iff_of_true rfl (.inl (.inl heb))
      · rw [if_neg heb, or_iff_right heb, ho.used e he',
        Owned.owns_iff_of_not (i := b) (by unfold Tree.has; simp [htb])]
    · rw [Fs.din_cached hself]
      exact ⟨Nat.two_pow_pos 32, Nat.two_pow_pos 32, htype16, Nat.two_pow_pos 16, Nat.two_pow_pos 32,
        fun _ => Nat.two_pow_pos 32, fun _ _ => rfl, Nat.two_pow_pos 32, Nat.two_pow_pos 32⟩
    · rw [Fs.view_cached hself] at hj
      exact absurd hj (Nat.not_lt_zero j)
    · rw [Fs.node_cached hself]
      unfold Sin.node nodeOf freshNode
      have hents : (fs'.lk ⟨⟨0, 0, type, 0, 0, fun _ => 0, 0, 0⟩, false, false, 1⟩).ents =
          fun _ => none := by
        funext m
        exact Lk.ents_beyond (Nat.zero_le m)
      rw [hents]
      rfl
    · rw [hself] at hc
      cases hc
    · exact funext fun p => if_pos (hnew' _)
    · exact ⟨Nat.zero_le _, fun _ _ => rfl⟩
  · rw [hself] at hs
    cases hs
    exact Nat.one_pos
  · rw [hself] at hs
    cases hs
    exact absurd rfl hl
  · rw [hvol] at hd
    cases hd

/-- `sfs_dirent_create_inode`: a new node, or no free block. -/
theorem direntCreateInode_spec (h : Stores fs t c X) {type : ℕ}
    (htype : type = SFS_TYPE_DIR ∨ type = SFS_TYPE_FILE) :
    Op.wp (direntCreateInode type) (fun r fs' =>
      (∃ b, r = .ok b ∧ t b = none ∧ b ≠ 0 ∧ b < 2 ^ 32 ∧ fs.vol.freemap b = true ∧
        Stores fs' (update t b (some (freshNode type))) (update c b fun _ => 0) X) ∨
      (r = .error .noMem ∧ fs' = fs)) fs := by
  obtain ⟨L, hL, ho⟩ := h.owned
  unfold direntCreateInode
  rw [Op.wp_bind]
  unfold onDisk
  rw [Op.wp_zoom]
  refine Op.wp_mono (blockAlloc_spec ho.vol) ?_
  rintro r v' (⟨b, rfl, hb, rfl⟩ | ⟨rfl, -, rfl⟩)
  · obtain ⟨h0, hlt, -, htb, -⟩ := h.free hb
    exact .inl ⟨b, rfl, htb, h0, Nat.lt_of_lt_of_le hlt ho.small, hb, h.create hb htype⟩
  · exact .inr ⟨rfl, rfl⟩

end Load

end Ucore.Sfs
