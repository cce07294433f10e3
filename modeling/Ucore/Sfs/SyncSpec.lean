import Ucore.Sfs.FileSpec

/-!
# Writing back

`sfs_fsync` and `sfs_sync` on the file system as a set of nodes: nothing changes in it, and afterwards the
device has what is in memory.

* `Stores.flush` — blocks of the superblock and of the bitmap are written.
* `fsync_spec` — one inode.
* `sync_spec` — the volume: no inode that has links is dirty, and the superblock and the bitmap are on the
  device.
-/

namespace Ucore.Sfs

open Bytes

/-- Inode `i` is not to be written back. -/
def Fs.Saved (fs : Fs) (i : ℕ) : Prop := ∀ s, fs.cache i = some s → s.din.nlinks ≠ 0 → s.dirty = false

section Flush

variable {fs fs' : Fs} {t : Tree} {c : ℕ → ℕ → UInt8} {X : Prop} {I L : ℕ → Prop}

/-- The inodes and their index blocks are the same. -/
theorem Owned.congr (h : Owned fs I L) (hblocks : fs'.vol.blocks = fs.vol.blocks)
    (hunused : fs'.vol.unused = fs.vol.unused) (hmap : fs'.vol.freemap = fs.vol.freemap)
    (hcache : fs'.cache = fs.cache) (hdin : ∀ i, I i → fs'.din i = fs.din i)
    (hrole : ∀ i, I i → fs'.role i = fs.role i) : Owned fs' I L := by
  have hmeta := Owned.isMeta_congr hblocks
  have howns : ∀ b, fs'.owns I b ↔ fs.owns I b := by
    intro b
    unfold Fs.owns
    rw [hmeta]
    refine or_congr Iff.rfl (or_congr Iff.rfl (exists_congr fun i => exists_congr fun r => ?_))
    refine and_congr_right fun hi => ?_
    rw [hrole i hi]
  refine ⟨⟨?_, ?_⟩, hblocks ▸ h.small, fun i hi => ?_, fun i hi => h.cached i (hcache ▸ hi), fun i hi => ?_,
    fun i j r r' hi hj => ?_, fun i j r hi hj => ?_, fun i r hi => ?_, fun b hb => ?_, fun b hb => ?_⟩
  · rw [hmap, hblocks]
    exact h.vol.free
  · rw [hunused, hmap]
    exact h.vol.count
  · rw [hmeta, hblocks]
    exact h.node i hi
  · rw [hdin i hi]
    exact h.fits i hi
  · rw [hrole i hi, hrole j hj]
    exact h.inj i j r r' hi hj
  · rw [hrole i hi]
    exact h.apart i j r hi hj
  · rw [hrole i hi, hmeta, hblocks]
    exact h.data i r hi
  · rw [howns]
    exact h.lost b hb
  · rw [howns, hmap]
    exact h.used b (hblocks ▸ hb)

/-- Blocks of the superblock and of the bitmap are written. -/
theorem Stores.flush (h : Stores fs t c X) (hblocks : fs'.vol.blocks = fs.vol.blocks)
    (hunused : fs'.vol.unused = fs.vol.unused) (hmap : fs'.vol.freemap = fs.vol.freemap)
    (hcache : fs'.cache = fs.cache) (hdisk : ∀ b, ¬ fs.vol.isMeta b → fs'.vol.disk b = fs.vol.disk b)
    (hsuper : fs'.vol.superDirty = false → fs'.Synced) : Stores fs' t c X := by
  obtain ⟨L, hL, ho⟩ := h.owned
  have hself : ∀ i, t.has i → fs'.vol.disk i = fs.vol.disk i := fun i hi => hdisk i (ho.node i hi).1
  have hview : ∀ i, t.has i → fs'.view i = fs.view i := fun i hi =>
    Fs.view_congr (congrFun hcache i) (hself i hi)
  have hidx : ∀ i, t.has i → ∀ r, fs.role i r ≠ 0 → fs'.vol.disk (fs.role i r) = fs.vol.disk (fs.role i r) :=
    fun i hi r h0 => hdisk _ (ho.data i r hi h0).1
  have hsame : ∀ i, t.has i → fs'.node i = fs.node i ∧ (fs'.lk (fs'.view i)).Covered X ∧
      (fs'.lk (fs'.view i)).data = (fs.lk (fs.view i)).data := fun i hi =>
    Fs.lk_congr (h.covered i hi) (hview i hi) (hidx i hi)
  have hdin : ∀ i, t.has i → fs'.din i = fs.din i := fun i hi => by rw [Fs.din_view, Fs.din_view, hview i hi]
  refine ⟨⟨L, hL, ho.congr hblocks hunused hmap hcache hdin fun i hi =>
      Owned.role_congr (hdin i hi) (hidx i hi)⟩, fun b hb => ?_, fun i hi => (hsame i hi).2.1, fun i n hn => ?_,
    h.type, fun i n hn hc => h.onDisk i n hn (congrFun hcache i ▸ hc),
      fun i s hs => h.held i s (congrFun hcache i ▸ hs),
    fun i s hs hd hl => ?_, hsuper, fun i n hn hf => ?_⟩
  · rw [hblocks]
    exact h.low b ((Owned.isMeta_congr hblocks b).mp hb)
  · rw [(hsame i (Tree.has_of hn)).1]
    exact h.node i n hn
  · rw [hcache] at hs
    rw [hself i (h.has hs)]
    exact h.clean i s hs hd hl
  · rw [(hsame i (Tree.has_of hn)).2.2]
    exact h.data i n hn hf

end Flush

section Sync

variable {fs : Fs} {t : Tree} {c : ℕ → ℕ → UInt8} {X : Prop} {i : ℕ} {n : Node}

/-- `sfs_fsync` of a node that somebody holds. -/
theorem fsync_spec (h : Stores fs t c X) (hn : t i = some n) (href : 0 < n.ref)
    (hrem : n.removed = true → n.nlinks = 0) : ∃ fs', fsync i fs = some (.ok (), fs') ∧ Stores fs' t c X ∧
      fs'.Saved i ∧ (∀ j, j ≠ i → fs'.cache j = fs.cache j) ∧ (∀ j, fs'.cache j = none ↔ fs.cache j = none) ∧
      fs'.vol.blocks = fs.vol.blocks := by
  obtain ⟨s, hs, rfl⟩ := h.cached hn href
  by_cases hcond : s.din.nlinks = 0 ∨ s.dirty = false
  · refine ⟨fs, ?_, h, fun s' hs' hl => ?_, fun _ _ => rfl, fun _ => Iff.rfl, rfl⟩
    · unfold fsync
      rw [Op.bind_of_ok (sinOf_eq hs), if_pos hcond]
      rfl
    · rw [hs] at hs'
      cases hs'
      exact hcond.resolve_left hl
  · obtain ⟨hl, hd⟩ := not_or.mp hcond
    have hr : s.removed = false := by
      cases hrr : s.removed with
      | false => rfl
      | true => exact absurd (hrem hrr) hl
    obtain ⟨L, -, ho⟩ := h.owned
    obtain ⟨hmeta, hlt⟩ := ho.node i (h.has hs)
    have hsync := fsync_eq hs hl (Bool.of_not_eq_false hd) hr (fun he => hmeta (.inl he)) hlt
    have hself : Function.update fs.cache i (some { s with dirty := false }) i = some { s with dirty := false } :=
      Function.update_self ..
    have hdin : Fs.din ⟨fs.vol.saved i s.din, fs.info,
      Function.update fs.cache i (some { s with dirty := false })⟩ i =
        fs.din i := by
      rw [Fs.din_cached hself, Fs.din_cached hs]
    suffices hput : Stores ⟨fs.vol.saved i s.din, fs.info,
      Function.update fs.cache i (some { s with dirty := false })⟩
        (Function.update t i (some (s.node fs))) c X by
      rw [← hn, Function.update_eq_self] at hput
      refine ⟨_, hsync, hput, fun s' hs' _ => ?_, fun j hj => Function.update_of_ne hj .., fun j => ?_, rfl⟩
      · cases hself.symm.trans hs'
        rfl
      · by_cases hj : j = i
        · rw [hj, hs]
          exact iff_of_false (fun hc => nomatch hself.symm.trans hc) nofun
        · exact iff_of_eq (congrArg (· = none) (Function.update_of_ne hj ..))
    refine h.recache hn rfl ⟨ho.vol.free, ho.vol.count⟩ rfl rfl rfl rfl (fun b hb => Function.update_of_ne hb ..)
      (fun j hj => Function.update_of_ne hj ..) (hdin ▸ h.behind hn) ?_ (fun hc => ?_) (fun s' hs' => ?_)
      fun s' hs' _ _ => ?_
    · -- the slots of a directory are not in its own block
      rw [Fs.node_cached hself]
      have hidx : ∀ r, (fs.lk s).role r ≠ 0 →
          (fs.vol.saved i s.din).disk ((fs.lk s).role r) = fs.vol.disk ((fs.lk s).role r) := by
        intro r h0
        have hne := ho.apart i i r (h.has hs) (h.has hs)
        unfold Fs.role at hne
        rw [Fs.din_cached hs] at hne
        exact Function.update_of_ne (hne h0) ..
      have hrole : roleAt (fs.vol.saved i s.din).disk s.din = roleAt fs.vol.disk s.din :=
        roleAt_congr (hidx .ind) (hidx .dbl) fun m => hidx (.mid m)
      have hents : Lk.ents ⟨fs.vol.saved i s.din, s.din, false⟩ = (fs.lk s).ents :=
        Lk.ents_congr (h.covered_lk hs) rfl rfl hrole fun m => hidx (.leaf m)
      unfold Sin.node nodeOf
      show (⟨_, _, _, _, _, _, _, Lk.ents ⟨fs.vol.saved i s.din, s.din, false⟩⟩ : Node) = _
      rw [hents]
      rfl
    · exact nomatch hself.symm.trans hc
    · cases hself.symm.trans hs'
      exact h.held i s hs
    · cases hself.symm.trans hs'
      exact Vol.saved_inode (ho.fits_lk hs)

/-- The loop of `sfs_sync`: by induction on the inodes that it has passed. -/
theorem syncLoop_spec (hrem : ∀ i n, t i = some n → n.removed = true → n.nlinks = 0) : ∀ (m : ℕ) {fs : Fs},
    Stores fs t c X → ∃ fs', syncLoop m fs = some (.ok (), fs') ∧ Stores fs' t c X ∧ (∀ j, j < m → fs'.Saved j) ∧
      (∀ j, fs'.cache j = none ↔ fs.cache j = none) ∧ fs'.vol.blocks = fs.vol.blocks := by
  intro m
  induction m with
  | zero => exact fun {fs} h => ⟨fs, rfl, h, fun j hj => absurd hj (Nat.not_lt_zero j), fun _ => Iff.rfl, rfl⟩
  | succ m ih =>
    intro fs h
    obtain ⟨fs₁, heq, h₁, hsaved, hcache, hblocks⟩ := ih h
    unfold syncLoop
    rw [Op.bind_of_ok heq, Op.bind_of_ok (rfl : Op.gets _ fs₁ = some (.ok (fs₁.cache m), fs₁))]
    cases hm : fs₁.cache m with
    | none =>
      refine ⟨fs₁, rfl, h₁, fun j hj s hs => ?_, hcache, hblocks⟩
      rcases Nat.lt_succ_iff_lt_or_eq.mp hj with hlt | rfl
      · exact hsaved j hlt s hs
      · rw [hm] at hs
        cases hs
    | some s =>
      obtain ⟨fs₂, heq₂, h₂, hself, hother, hcache₂, hblocks₂⟩ :=
        fsync_spec h₁ (h₁.node_of hm) (h₁.held m s hm) (hrem m _ (h₁.node_of hm))
      refine ⟨fs₂, ?_, h₂, fun j hj => ?_, fun j => (hcache₂ j).trans (hcache j), hblocks₂.trans hblocks⟩
      · rw [if_pos Option.isSome_some, Op.bind_of_ok (Op.attempt_of_eq heq₂)]
        rfl
      · by_cases hjm : j = m
        · exact hjm ▸ hself
        · intro s' hs'
          rw [hother j hjm] at hs'
          exact hsaved j (by omega) s' hs'

/-- `sfs_sync_super` and `sfs_sync_freemap`. -/
theorem syncSuper_spec (h : Stores fs t c X) : ∃ fs', syncSuper fs = some (.ok (), fs') ∧ Stores fs' t c X ∧
    fs'.cache = fs.cache ∧ fs'.vol.superDirty = false ∧ fs'.vol.blocks = fs.vol.blocks := by
  refine ⟨_, rfl, h.flush rfl rfl rfl rfl (fun b hb => ?_) fun _ => ⟨fun i _ => ?_, fun j hj i _ => ?_⟩, rfl,
    rfl, rfl⟩
  · have hmeta : b ≠ SFS_BLKN_SUPER ∧ ¬ (SFS_BLKN_FREEMAP ≤ b ∧ b < SFS_BLKN_FREEMAP + fs.vol.freemapBlocks) :=
      ⟨fun he => hb (.inl he), fun hf => hb (.inr hf)⟩
    exact (if_neg hmeta.1).trans (if_neg hmeta.2)
  · have hblock : (if SFS_BLKN_SUPER = SFS_BLKN_SUPER then superBlock fs.vol fs.info
        else if SFS_BLKN_FREEMAP ≤ SFS_BLKN_SUPER ∧ SFS_BLKN_SUPER < SFS_BLKN_FREEMAP + fs.vol.freemapBlocks then
          freemapBlock fs.vol (SFS_BLKN_SUPER - SFS_BLKN_FREEMAP)
        else fs.vol.disk SFS_BLKN_SUPER) = superBlock fs.vol fs.info := if_pos rfl
    exact congrFun hblock i
  · have hne : SFS_BLKN_FREEMAP + j ≠ SFS_BLKN_SUPER := by
      unfold SFS_BLKN_FREEMAP SFS_BLKN_SUPER
      omega
    have hin : SFS_BLKN_FREEMAP ≤ SFS_BLKN_FREEMAP + j ∧
        SFS_BLKN_FREEMAP + j < SFS_BLKN_FREEMAP + fs.vol.freemapBlocks :=
      ⟨Nat.le_add_right .., Nat.add_lt_add_left hj _⟩
    have hblock : (if SFS_BLKN_FREEMAP + j = SFS_BLKN_SUPER then superBlock fs.vol fs.info
        else if SFS_BLKN_FREEMAP ≤ SFS_BLKN_FREEMAP + j ∧
          SFS_BLKN_FREEMAP + j < SFS_BLKN_FREEMAP + fs.vol.freemapBlocks then
          freemapBlock fs.vol (SFS_BLKN_FREEMAP + j - SFS_BLKN_FREEMAP)
        else fs.vol.disk (SFS_BLKN_FREEMAP + j)) = freemapBlock fs.vol j := by
      rw [if_neg hne, if_pos hin, Nat.add_sub_cancel_left]
    exact congrFun hblock i

/-- `sfs_sync`: the device has all that is in memory, except the inodes without links. -/
theorem sync_spec (h : Stores fs t c X) (hrem : ∀ i n, t i = some n → n.removed = true → n.nlinks = 0) :
    ∃ fs', sync fs = some (.ok (), fs') ∧ Stores fs' t c X ∧ (∀ i, fs'.Saved i) ∧ fs'.vol.superDirty = false ∧
      fs'.vol.blocks = fs.vol.blocks ∧ (∀ j, fs'.cache j = none ↔ fs.cache j = none) := by
  obtain ⟨fs₁, heq, h₁, hsaved, hcache, hblocks⟩ := syncLoop_spec hrem fs.vol.blocks h
  have hall : ∀ i, fs₁.Saved i := by
    intro i s hs
    obtain ⟨L, -, ho⟩ := h₁.owned
    have hlt := (ho.node i (h₁.has hs)).2
    exact hsaved i (hblocks ▸ hlt) s hs
  unfold sync
  rw [Op.bind_of_ok (rfl : Op.gets (fun fs : Fs => fs.vol.blocks) fs = some (.ok fs.vol.blocks, fs)),
    Op.bind_of_ok heq, Op.bind_of_ok (rfl : Op.gets _ fs₁ = some (.ok fs₁.vol.superDirty, fs₁))]
  cases hsuper : fs₁.vol.superDirty with
  | false => exact ⟨fs₁, rfl, h₁, hall, hsuper, hblocks, hcache⟩
  | true =>
    obtain ⟨fs₂, heq₂, h₂, hsame, hclean, hblocks₂⟩ := syncSuper_spec h₁
    refine ⟨fs₂, heq₂, h₂, fun i s hs => ?_, hclean, hblocks₂.trans hblocks, fun j => ?_⟩
    · rw [hsame] at hs
      exact hall i s hs
    · rw [hsame]
      exact hcache j

end Sync

end Ucore.Sfs
