import Mathlib.Algebra.Order.BigOperators.Group.Finset
import Ucore.Sfs.BmapSpec

/-!
# An inode as a run of blocks

An inode that is `Filled` has the leaves `0 … blocks - 1` and no others; one that is `Solid` has these, and
what it has besides reads as zero.  `sfs_bmap_load_nolock` reads one of them or adds one at the end,
`sfs_bmap_truncate_nolock` drops the last one.

* `Touch` — what the rest of the volume sees of a change to the inode: nothing but the free blocks.
* `bmapLoad_end`, `bmapTruncate_spec` — the two operations that change the number of blocks.
* `Lk.needs` — the free blocks it takes to bring the inode to a number of blocks.
-/

namespace Ucore.Sfs

open Bytes

/-- The inode keeps its type and has changed in its own blocks only. -/
structure Local (R : ℕ → Prop) (k k' : Lk) : Prop where
  own : Own R k'.vol k'.din
  rest : ∀ c, R c → c < k.vol.blocks → k'.vol.disk c = k.vol.disk c
  blocks : k'.vol.blocks = k.vol.blocks
  type : k'.din.type = k.din.type
  superClean : k'.vol.superDirty = false →
    k.vol.superDirty = false ∧ k'.vol.freemap = k.vol.freemap ∧ k'.vol.unused = k.vol.unused

structure Touch (R : ℕ → Prop) (k k' : Lk) : Prop where
  own : Own R k'.vol k'.din
  rest : ∀ c, R c → c < k.vol.blocks → k'.vol.disk c = k.vol.disk c
  blocks : k'.vol.blocks = k.vol.blocks
  parent : k'.din.parent = k.din.parent
  type : k'.din.type = k.din.type
  nlinks : k'.din.nlinks = k.din.nlinks
  beyond : ∀ i, 12 ≤ i → k'.din.direct i = k.din.direct i
  superClean : k'.vol.superDirty = false →
    k.vol.superDirty = false ∧ k'.vol.freemap = k.vol.freemap ∧ k'.vol.unused = k.vol.unused

/-- The leaves of the inode are those below `blocks`. -/
def Lk.Filled (k : Lk) : Prop := ∀ j, k.role (.leaf j) ≠ 0 ↔ j < k.din.blocks

/-- The leaves below `blocks` are there; if `X`, a file may have others. -/
structure Lk.Covered (X : Prop) (k : Lk) : Prop where
  leaf : ∀ j, j < k.din.blocks → k.role (.leaf j) ≠ 0
  exact : (X → k.din.type = SFS_TYPE_DIR) → ∀ j, k.role (.leaf j) ≠ 0 → j < k.din.blocks

/-- The other leaves read as zero. -/
structure Lk.Solid (X : Prop) (k : Lk) : Prop extends k.Covered X where
  blank : ∀ j, k.din.blocks ≤ j → k.role (.leaf j) ≠ 0 → ∀ r, r < 4096 → k.vol.disk (k.role (.leaf j)) r = 0

/-- Byte `p` of the file. -/
def Lk.byte (k : Lk) (p : ℕ) : UInt8 := k.vol.disk (k.role (.leaf (p / 4096))) (p % 4096)

section Filled

variable {X : Prop} {k : Lk}

theorem Lk.Filled.covered (h : k.Filled) : k.Covered X := ⟨fun j => (h j).mpr, fun _ j => (h j).mp⟩

theorem Lk.Filled.solid (h : k.Filled) : k.Solid X :=
  ⟨h.covered, fun j hj h0 => absurd ((h j).mp h0) (Nat.not_lt.mpr hj)⟩

theorem Lk.Covered.filled (h : k.Covered X) (hx : X → k.din.type = SFS_TYPE_DIR) : k.Filled :=
  fun j => ⟨h.exact hx j, h.leaf j⟩

/-- There is no leaf from `NLEAF` on. -/
theorem Lk.Covered.blocks_le (h : k.Covered X) : k.din.blocks ≤ NLEAF := by
  by_contra hlt
  exact h.leaf NLEAF (Nat.not_le.mp hlt) (roleAt_beyond le_rfl)

end Filled

section Touch

variable {R : ℕ → Prop} {k k₁ k₂ : Lk}

theorem Touch.toLocal (h : Touch R k k₁) : Local R k k₁ :=
  ⟨h.own, h.rest, h.blocks, h.type, h.superClean⟩

theorem Touch.refl (h : Own R k.vol k.din) : Touch R k k :=
  ⟨h, fun _ _ _ => rfl, rfl, rfl, rfl, rfl, fun _ _ => rfl, fun hd => ⟨hd, rfl, rfl⟩⟩

theorem Touch.trans (h : Touch R k k₁) (h' : Touch R k₁ k₂) : Touch R k k₂ where
  own := h'.own
  rest c hc hlt := (h'.rest c hc (h.blocks ▸ hlt)).trans (h.rest c hc hlt)
  blocks := h'.blocks.trans h.blocks
  parent := h'.parent.trans h.parent
  type := h'.type.trans h.type
  nlinks := h'.nlinks.trans h.nlinks
  beyond i hi := (h'.beyond i hi).trans (h.beyond i hi)
  superClean hd := by
    obtain ⟨hd₁, hm₁, hu₁⟩ := h'.superClean hd
    obtain ⟨hd₀, hm₀, hu₀⟩ := h.superClean hd₁
    exact ⟨hd₀, hm₁.trans hm₀, hu₁.trans hu₀⟩

theorem Grow.touch (h : Grow R k k₁) (hk : Own R k.vol k.din) : Touch R k k₁ :=
  ⟨h.own, fun _ hc hlt => h.framed.rest hk hc hlt, h.blocks, h.head.parent, h.head.type,
    h.head.nlinks, h.head.beyond, h.superClean⟩

theorem Detach.touch {i : ℕ} (h : Detach R k i k₁) (hk : Own R k.vol k.din) : Touch R k k₁ :=
  ⟨h.own, fun _ hc hlt => h.framed.rest hk hc hlt, h.blocks, h.head.parent, h.head.type,
    h.head.nlinks, h.head.beyond, fun hd => by rw [h.super] at hd; cases hd⟩

/-- The size and the number of blocks can be anything: the block map does not depend on them. -/
theorem Touch.setInfo (h : Touch R k k₁) (info blocks : ℕ) (dirty : Bool) :
    Touch R k ⟨k₁.vol, { k₁.din with info := info, blocks := blocks }, dirty⟩ :=
  { h with own := h.own.congr h.own.vol rfl rfl (by rfl) }

end Touch

section Load

variable {R : ℕ → Prop} {X : Prop} {k : Lk} {i : ℕ}

theorem bmapLoad_inside (h : Own R k.vol k.din) (hc : k.Covered X) (hi : i < k.din.blocks) :
    bmapLoad i k = some (.ok (k.role (.leaf i)), k) := by
  have h0 := hc.leaf i hi
  have hin : assertInuse (k.role (.leaf i)) k.vol = some (.ok (), k.vol) :=
    assertInuse_eq h0 (h.inside _ h0) (h.inuse h0)
  unfold bmapLoad
  rw [Op.bind_of_ok (rfl : Op.gets _ k = some (.ok k.din.blocks, k)),
    Op.bind_of_ok (if_pos hi.le : Op.assert (i ≤ k.din.blocks) k = some (.ok (), k)),
    Op.bind_of_ok (bmapGet_read h h0 _), Op.bind_of_ok (onVol_of_ok hin), if_neg (by omega)]
  rfl

/-- What `sfs_bmap_load_nolock` leaves at the end of the file, whether or not a block was found. -/
structure Extend (R : ℕ → Prop) (k k' : Lk) : Prop extends Touch R k k' where
  solid : ∀ X, k.Solid X → k'.Solid X
  info : k'.din.info = k.din.info
  leaf : ∀ j, k.role (.leaf j) ≠ 0 → k'.role (.leaf j) = k.role (.leaf j)
  same : ∀ j, k.role (.leaf j) ≠ 0 → k'.vol.disk (k.role (.leaf j)) = k.vol.disk (k.role (.leaf j))

theorem Extend.filled {k' : Lk} (h : Extend R k k') (hf : k.Filled) : k'.Filled :=
  (h.solid False hf.solid).filled nofun

/-- The inode has one block more, which reads as zero. -/
structure Added (R : ℕ → Prop) (k : Lk) (b : ℕ) (k' : Lk) : Prop extends Extend R k k' where
  dinBlocks : k'.din.blocks = k.din.blocks + 1
  last : k'.role (.leaf k.din.blocks) = b
  present : b ≠ 0
  clear : ∀ r, r < 4096 → k'.vol.disk b r = 0
  unused : k.vol.unused ≤ k'.vol.unused + k.need k.din.blocks
  others : ∀ r, ¬ OnPath k.din.blocks r → k'.role r = k.role r
  clean : k'.dirty = false → k.dirty = false ∧ k'.din = { k.din with blocks := k.din.blocks + 1 }

/-- There was no block for it. -/
structure Refused (R : ℕ → Prop) (k k' : Lk) : Prop extends Extend R k k' where
  dinBlocks : k'.din.blocks = k.din.blocks
  leaves : ∀ j, k'.role (.leaf j) = k.role (.leaf j)
  unused : k.vol.unused < k.need k.din.blocks
  clean : k'.dirty = false → k.dirty = false ∧ k'.din = k.din

theorem GrowAt.leaf_of_ne {k' : Lk} (h : GrowAt R k.din.blocks k k') {j : ℕ}
    (hj : j ≠ k.din.blocks) : k'.role (.leaf j) = k.role (.leaf j) :=
  h.others (.leaf j) (by unfold OnPath; omega)

/-- The leaf at the end was missing; it is there now if the inode counts one block more. -/
theorem GrowAt.extend {k' : Lk} (h : GrowAt R k.din.blocks k k') (hk : Own R k.vol k.din)
    (hend : k.role (.leaf k.din.blocks) = 0) {n : ℕ}
    (hlast : k'.role (.leaf k.din.blocks) ≠ 0 ↔ k.din.blocks < n)
    (hn : n = k.din.blocks ∨ n = k.din.blocks + 1) :
    Extend R k { k' with din := { k'.din with blocks := n } } where
  toTouch := (h.toGrow.touch hk).setInfo k'.din.info n k'.dirty
  solid X hs := by
    refine ⟨⟨fun j hj => ?_, fun hx j h0 => ?_⟩, fun j hj h0 => ?_⟩
    · by_cases hje : j = k.din.blocks
      · subst hje
        exact hlast.mpr hj
      · have hj' : j < n := hj
        show k'.role (.leaf j) ≠ 0
        rw [h.leaf_of_ne hje]
        exact hs.leaf j (by omega)
    · have h0' : k'.role (.leaf j) ≠ 0 := h0
      by_cases hje : j = k.din.blocks
      · subst hje
        exact hlast.mp h0'
      · rw [h.leaf_of_ne hje] at h0'
        have := hs.exact (fun hX => h.head.type ▸ hx hX) j h0'
        show j < n
        omega
    · have h0' : k'.role (.leaf j) ≠ 0 := h0
      have hj' : n ≤ j := hj
      have hje : j ≠ k.din.blocks := by
        rintro rfl
        have := hlast.mp h0'
        omega
      rw [h.leaf_of_ne hje] at h0'
      show ∀ r, r < 4096 → k'.vol.disk (k'.role (.leaf j)) r = 0
      rw [h.leaf_of_ne hje, h.framed.leaf hk h0']
      exact hs.blank j (by omega) h0'
  info := h.head.info
  leaf j h0 := h.leaf_of_ne fun hj => h0 (hj ▸ hend)
  same j h0 := h.framed.leaf hk h0

/-- A leaf beyond the end is there already. -/
theorem bmapLoad_stray (h : Own R k.vol k.din) (hs : k.Solid X) (h0 : k.role (.leaf k.din.blocks) ≠ 0) :
    ∃ k', bmapLoad k.din.blocks k = some (.ok (k.role (.leaf k.din.blocks)), k') ∧
      Added R k (k.role (.leaf k.din.blocks)) k' := by
  have hin : assertInuse (k.role (.leaf k.din.blocks)) k.vol = some (.ok (), k.vol) :=
    assertInuse_eq h0 (h.inside _ h0) (h.inuse h0)
  refine ⟨{ k with din := { k.din with blocks := k.din.blocks + 1 } }, ?_, ?_⟩
  · unfold bmapLoad
    rw [Op.bind_of_ok (rfl : Op.gets _ k = some (.ok k.din.blocks, k)),
      Op.bind_of_ok (if_pos le_rfl : Op.assert (k.din.blocks ≤ k.din.blocks) k = some (.ok (), k)),
      Op.bind_of_ok (bmapGet_read h h0 _), Op.bind_of_ok (onVol_of_ok hin), if_pos rfl]
    rfl
  · refine ⟨⟨(Touch.refl h).setInfo k.din.info (k.din.blocks + 1) k.dirty, fun Y hY => ?_, rfl,
      fun _ _ => rfl, fun _ _ => rfl⟩, rfl, rfl, h0, hs.blank _ le_rfl h0, Nat.le_add_right .., fun _ _ => rfl,
      fun hd => ⟨hd, rfl⟩⟩
    refine ⟨⟨fun j hj => ?_, fun hx j hj => ?_⟩, fun j hj hj0 => ?_⟩
    · have hj' : j < k.din.blocks + 1 := hj
      by_cases hje : j = k.din.blocks
      · rw [hje]
        exact h0
      · exact hY.leaf j (by omega)
    · have := hY.exact hx j hj
      show j < k.din.blocks + 1
      omega
    · have hj' : k.din.blocks + 1 ≤ j := hj
      exact hY.blank j (by omega) hj0

/-- A block is added to the inode, or there is none. -/
theorem bmapLoad_end (h : Own R k.vol k.din) (hs : k.Solid X) (hlt : k.din.blocks < NLEAF) :
    Op.wp (bmapLoad k.din.blocks) (fun r k' =>
      (∃ b, r = .ok b ∧ Added R k b k') ∨ (r = .error .noMem ∧ Refused R k k')) k := by
  by_cases h0 : k.role (.leaf k.din.blocks) = 0
  · unfold bmapLoad
    rw [Op.wp_bind_gets, Op.wp_bind_assert]
    refine ⟨le_rfl, ?_⟩
    rw [show decide (k.din.blocks = k.din.blocks) = true by simp, Op.wp_bind]
    refine Op.wp_mono (bmapGet_spec h hlt h0) ?_
    rintro r k' ⟨hg, ⟨b, rfl, hb, hrole, hclear, hu⟩ | ⟨rfl, hrole, hu⟩⟩
    · have hb0 : b ≠ 0 := (h.vol.free b hb).1
      have hne : k'.role (.leaf k.din.blocks) ≠ 0 := hrole ▸ hb0
      have hin : assertInuse b k'.vol = some (.ok (), k'.vol) :=
        assertInuse_eq hb0 (hrole ▸ hg.own.inside _ hne) (hrole ▸ hg.own.inuse hne)
      dsimp only
      rw [Op.wp_bind_of_ok (onVol_of_ok hin), if_pos rfl]
      refine .inl ⟨b, rfl, ⟨hg.extend h h0 (iff_of_true hne (by omega)) (.inr rfl), rfl, hrole, hb0,
        fun r _ => congrFun hclear r,
        hu.ge, hg.others, fun hd => ?_⟩⟩
      obtain ⟨hd', hdin⟩ := hg.clean hd
      exact ⟨hd', by rw [hdin]⟩
    · have hsame : { k' with din := { k'.din with blocks := k.din.blocks } } = k' := by
        rw [← hg.dinBlocks]
      have hext := hg.extend h h0 (n := k.din.blocks) (by rw [hrole]; simp) (.inl rfl)
      rw [hsame] at hext
      refine .inr ⟨rfl, hext, hg.dinBlocks, fun j => ?_, hu, hg.clean⟩
      by_cases hj : j = k.din.blocks
      · rw [hj, hrole, h0]
      · exact hg.leaf_of_ne hj
  · obtain ⟨k', heq, ha⟩ := bmapLoad_stray h hs h0
    exact Op.wp_iff.mpr ⟨_, _, heq, .inl ⟨_, rfl, ha⟩⟩

/-- The inode has lost its last block. -/
structure Dropped (R : ℕ → Prop) (k k' : Lk) : Prop extends Touch R k k' where
  solid : ∀ X, k.Solid X → k'.Solid X
  info : k'.din.info = k.din.info
  dinBlocks : k'.din.blocks + 1 = k.din.blocks
  leaf : ∀ j, k'.role (.leaf j) = if j = k'.din.blocks then 0 else k.role (.leaf j)
  same : ∀ j, k.role (.leaf j) ≠ 0 → k'.vol.disk (k.role (.leaf j)) = k.vol.disk (k.role (.leaf j))
  index : ∀ r, r.isIndex = true → k'.role r = k.role r
  unused : k'.vol.unused = k.vol.unused + 1
  dirty : k'.dirty = true

theorem bmapTruncate_spec (h : Own R k.vol k.din) (hc : k.Covered X) (h0 : k.din.blocks ≠ 0) :
    ∃ k', bmapTruncate k = some (.ok (), k') ∧ Dropped R k k' := by
  have hlast := hc.leaf (k.din.blocks - 1) (by omega)
  obtain ⟨k₁, hk₁, hd⟩ := bmapFree_spec h hlast
  have hleaf : ∀ j, k₁.role (.leaf j) = if j = k.din.blocks - 1 then 0 else k.role (.leaf j) := by
    intro j
    rw [hd.role]
    by_cases hj : j = k.din.blocks - 1
    · rw [if_pos hj, if_pos (by rw [hj])]
    · rw [if_neg hj, if_neg (by simpa using hj)]
  refine ⟨⟨k₁.vol, { k₁.din with blocks := k.din.blocks - 1 }, true⟩, ?_, ?_⟩
  · unfold bmapTruncate
    rw [Op.bind_of_ok (rfl : Op.gets _ k = some (.ok k.din.blocks, k)),
      Op.bind_of_ok (if_pos h0 : Op.assert (k.din.blocks ≠ 0) k = some (.ok (), k)),
      Op.bind_of_ok hk₁]
    rfl
  · refine ⟨(hd.touch h).setInfo k₁.din.info _ true, fun Y hY => ⟨⟨fun j hj => ?_, fun hx j hj => ?_⟩,
      fun j hj hj0 => ?_⟩, hd.head.info, Nat.sub_add_cancel (by omega), hleaf,
      fun j hj => hd.framed.leaf h hj, fun r hr => ?_, hd.unused, rfl⟩
    · have hj' : j < k.din.blocks - 1 := hj
      show k₁.role (.leaf j) ≠ 0
      rw [hleaf, if_neg (by omega)]
      exact hY.leaf j (by omega)
    · have hj' : k₁.role (.leaf j) ≠ 0 := hj
      show j < k.din.blocks - 1
      rw [hleaf] at hj'
      split at hj'
      · exact absurd rfl hj'
      · have := hY.exact (fun hX => hd.head.type ▸ hx hX) j hj'
        omega
    · have hj' : k.din.blocks - 1 ≤ j := hj
      have hj1 : k₁.role (.leaf j) ≠ 0 := hj0
      show ∀ r, r < 4096 → k₁.vol.disk (k₁.role (.leaf j)) r = 0
      rw [hleaf] at hj1 ⊢
      split at hj1
      · exact absurd rfl hj1
      · rename_i hne
        rw [if_neg hne, hd.framed.leaf h hj1]
        exact hY.blank j (by omega) hj1
    · exact (hd.role _).trans (if_neg fun he => by rw [he] at hr; cases hr)

end Load

/-! ## How many blocks it takes -/

/-- 1 if the inode has no block in the role. -/
def Lk.lacks (k : Lk) (r : Role) : ℕ := if k.role r = 0 then 1 else 0

/-- The free blocks it takes to bring the inode to `m` blocks, index blocks included. -/
def Lk.needs (k : Lk) (m : ℕ) : ℕ :=
  (m - k.din.blocks) + (if 12 < m then k.lacks .ind else 0) +
    (if 1036 < m then k.lacks .dbl else 0) +
    ∑ j ∈ Finset.range (roundupDiv (m - 1036) 1024), k.lacks (.mid j)

section Needs

variable {R : ℕ → Prop} {k k' : Lk} {b m i : ℕ}

/-- What leaf `i` needs, role by role. -/
theorem Lk.need_eq (hi : i < NLEAF) : k.need i = 1 +
    (if 12 ≤ i ∧ i < 1036 then k.lacks .ind else 0) +
    (if 1036 ≤ i then k.lacks .dbl + k.lacks (.mid ((i - 1036) / 1024)) else 0) := by
  have hind : k.lacks .ind = if k.din.indirect = 0 then 1 else 0 := rfl
  have hdbl : k.lacks .dbl = if k.din.dbIndirect = 0 then 1 else 0 := rfl
  have hmid : ∀ j, k.lacks (.mid j) = if k.role (.mid j) = 0 then 1 else 0 := fun _ => rfl
  unfold Lk.need
  by_cases h1 : i < 12
  · have h2 : ¬ (12 ≤ i ∧ i < 1036) := by omega
    have h3 : ¬ 1036 ≤ i := by omega
    rw [if_pos h1, if_neg h2, if_neg h3]
  rw [if_neg h1]
  by_cases h2 : i < 1036
  · have h3 : 12 ≤ i ∧ i < 1036 := by omega
    have h4 : ¬ 1036 ≤ i := by omega
    rw [if_pos h2, if_pos h3, if_neg h4, hind]
    split <;> rfl
  have h3 : ¬ (12 ≤ i ∧ i < 1036) := by omega
  have h4 : 1036 ≤ i := by omega
  have hj : (i - 1036) / 1024 < 1024 := by unfold NLEAF at hi; omega
  rw [if_neg h2, if_neg h3, if_pos h4, hdbl, hmid]
  by_cases h5 : k.din.dbIndirect = 0
  · have h6 : k.role (.mid ((i - 1036) / 1024)) = 0 := by
      refine (roleAt_mid hj).trans ?_
      rw [h5, entryAt_zero]
    simp only [if_pos h5, if_pos h6]
  · simp only [if_neg h5]
    split <;> rfl

theorem Added.lacks (h : Added R k b k') {r : Role} (hr : ¬ OnPath k.din.blocks r) :
    k'.lacks r = k.lacks r := by
  unfold Lk.lacks
  rw [h.others r hr]

/-- The way to the new block exists now. -/
theorem Added.lacks_path (h : Added R k b k') (hlt : k.din.blocks < NLEAF) {r : Role}
    (hr : OnPath k.din.blocks r) : k'.lacks r = 0 := by
  have hne : k'.role (.leaf k.din.blocks) ≠ 0 := h.last ▸ h.present
  refine if_neg fun h0 => hne ?_
  generalize hi : k.din.blocks = i at hr hlt hne ⊢
  cases r with
  | leaf j =>
    have hj : j = i := hr
    rwa [hj] at h0
  | ind =>
    obtain ⟨h1, h2⟩ : 12 ≤ i ∧ i < 1036 := hr
    have hrole : k'.role (.leaf (12 + (i - 12))) = entryAt k'.vol.disk k'.din.indirect (i - 12) :=
      roleAt_indirect (by omega)
    rw [Nat.add_sub_cancel' h1, show k'.din.indirect = 0 from h0, entryAt_zero] at hrole
    exact hrole
  | dbl =>
    have h1 : 1036 ≤ i := hr
    by_contra hne'
    obtain ⟨hdbl, -⟩ := role_double_ne_zero (k := k') (j := (i - 1036) / 1024)
      (i := (i - 1036) % 1024) (by unfold NLEAF at hlt; omega) (by omega)
      (by rwa [show 1036 + (1024 * ((i - 1036) / 1024) + (i - 1036) % 1024) = i by omega])
    exact hdbl h0
  | mid j =>
    obtain ⟨h1, rfl⟩ : 1036 ≤ i ∧ j = (i - 1036) / 1024 := hr
    by_contra hne'
    obtain ⟨-, hmid⟩ := role_double_ne_zero (k := k') (j := (i - 1036) / 1024)
      (i := (i - 1036) % 1024) (by unfold NLEAF at hlt; omega) (by omega)
      (by rwa [show 1036 + (1024 * ((i - 1036) / 1024) + (i - 1036) % 1024) = i by omega])
    exact hmid h0

/-- The middle blocks that are missing, of which at most the one on the way is found. -/
theorem Added.sum_mid (h : Added R k b k') (hlt : k.din.blocks < NLEAF) (hm : k.din.blocks < m) :
    ∑ j ∈ Finset.range (roundupDiv (m - 1036) 1024), k'.lacks (.mid j) +
      (if 1036 ≤ k.din.blocks then k.lacks (.mid ((k.din.blocks - 1036) / 1024)) else 0) =
    ∑ j ∈ Finset.range (roundupDiv (m - 1036) 1024), k.lacks (.mid j) := by
  by_cases h1 : 1036 ≤ k.din.blocks
  · have hmem : (k.din.blocks - 1036) / 1024 ∈ Finset.range (roundupDiv (m - 1036) 1024) := by
      rw [Finset.mem_range]
      unfold roundupDiv
      omega
    rw [if_pos h1, ← Finset.sum_erase_add _ _ hmem, ← Finset.sum_erase_add _ _ hmem,
      h.lacks_path (r := .mid _) hlt ⟨h1, rfl⟩, Nat.add_zero]
    congr 1
    refine Finset.sum_congr rfl fun j hj => h.lacks fun hp => ?_
    exact (Finset.mem_erase.mp hj).1 hp.2
  · rw [if_neg h1, Nat.add_zero]
    exact Finset.sum_congr rfl fun j _ => h.lacks fun hp => h1 hp.1

/-- A block that is added uses up its part of what is needed. -/
theorem Added.needs (h : Added R k b k') (hlt : k.din.blocks < NLEAF) (hm : k.din.blocks < m) :
    k'.needs m + k.need k.din.blocks = k.needs m := by
  have hmid := h.sum_mid hlt hm
  have hind : k'.lacks .ind + (if 12 ≤ k.din.blocks ∧ k.din.blocks < 1036 then k.lacks .ind else 0) =
      k.lacks .ind := by
    split
    · rename_i hp
      rw [h.lacks_path (r := .ind) hlt hp, Nat.zero_add]
    · rename_i hp
      rw [h.lacks (r := .ind) hp, Nat.add_zero]
  have hdbl : k'.lacks .dbl + (if 1036 ≤ k.din.blocks then k.lacks .dbl else 0) = k.lacks .dbl := by
    split
    · rename_i hp
      rw [h.lacks_path (r := .dbl) hlt hp, Nat.zero_add]
    · rename_i hp
      rw [h.lacks (r := .dbl) hp, Nat.add_zero]
  rw [Lk.need_eq hlt]
  unfold Lk.needs
  rw [h.dinBlocks]
  by_cases h1 : 1036 ≤ k.din.blocks
  · have h2 : ¬ (12 ≤ k.din.blocks ∧ k.din.blocks < 1036) := by omega
    have h3 : 12 < m := by omega
    have h4 : 1036 < m := by omega
    simp only [h1, h2, h3, h4, if_true, if_false] at hmid hind hdbl ⊢
    omega
  · simp only [h1, if_false] at hmid hdbl ⊢
    by_cases h2 : 12 ≤ k.din.blocks
    · have h3 : 12 ≤ k.din.blocks ∧ k.din.blocks < 1036 := by omega
      have h4 : 12 < m := by omega
      simp only [h3, h4, and_self, if_true] at hind ⊢
      split <;> omega
    · have h3 : ¬ (12 ≤ k.din.blocks ∧ k.din.blocks < 1036) := by omega
      simp only [h3, if_false] at hind ⊢
      split <;> split <;> omega

/-- The first of several blocks does not take more than all of them. -/
theorem Lk.need_le_needs (hlt : k.din.blocks < NLEAF) (hm : k.din.blocks < m) :
    k.need k.din.blocks ≤ k.needs m := by
  rw [Lk.need_eq hlt]
  unfold Lk.needs
  by_cases h1 : 1036 ≤ k.din.blocks
  · have hmem : (k.din.blocks - 1036) / 1024 ∈ Finset.range (roundupDiv (m - 1036) 1024) := by
      rw [Finset.mem_range]
      unfold roundupDiv
      omega
    have hle := Finset.single_le_sum (f := fun j => k.lacks (.mid j)) (fun _ _ => Nat.zero_le _) hmem
    have h2 : ¬ (12 ≤ k.din.blocks ∧ k.din.blocks < 1036) := by omega
    have h3 : 1036 < m := by omega
    simp only [h1, h2, h3, if_true, if_false]
    omega
  · by_cases h2 : 12 ≤ k.din.blocks
    · have h3 : 12 ≤ k.din.blocks ∧ k.din.blocks < 1036 := by omega
      have h4 : 12 < m := by omega
      simp only [h1, h3, h4, and_self, if_true, if_false]
      omega
    · have h3 : ¬ (12 ≤ k.din.blocks ∧ k.din.blocks < 1036) := by omega
      simp only [h1, h3, if_false]
      omega

end Needs

end Ucore.Sfs
