import Ucore.Sfs.BmapInv

/-!
# What the block map operations do

* `Attach` — one free block has entered an empty role; the six places a block number can be stored
  in each give one.
* `Grow` — what the inode had it still has, new blocks were free before, and nothing else is touched.
* `bmapLoad_spec` — a block below the end is found; one at the end is allocated, or space has run
  out.
* `bmapTruncate_spec` — the last block is freed.
-/

namespace Ucore.Sfs

open Bytes Occurrence

def Lk.role (k : Lk) : Role → ℕ := roleAt k.vol.disk k.din

def Role.isIndex : Role → Bool
  | .leaf _ => false
  | _ => true

/-- The part of a disk inode that the block map does not look at is the same. -/
structure SameHead (d d' : DiskInode) : Prop where
  info : d'.info = d.info
  parent : d'.parent = d.parent
  type : d'.type = d.type
  nlinks : d'.nlinks = d.nlinks
  beyond : ∀ i, 12 ≤ i → d'.direct i = d.direct i

theorem SameHead.refl (d : DiskInode) : SameHead d d := ⟨rfl, rfl, rfl, rfl, fun _ _ => rfl⟩

theorem SameHead.setDirect (d : DiskInode) {i : ℕ} (hi : i < 12) (b : ℕ) :
    SameHead d { d with direct := Function.update d.direct i b } :=
  ⟨rfl, rfl, rfl, rfl, fun _ hj => Function.update_of_ne (by omega) ..⟩

theorem SameHead.trans {d₁ d₂ d₃ : DiskInode} (h : SameHead d₁ d₂) (h' : SameHead d₂ d₃) :
    SameHead d₁ d₃ :=
  ⟨h'.info.trans h.info, h'.parent.trans h.parent, h'.type.trans h.type, h'.nlinks.trans h.nlinks,
    fun i hi => (h'.beyond i hi).trans (h.beyond i hi)⟩

/-- The contents of blocks that were in use change only in the index blocks of the inode. -/
def Framed (k k' : Lk) : Prop := ∀ c, k.vol.freemap c = false →
  (∀ r, r.isIndex = true → k.role r = c → c = 0) → k'.vol.disk c = k.vol.disk c

section Framed

variable {R : ℕ → Prop} {k k' : Lk}

/-- The contents of the blocks of others do not change. -/
theorem Framed.rest {c : ℕ} (h : Framed k k') (hk : Own R k.vol k.din) (hc : R c)
    (hlt : c < k.vol.blocks) : k'.vol.disk c = k.vol.disk c := by
  refine h c ((hk.used c hlt).mpr (.inl hc)) fun r _ hr => ?_
  by_contra h0
  have hR : R (k.role r) := hr ▸ hc
  exact hk.apart r (hr ▸ h0 : k.role r ≠ 0) hR

/-- The contents of the file do not change. -/
theorem Framed.leaf {i : ℕ} (h : Framed k k') (hk : Own R k.vol k.din) (hi : k.role (.leaf i) ≠ 0) :
    k'.vol.disk (k.role (.leaf i)) = k.vol.disk (k.role (.leaf i)) := by
  refine h _ (hk.inuse hi) fun r hr he => ?_
  have := hk.inj (.leaf i) r hi he.symm
  subst this
  cases hr

end Framed

structure Grow (R : ℕ → Prop) (k k' : Lk) : Prop where
  own : Own R k'.vol k'.din
  keep : ∀ r, k.role r ≠ 0 → k'.role r = k.role r
  fresh : ∀ r, k.role r = 0 → k'.role r ≠ 0 → k.vol.freemap (k'.role r) = true
  framed : Framed k k'
  map : ∀ c, k'.vol.freemap c = true → k.vol.freemap c = true
  blocks : k'.vol.blocks = k.vol.blocks
  head : SameHead k.din k'.din
  dinBlocks : k'.din.blocks = k.din.blocks
  clean : k'.dirty = false → k.dirty = false ∧ k'.din = k.din
  superClean : k'.vol.superDirty = false →
    k.vol.superDirty = false ∧ k'.vol.freemap = k.vol.freemap ∧ k'.vol.unused = k.vol.unused

namespace Grow

variable {R : ℕ → Prop} {k k₁ k₂ : Lk}

theorem refl (h : Own R k.vol k.din) : Grow R k k :=
  ⟨h, fun _ _ => rfl, fun _ h0 hne => absurd h0 hne, fun _ _ _ => rfl, fun _ hc => hc, rfl,
    SameHead.refl _, rfl, fun hd => ⟨hd, rfl⟩, fun hd => ⟨hd, rfl, rfl⟩⟩

theorem used {c : ℕ} (h : Grow R k k₁) (hc : k.vol.freemap c = false) : k₁.vol.freemap c = false :=
  Bool.eq_false_iff.mpr fun hf => absurd (h.map c hf) (by rw [hc]; simp)

theorem trans (h : Grow R k k₁) (h' : Grow R k₁ k₂) : Grow R k k₂ where
  own := h'.own
  keep r hr := by
    have hk := h.keep r hr
    rw [h'.keep r (hk ▸ hr), hk]
  fresh r h0 hne := by
    by_cases h1 : k₁.role r = 0
    · exact h.map _ (h'.fresh r h1 hne)
    · rw [h'.keep r h1]
      exact h.fresh r h0 h1
  framed c hc hr := by
    refine (h'.framed c (h.used hc) fun r hi he => ?_).trans (h.framed c hc hr)
    by_cases h0 : k.role r = 0
    · by_contra hc0
      have hf := h.fresh r h0 (he ▸ hc0)
      rw [he, hc] at hf
      cases hf
    · exact hr r hi ((h.keep r h0).symm.trans he)
  map c hc := h.map c (h'.map c hc)
  blocks := h'.blocks.trans h.blocks
  head := h.head.trans h'.head
  dinBlocks := h'.dinBlocks.trans h.dinBlocks
  clean hd := ⟨(h.clean (h'.clean hd).1).1, (h'.clean hd).2.trans (h.clean (h'.clean hd).1).2⟩
  superClean hd := by
    obtain ⟨hd₁, hm₁, hu₁⟩ := h'.superClean hd
    obtain ⟨hd₀, hm₀, hu₀⟩ := h.superClean hd₁
    exact ⟨hd₀, hm₁.trans hm₀, hu₁.trans hu₀⟩

end Grow

/-- One free block has entered a role. -/
structure Attach (R : ℕ → Prop) (k : Lk) (r : Role) (b : ℕ) (k' : Lk) : Prop where
  free : k.vol.freemap b = true
  grow : Grow R k k'
  role : ∀ r', k'.role r' = if r' = r then b else k.role r'
  clear : k'.vol.disk b = fun _ => 0
  unused : k'.vol.unused + 1 = k.vol.unused

section Attach

variable {R : ℕ → Prop} {k k' : Lk} {r : Role} {b : ℕ}

theorem Attach.intro (h : Own R k.vol k.din) (hb : k.vol.freemap b = true) (hr : k.role r = 0)
    (hrole : ∀ r', k'.role r' = if r' = r then b else k.role r') (hok : k'.vol.Ok)
    (hblocks : k'.vol.blocks = k.vol.blocks)
    (hmap : k'.vol.freemap = Function.update k.vol.freemap b false)
    (hunused : k'.vol.unused = k.vol.unused - 1) (hsuper : k'.vol.superDirty = true)
    (hclear : k'.vol.disk b = fun _ => 0)
    (hframe : ∀ c, c ≠ b → (∀ r, r.isIndex = true → k.role r = c → c = 0) →
      k'.vol.disk c = k.vol.disk c)
    (hhead : SameHead k.din k'.din) (hdin : k'.din.blocks = k.din.blocks)
    (hclean : k'.dirty = false → k.dirty = false ∧ k'.din = k.din) : Attach R k r b k' := by
  have hpos := h.vol.unused_pos hb
  refine ⟨hb, ⟨h.attach hb hr hok hblocks hmap hrole, fun r' hr' => ?_, fun r' h0 hne => ?_,
    fun c hc hidx => ?_, fun c hc => ?_, hblocks, hhead, hdin, hclean, fun hd => ?_⟩, hrole, hclear,
    by omega⟩
  · rw [hrole, if_neg]
    intro he
    exact hr' (he ▸ hr)
  · rw [hrole] at hne ⊢
    by_cases he : r' = r
    · rw [if_pos he]
      exact hb
    · rw [if_neg he] at hne
      exact absurd h0 hne
  · refine hframe c (fun he => ?_) hidx
    rw [he, hb] at hc
    cases hc
  · rw [hmap] at hc
    by_cases he : c = b
    · rw [he]
      exact hb
    · rwa [Function.update_of_ne he] at hc
  · rw [hsuper] at hd
    cases hd

theorem take_disk_of_ne {v : Vol} {c : ℕ} (h : c ≠ b) : (v.take b).disk c = v.disk c :=
  Function.update_of_ne h ..

theorem take_disk_self {v : Vol} : (v.take b).disk b = fun _ => 0 := Function.update_self ..

/-- A free block can be cleared without any effect on the inode. -/
theorem role_take (h : Own R k.vol k.din) (hb : k.vol.freemap b = true) :
    roleAt (k.vol.take b).disk k.din = k.role :=
  roleAt_congr (fun _ => take_disk_of_ne (h.ne_free (r := .ind) hb))
    (fun _ => take_disk_of_ne (h.ne_free (r := .dbl) hb))
    (fun j _ => take_disk_of_ne (h.ne_free (r := .mid j) hb))

theorem attach_direct (h : Own R k.vol k.din) (hb : k.vol.freemap b = true) {i : ℕ} (hi : i < 12)
    (h0 : k.role (.leaf i) = 0) : Attach R k (.leaf i) b ⟨k.vol.take b,
      { k.din with direct := Function.update k.din.direct i b }, true⟩ := by
  refine .intro h hb h0 (fun r' => ?_) (h.vol.take hb) rfl rfl rfl rfl take_disk_self
    (fun c hc _ => take_disk_of_ne hc) (SameHead.setDirect _ hi b) rfl (by simp)
  have hset : roleAt (k.vol.take b).disk
      { k.din with direct := Function.update k.din.direct i b } r' = _ := roleAt_setDirect hi r'
  rw [role_take h hb] at hset
  exact hset

theorem attach_ind (h : Own R k.vol k.din) (hb : k.vol.freemap b = true) (h0 : k.din.indirect = 0) :
    Attach R k .ind b ⟨k.vol.take b, { k.din with indirect := b }, true⟩ := by
  refine .intro h hb h0 (fun r' => ?_) (h.vol.take hb) rfl rfl rfl rfl take_disk_self
    (fun c hc _ => take_disk_of_ne hc) ⟨rfl, rfl, rfl, rfl, fun _ _ => rfl⟩ rfl (by simp)
  have hset := roleAt_setIndirect (d := k.din) h0 (take_disk_self (b := b) (v := k.vol)) r'
  rw [role_take h hb] at hset
  exact hset

theorem attach_dbl (h : Own R k.vol k.din) (hb : k.vol.freemap b = true)
    (h0 : k.din.dbIndirect = 0) :
    Attach R k .dbl b ⟨k.vol.take b, { k.din with dbIndirect := b }, true⟩ := by
  refine .intro h hb h0 (fun r' => ?_) (h.vol.take hb) rfl rfl rfl rfl take_disk_self
    (fun c hc _ => take_disk_of_ne hc) ⟨rfl, rfl, rfl, rfl, fun _ _ => rfl⟩ rfl (by simp)
  have hset := roleAt_setDbIndirect (d := k.din) h0 (take_disk_self (b := b) (v := k.vol)) r'
  rw [role_take h hb] at hset
  exact hset

/-- A new block is entered in word `i` of the index block that has role `c`. -/
theorem attach_word (h : Own R k.vol k.din) (hb : k.vol.freemap b = true) {c : Role} {i : ℕ}
    (hc : c.isIndex = true) (hc0 : k.role c ≠ 0) (hr : k.role r = 0)
    (hrole : ∀ r', roleAt (setWord (k.vol.take b).disk (k.role c) i b) k.din r' =
      if r' = r then b else roleAt (k.vol.take b).disk k.din r') :
    Attach R k r b ⟨(k.vol.take b).setWord (k.role c) i b, k.din, k.dirty⟩ := by
  have hne : k.role c ≠ b := h.ne_free hb
  refine .intro h hb hr (fun r' => ?_) ((h.vol.take hb).setWord _ _ _) rfl rfl rfl rfl ?_ ?_
    (SameHead.refl _) rfl (fun hd => ⟨hd, rfl⟩)
  · have hset := hrole r'
    rw [role_take h hb] at hset
    exact hset
  · exact (Function.update_of_ne hne.symm ..).trans take_disk_self
  · intro c' hc' hidx
    have hcc : c' ≠ k.role c := fun he => hc0 (he ▸ hidx c hc he.symm)
    exact (Function.update_of_ne hcc ..).trans (take_disk_of_ne hc')

theorem distinct_take (h : Own R k.vol k.din) (hb : k.vol.freemap b = true) :
    Distinct (k.vol.take b).disk k.din := by
  intro r r' hne heq
  rw [role_take h hb] at hne heq
  exact h.inj r r' hne heq

theorem Own.free_lt (h : Own R k.vol k.din) (hb : k.vol.freemap b = true) : b < 2 ^ 32 :=
  Nat.lt_of_lt_of_le (h.vol.free b hb).2 h.small

theorem attach_indirect (h : Own R k.vol k.din) (hb : k.vol.freemap b = true) {i : ℕ} (hi : i < 1024)
    (hc0 : k.din.indirect ≠ 0) (h0 : k.role (.leaf (12 + i)) = 0) :
    Attach R k (.leaf (12 + i)) b ⟨(k.vol.take b).setWord k.din.indirect i b, k.din, k.dirty⟩ :=
  attach_word (c := .ind) h hb rfl hc0 h0 fun r' =>
    roleAt_setWord_indirect (distinct_take h hb) hc0 hi (h.free_lt hb) r'

theorem attach_mid (h : Own R k.vol k.din) (hb : k.vol.freemap b = true) {j : ℕ} (hj : j < 1024)
    (hc0 : k.din.dbIndirect ≠ 0) (h0 : k.role (.mid j) = 0) :
    Attach R k (.mid j) b ⟨(k.vol.take b).setWord k.din.dbIndirect j b, k.din, k.dirty⟩ := by
  refine attach_word (c := .dbl) h hb rfl hc0 h0 fun r' => ?_
  refine roleAt_setWord_mid (distinct_take h hb) hc0 hj (h.free_lt hb)
    (h.ne_free (r := .dbl) hb).symm (fun i _ => ?_) r'
  have hmid : roleAt (k.vol.take b).disk k.din (.mid j) = 0 := by
    rw [role_take h hb]
    exact h0
  rw [hmid, entryAt_zero, entryAt_clear take_disk_self]

theorem attach_double (h : Own R k.vol k.din) (hb : k.vol.freemap b = true) {j i : ℕ}
    (hj : j < 1024) (hi : i < 1024) (hc0 : k.role (.mid j) ≠ 0)
    (h0 : k.role (.leaf (1036 + (1024 * j + i))) = 0) :
    Attach R k (.leaf (1036 + (1024 * j + i))) b
      ⟨(k.vol.take b).setWord (k.role (.mid j)) i b, k.din, k.dirty⟩ := by
  refine attach_word (c := .mid j) h hb rfl hc0 h0 fun r' => ?_
  have hrole := role_take h hb
  have hset := roleAt_setWord_double (distinct_take h hb) hj (by rw [hrole]; exact hc0) hi
    (h.free_lt hb) r'
  rw [hrole] at hset ⊢
  exact hset

end Attach

/-! ## The operations on one index block -/

section Words

variable {v : Vol} {c i w : ℕ}

theorem rword_eq (hi : i < 1024) (h0 : c ≠ 0) (hlt : c < v.blocks) :
    rword c i v = some (.ok (word (v.disk c) i), v) := by
  have hread : rbuf 4 c (4 * i) v = some (.ok fun j => v.disk c (4 * i + j), v) :=
    if_pos ⟨by unfold SFS_BLKSIZE; omega, by unfold SFS_BLKSIZE; omega, h0, hlt⟩
  unfold rword
  rw [Op.bind_of_ok hread]
  have hword : word (fun j => v.disk c (4 * i + j)) 0 = word (v.disk c) i :=
    word_congr fun j _ => by rw [Nat.mul_zero, Nat.zero_add]
  rw [hword]
  rfl

theorem wword_eq (hi : i < 1024) (h0 : c ≠ 0) (hlt : c < v.blocks) :
    wword c i w v = some (.ok (), v.setWord c i w) :=
  if_pos ⟨by unfold SFS_BLKSIZE; omega, by unfold SFS_BLKSIZE; omega, h0, hlt⟩

theorem bmapFill_spec (h : v.Ok) (hi : i < 1024) (h0 : c ≠ 0) (hlt : c < v.blocks)
    (hc : v.freemap c = false) (fresh : Bool) : Op.wp (bmapFill c i fresh) (fun r v' =>
      (∃ b, r = .ok (c, b) ∧ v.freemap b = true ∧ v' = (v.take b).setWord c i b) ∨
      (r = .error .noMem ∧ (∀ b, v.freemap b = false) ∧ v' = if fresh then v.give c else v)) v := by
  unfold bmapFill
  rw [Op.wp_bind, Op.wp_attempt]
  refine Op.wp_mono (blockAlloc_spec h) ?_
  rintro r v' (⟨b, rfl, hb, rfl⟩ | ⟨rfl, hnone, rfl⟩)
  · have hw : wword c i b (v.take b) = some (.ok (), (v.take b).setWord c i b) :=
      wword_eq hi h0 hlt
    dsimp only
    rw [Op.wp_bind_of_ok hw]
    exact .inl ⟨b, rfl, hb, rfl⟩
  · dsimp only
    cases fresh with
    | false => exact .inr ⟨rfl, hnone, rfl⟩
    | true =>
      rw [if_pos rfl, Op.wp_bind_of_ok (blockFree_spec hc h0 hlt)]
      exact .inr ⟨rfl, hnone, rfl⟩

/-- An entry that exists, or is not asked for, is read. -/
theorem bmapGetSub_read (hi : i < 1024) (h0 : c ≠ 0) (hlt : c < v.blocks) (create : Bool)
    (h : word (v.disk c) i ≠ 0 ∨ create = false) :
    bmapGetSub c i create v = some (.ok (c, word (v.disk c) i), v) := by
  unfold bmapGetSub
  rw [Op.bind_of_ok (if_pos hi : Op.assert (i < SFS_BLK_NENTRY) v = some (.ok (), v)), if_pos h0,
    Op.bind_of_ok (rword_eq hi h0 hlt), if_pos h]
  rfl

theorem bmapGetSub_fill (h : v.Ok) (hi : i < 1024) (h0 : c ≠ 0) (hlt : c < v.blocks)
    (hc : v.freemap c = false) (hw : word (v.disk c) i = 0) : Op.wp (bmapGetSub c i true) (fun r v' =>
      (∃ b, r = .ok (c, b) ∧ v.freemap b = true ∧ v' = (v.take b).setWord c i b) ∨
      (r = .error .noMem ∧ (∀ b, v.freemap b = false) ∧ v' = v)) v := by
  unfold bmapGetSub
  rw [Op.wp_bind_assert]
  refine ⟨hi, ?_⟩
  rw [if_pos h0, Op.wp_bind_of_ok (rword_eq hi h0 hlt), if_neg (by simp [hw])]
  exact bmapFill_spec h hi h0 hlt hc false

/-- The index block is new: it is given back if its first entry cannot be filled. -/
theorem bmapGetSub_fresh (h : v.Ok) (hi : i < 1024) : Op.wp (bmapGetSub 0 i true) (fun r v' =>
      (∃ c b, r = .ok (c, b) ∧ v.freemap c = true ∧ (v.take c).freemap b = true ∧
        v' = ((v.take c).take b).setWord c i b) ∨
      (r = .error .noMem ∧ ((∀ b, v.freemap b = false) ∧ v' = v ∨
        ∃ c, v.freemap c = true ∧ (∀ b, (v.take c).freemap b = false) ∧
          v' = (v.take c).give c))) v := by
  unfold bmapGetSub
  rw [Op.wp_bind_assert]
  refine ⟨hi, ?_⟩
  rw [if_neg (by simp), if_neg (by simp), Op.wp_bind]
  refine Op.wp_mono (blockAlloc_spec h) ?_
  rintro r v' (⟨c, rfl, hc, rfl⟩ | ⟨rfl, hnone, rfl⟩)
  · obtain ⟨h0, hlt⟩ := h.free c hc
    refine Op.wp_mono (bmapFill_spec (h.take hc) hi h0 hlt (Function.update_self ..) true) ?_
    rintro r v' (⟨b, rfl, hb, rfl⟩ | ⟨rfl, hnone, rfl⟩)
    · exact .inl ⟨c, b, rfl, hc, hb, rfl⟩
    · exact .inr ⟨rfl, .inr ⟨c, hc, hnone, rfl⟩⟩
  · exact .inr ⟨rfl, .inl ⟨hnone, rfl⟩⟩

end Words

/-! ## Allocation of a block of the file -/

/-- The free blocks that leaf `i` needs, with the index blocks on the way to it. -/
def Lk.need (k : Lk) (i : ℕ) : ℕ :=
  if i < 12 then 1
  else if i < 1036 then if k.din.indirect = 0 then 2 else 1
  else if k.din.dbIndirect = 0 then 3
  else if k.role (.mid ((i - 1036) / 1024)) = 0 then 2 else 1

theorem Vol.Ok.unused_zero {v : Vol} (h : v.Ok) (hnone : ∀ b, v.freemap b = false) :
    v.unused = 0 := by
  rw [h.count]
  exact (occ_eq_zero h.finite).mpr fun b hb => by rw [hnone b] at hb; cases hb

section Get

variable {R : ℕ → Prop} {k : Lk} {i : ℕ}

/-- The roles that leaf `i` is found through, its own included. -/
def OnPath (i : ℕ) : Role → Prop
  | .leaf j => j = i
  | .ind => 12 ≤ i ∧ i < 1036
  | .dbl => 1036 ≤ i
  | .mid j => 1036 ≤ i ∧ j = (i - 1036) / 1024

/-- The block map has grown on the way to leaf `i`. -/
structure GrowAt (R : ℕ → Prop) (i : ℕ) (k k' : Lk) : Prop extends Grow R k k' where
  others : ∀ r, ¬ OnPath i r → k'.role r = k.role r

theorem GrowAt.refl (h : Own R k.vol k.din) : GrowAt R i k k := ⟨Grow.refl h, fun _ _ => rfl⟩

theorem GrowAt.trans {k₁ k₂ : Lk} (h : GrowAt R i k k₁) (h' : GrowAt R i k₁ k₂) :
    GrowAt R i k k₂ :=
  ⟨h.toGrow.trans h'.toGrow, fun j hj => (h'.others j hj).trans (h.others j hj)⟩

theorem Attach.growAt {k' : Lk} {r : Role} {b : ℕ} (h : Attach R k r b k')
    (hr : OnPath i r) : GrowAt R i k k' :=
  ⟨h.grow, fun r' hr' => (h.role r').trans (if_neg fun he : r' = r => hr' (he ▸ hr))⟩

/-- How the allocation of leaf `i` ends: with a free block, cleared, or for lack of one. -/
def Allocated (R : ℕ → Prop) (k : Lk) (i need : ℕ) (r : Except Err ℕ) (k' : Lk) : Prop :=
  GrowAt R i k k' ∧
    ((∃ b, r = .ok b ∧ k.vol.freemap b = true ∧ k'.role (.leaf i) = b ∧
        (k'.vol.disk b = fun _ => 0) ∧ k'.vol.unused + need = k.vol.unused) ∨
      (r = .error .noMem ∧ k'.role (.leaf i) = 0 ∧ k.vol.unused < need))

/-- The last block of the allocation enters its role. -/
theorem Attach.allocated {k₁ k' : Lk} {b n : ℕ} (h : GrowAt R i k k₁)
    (hn : k₁.vol.unused + n = k.vol.unused) (ha : Attach R k₁ (.leaf i) b k') :
    Allocated R k i (n + 1) (.ok b) k' := by
  have hu := ha.unused
  refine ⟨h.trans (ha.growAt rfl), .inl ⟨b, rfl, h.map b ha.free, ?_, ha.clear, by omega⟩⟩
  rw [ha.role, if_pos rfl]

/-- There was no block left for it. -/
theorem GrowAt.exhausted {k' : Lk} {n : ℕ} (h : GrowAt R i k k')
    (hi : k'.role (.leaf i) = 0) (hn : k'.vol.unused + n = k.vol.unused)
    (hnone : ∀ b, k'.vol.freemap b = false) : Allocated R k i (n + 1) (.error .noMem) k' := by
  have hu := h.own.vol.unused_zero hnone
  exact ⟨h, .inr ⟨rfl, hi, by omega⟩⟩

/-- A block that is taken and given back at once. -/
theorem grow_take_give (h : Own R k.vol k.din) {c : ℕ} (hc : k.vol.freemap c = true) :
    GrowAt R i k ⟨(k.vol.take c).give c, k.din, k.dirty⟩ := by
  have hmap : Function.update (Function.update k.vol.freemap c false) c true = k.vol.freemap := by
    rw [Function.update_idem, ← hc]
    exact Function.update_eq_self ..
  obtain ⟨h0, hlt⟩ := h.vol.free c hc
  have hrole : roleAt (k.vol.take c).disk k.din = k.role := role_take h hc
  have hok : ((k.vol.take c).give c).Ok := (h.vol.take hc).give (Function.update_self ..) h0 hlt
  refine ⟨⟨h.congr hok rfl hmap hrole, fun r _ => congrFun hrole r, fun r hr hne => ?_,
    fun d hd _ => ?_, fun d hd => ?_, rfl, SameHead.refl _, rfl, fun hd => ⟨hd, rfl⟩,
    fun hd => nomatch hd⟩, fun j _ => congrFun hrole _⟩
  · exact absurd ((congrFun hrole r).trans hr) hne
  · refine take_disk_of_ne fun he => ?_
    rw [he, hc] at hd
    cases hd
  · have hd' : Function.update (Function.update k.vol.freemap c false) c true d = true := hd
    rwa [hmap] at hd'

theorem wp_onVol {α : Type} {x : Op Vol Err α} {Q : Except Err α → Lk → Prop} :
    Op.wp (onVol x) Q k ↔ Op.wp x (fun r v => Q r { k with vol := v }) k.vol := Op.wp_zoom

theorem bmapGetDirect_spec (h : Own R k.vol k.din) (hi : i < 12) (h0 : k.role (.leaf i) = 0) :
    Op.wp (bmapGetDirect i true) (Allocated R k i 1) k := by
  have hd : k.din.direct i = 0 := (roleAt_direct hi).symm.trans h0
  unfold bmapGetDirect
  rw [Op.wp_bind_gets, if_pos ⟨hd, rfl⟩, Op.wp_bind, wp_onVol]
  refine Op.wp_mono (blockAlloc_spec h.vol) ?_
  rintro r v' (⟨b, rfl, hb, rfl⟩ | ⟨rfl, hnone, rfl⟩)
  · exact Attach.allocated (n := 0) (GrowAt.refl h) rfl (attach_direct h hb hi h0)
  · exact GrowAt.exhausted (n := 0) (GrowAt.refl h) h0 rfl hnone

theorem role_indirect_word (hi : i < 1024) (hc : k.din.indirect ≠ 0) :
    k.role (.leaf (12 + i)) = word (k.vol.disk k.din.indirect) i := by
  have hrole : k.role (.leaf (12 + i)) = entryAt k.vol.disk k.din.indirect i := roleAt_indirect hi
  unfold entryAt at hrole
  rwa [if_neg hc] at hrole

theorem bmapGetIndirect_spec (h : Own R k.vol k.din) (hi : i < 1024)
    (h0 : k.role (.leaf (12 + i)) = 0) : Op.wp (bmapGetIndirect i true)
      (Allocated R k (12 + i) (if k.din.indirect = 0 then 2 else 1)) k := by
  unfold bmapGetIndirect
  rw [Op.wp_bind_gets, Op.wp_bind, wp_onVol]
  by_cases hc : k.din.indirect = 0
  · rw [if_pos hc, hc]
    refine Op.wp_mono (bmapGetSub_fresh h.vol hi) ?_
    rintro r v' (⟨c, b, rfl, hcf, hb, rfl⟩ | ⟨rfl, ⟨hnone, rfl⟩ | ⟨c, hcf, hnone, rfl⟩⟩)
    · have ha := attach_ind h hcf hc
      have hc0 := (h.vol.free c hcf).1
      dsimp only
      rw [if_pos hc0, Op.wp_bind_assert]
      refine ⟨rfl, ?_⟩
      refine Attach.allocated (n := 1) (ha.growAt ⟨by omega, by omega⟩) ha.unused
        (attach_indirect ha.grow.own hb hi hc0 ?_)
      rw [ha.role, if_neg nofun]
      exact h0
    · have hu := h.vol.unused_zero hnone
      exact ⟨GrowAt.refl h, .inr ⟨rfl, h0, by omega⟩⟩
    · have hu : k.vol.unused - 1 = 0 := (h.vol.take hcf).unused_zero hnone
      have hg : GrowAt R (12 + i) k ⟨(k.vol.take c).give c, k.din, k.dirty⟩ := grow_take_give h hcf
      refine ⟨hg, .inr ⟨rfl, ?_, by omega⟩⟩
      exact (congrFun (role_take h hcf) _).trans h0
  · have hin := h.inside .ind hc
    have huse := h.inuse (r := .ind) hc
    rw [if_neg hc]
    refine Op.wp_mono (bmapGetSub_fill h.vol hi hc hin huse ((role_indirect_word hi hc).symm.trans h0)) ?_
    rintro r v' (⟨b, rfl, hb, rfl⟩ | ⟨rfl, hnone, rfl⟩)
    · dsimp only
      rw [if_neg (by simp)]
      exact Attach.allocated (n := 0) (GrowAt.refl h) rfl (attach_indirect h hb hi hc h0)
    · exact GrowAt.exhausted (n := 0) (GrowAt.refl h) h0 rfl hnone

theorem role_mid_word {j : ℕ} (hj : j < 1024) (hc : k.din.dbIndirect ≠ 0) :
    k.role (.mid j) = word (k.vol.disk k.din.dbIndirect) j := by
  have hrole : k.role (.mid j) = entryAt k.vol.disk k.din.dbIndirect j := roleAt_mid hj
  unfold entryAt at hrole
  rwa [if_neg hc] at hrole

theorem role_double_word {j i : ℕ} (hj : j < 1024) (hi : i < 1024) (hc : k.role (.mid j) ≠ 0) :
    k.role (.leaf (1036 + (1024 * j + i))) = word (k.vol.disk (k.role (.mid j))) i := by
  have hrole : k.role (.leaf (1036 + (1024 * j + i))) = entryAt k.vol.disk (k.role (.mid j)) i :=
    roleAt_double hj hi
  unfold entryAt at hrole
  rwa [if_neg hc] at hrole

/-- The last step through the double-indirect block: the middle block is there. -/
theorem bmapGetLast_spec {k₁ : Lk} {j n : ℕ} (hj : j < 1024) (hi : i < 1024)
    (hg : GrowAt R (1036 + (1024 * j + i)) k k₁) (hn : k₁.vol.unused + n = k.vol.unused)
    (hmid : k₁.role (.mid j) ≠ 0) (h0 : k₁.role (.leaf (1036 + (1024 * j + i))) = 0) :
    Op.wp (do
      let p ← onVol (bmapGetSub (k₁.role (.mid j)) i true)
      pure p.2) (Allocated R k (1036 + (1024 * j + i)) (n + 1)) k₁ := by
  have hin := hg.own.inside _ hmid
  have huse := hg.own.inuse hmid
  have hw := (role_double_word hj hi hmid).symm.trans h0
  rw [Op.wp_bind, wp_onVol]
  refine Op.wp_mono (bmapGetSub_fill hg.own.vol hi hmid hin huse hw) ?_
  rintro r v' (⟨b, rfl, hb, rfl⟩ | ⟨rfl, hnone, rfl⟩)
  · exact Attach.allocated hg hn (attach_double hg.own hb hj hi hmid h0)
  · exact GrowAt.exhausted hg h0 hn hnone

theorem bmapGetDouble_spec {j : ℕ} (h : Own R k.vol k.din) (hj : j < 1024) (hi : i < 1024)
    (h0 : k.role (.leaf (1036 + (1024 * j + i))) = 0) : Op.wp (bmapGetDouble (1024 * j + i) true)
      (Allocated R k (1036 + (1024 * j + i))
        (if k.din.dbIndirect = 0 then 3 else if k.role (.mid j) = 0 then 2 else 1)) k := by
  have hdiv : (1024 * j + i) / SFS_BLK_NENTRY = j := by unfold SFS_BLK_NENTRY; omega
  have hmod : (1024 * j + i) % SFS_BLK_NENTRY = i := by unfold SFS_BLK_NENTRY; omega
  have hdbl : OnPath (1036 + (1024 * j + i)) .dbl := Nat.le_add_right ..
  have hpath : OnPath (1036 + (1024 * j + i)) (.mid j) := ⟨hdbl, by omega⟩
  unfold bmapGetDouble
  rw [Op.wp_bind_gets, Op.wp_bind, wp_onVol, hdiv, hmod]
  by_cases hc : k.din.dbIndirect = 0
  · rw [if_pos hc, hc]
    refine Op.wp_mono (bmapGetSub_fresh h.vol hj) ?_
    rintro r v' (⟨c, b, rfl, hcf, hb, rfl⟩ | ⟨rfl, ⟨hnone, rfl⟩ | ⟨c, hcf, hnone, rfl⟩⟩)
    · have ha := attach_dbl h hcf hc
      have hc0 := (h.vol.free c hcf).1
      have hb0 := (ha.grow.own.vol.free b hb).1
      have hm : roleAt (k.vol.take c).disk { k.din with dbIndirect := c } (.mid j) = 0 := by
        have hrole := ha.role (.mid j)
        rw [if_neg nofun] at hrole
        refine hrole.trans ?_
        show roleAt k.vol.disk k.din (.mid j) = 0
        rw [roleAt_mid hj, hc, entryAt_zero]
      have hm2 := attach_mid ha.grow.own hb hj hc0 hm
      have hmid : _ = b := (hm2.role (.mid j)).trans (if_pos rfl)
      have hu := ha.unused
      have hu2 := hm2.unused
      dsimp only
      rw [if_pos hc0, Op.wp_bind_assert]
      refine ⟨rfl, ?_⟩
      have hlast := bmapGetLast_spec (n := 2) hj hi
        ((ha.growAt hdbl).trans (hm2.growAt hpath))
        (by dsimp only at hu hu2 ⊢; omega) (by rw [hmid]; exact hb0)
        (by rw [hm2.role, if_neg nofun, ha.role, if_neg nofun]; exact h0)
      rw [hmid] at hlast
      show Op.wp (ite _ _ _) _ _
      rw [if_pos hb0]
      exact hlast
    · have hu := h.vol.unused_zero hnone
      exact ⟨GrowAt.refl h, .inr ⟨rfl, h0, by omega⟩⟩
    · have hu : k.vol.unused - 1 = 0 := (h.vol.take hcf).unused_zero hnone
      have hg : GrowAt R (1036 + (1024 * j + i)) k ⟨(k.vol.take c).give c, k.din, k.dirty⟩ :=
        grow_take_give h hcf
      refine ⟨hg, .inr ⟨rfl, ?_, by omega⟩⟩
      exact (congrFun (role_take h hcf) _).trans h0
  · have hin := h.inside .dbl hc
    have huse := h.inuse (r := .dbl) hc
    rw [if_neg hc]
    by_cases hm : k.role (.mid j) = 0
    · rw [if_pos hm]
      refine Op.wp_mono (bmapGetSub_fill h.vol hj hc hin huse ((role_mid_word hj hc).symm.trans hm)) ?_
      rintro r v' (⟨b, rfl, hb, rfl⟩ | ⟨rfl, hnone, rfl⟩)
      · have ha := attach_mid h hb hj hc hm
        have hb0 := (h.vol.free b hb).1
        have hmid : _ = b := (ha.role (.mid j)).trans (if_pos rfl)
        have hlast := bmapGetLast_spec (n := 1) hj hi (ha.growAt hpath) ha.unused
          (by rw [hmid]; exact hb0) (by rw [ha.role, if_neg nofun]; exact h0)
        rw [hmid] at hlast
        dsimp only
        rw [if_neg (by simp), if_pos hb0]
        exact hlast
      · have hu := h.vol.unused_zero hnone
        exact ⟨GrowAt.refl h, .inr ⟨rfl, h0, by omega⟩⟩
    · have hw := role_mid_word hj hc
      have hw0 : word (k.vol.disk k.din.dbIndirect) j ≠ 0 := hw ▸ hm
      have hlast := bmapGetLast_spec (n := 0) hj hi (GrowAt.refl h) rfl hm h0
      rw [if_neg hm]
      refine Op.wp_iff.mpr ⟨_, _, bmapGetSub_read hj hc hin true (.inl hw0), ?_⟩
      dsimp only
      rw [if_neg (by simp), if_pos hw0, ← hw]
      exact hlast

theorem bmapFind_spec (h : Own R k.vol k.din) (hi : i < NLEAF) (h0 : k.role (.leaf i) = 0) :
    Op.wp (bmapFind i true) (Allocated R k i (k.need i)) k := by
  unfold Lk.need bmapFind SFS_NDIRECT SFS_BLK_NENTRY
  rcases leaf_cases i with hi | ⟨m, hm, rfl⟩ | ⟨j, m, hj, hm, rfl⟩ | hge
  · rw [if_pos hi, if_pos hi]
    exact bmapGetDirect_spec h hi h0
  · rw [if_neg (by omega), if_pos (by omega), if_neg (by omega), if_pos (by omega),
      Nat.add_sub_cancel_left]
    exact bmapGetIndirect_spec h hm h0
  · rw [if_neg (by omega), if_neg (by omega), if_neg (by omega), if_neg (by omega),
      show 1036 + (1024 * j + m) - 12 - 1024 = 1024 * j + m by omega,
      show (1036 + (1024 * j + m) - 1036) / 1024 = j by omega]
    exact bmapGetDouble_spec h hj hm h0
  · exact absurd hi (Nat.not_lt.mpr hge)

/-- `sfs_bmap_get_nolock` with `create` at a leaf that is missing. -/
theorem bmapGet_spec (h : Own R k.vol k.din) (hi : i < NLEAF) (h0 : k.role (.leaf i) = 0) :
    Op.wp (bmapGet i true) (Allocated R k i (k.need i)) k := by
  unfold bmapGet
  rw [Op.wp_bind]
  refine Op.wp_mono (bmapFind_spec h hi h0) ?_
  rintro r k' ⟨hg, ⟨b, rfl, hb, hrole, hclear, hu⟩ | ⟨rfl, hrole, hu⟩⟩
  · have hb0 : b ≠ 0 := (h.vol.free b hb).1
    have hne : k'.role (.leaf i) ≠ 0 := hrole ▸ hb0
    have hin : assertInuse b k'.vol = some (.ok (), k'.vol) :=
      assertInuse_eq hb0 (hrole ▸ hg.own.inside _ hne) (hrole ▸ hg.own.inuse hne)
    dsimp only
    rw [if_pos hb0, Op.wp_bind, wp_onVol]
    refine Op.wp_iff.mpr ⟨_, _, hin, ?_⟩
    exact ⟨hg, .inl ⟨b, rfl, hb, hrole, hclear, hu⟩⟩
  · exact ⟨hg, .inr ⟨rfl, hrole, hu⟩⟩

theorem onVol_of_ok {α : Type} {x : Op Vol Err α} {a : α} {v : Vol} (h : x k.vol = some (.ok a, v)) :
    onVol x k = some (.ok a, { k with vol := v }) := by
  show Option.map _ (x k.vol) = _
  rw [h]
  rfl

theorem bmapGetDirect_read (hi : i < 12) (h0 : k.role (.leaf i) ≠ 0) (create : Bool) :
    bmapGetDirect i create k = some (.ok (k.role (.leaf i)), k) := by
  have hd : k.role (.leaf i) = k.din.direct i := roleAt_direct hi
  rw [hd] at h0 ⊢
  unfold bmapGetDirect
  rw [Op.bind_of_ok (rfl : Op.gets _ k = some (.ok (k.din.direct i), k)), if_neg fun hc => h0 hc.1]
  rfl

theorem bmapGetIndirect_read (h : Own R k.vol k.din) (hi : i < 1024)
    (h0 : k.role (.leaf (12 + i)) ≠ 0) (create : Bool) :
    bmapGetIndirect i create k = some (.ok (k.role (.leaf (12 + i))), k) := by
  have hc : k.din.indirect ≠ 0 := by
    intro hc
    refine h0 ((roleAt_indirect hi).trans ?_)
    rw [hc, entryAt_zero]
  rw [role_indirect_word hi hc] at h0 ⊢
  have hsub := bmapGetSub_read hi hc (h.inside .ind hc) create (.inl h0)
  unfold bmapGetIndirect
  rw [Op.bind_of_ok (rfl : Op.gets _ k = some (.ok k.din.indirect, k)),
    Op.bind_of_ok (onVol_of_ok hsub)]
  dsimp only
  rw [if_neg (by simp)]
  rfl

/-- The way to a leaf below the double-indirect block exists if the leaf does. -/
theorem role_double_ne_zero {j : ℕ} (hj : j < 1024) (hi : i < 1024)
    (h0 : k.role (.leaf (1036 + (1024 * j + i))) ≠ 0) :
    k.din.dbIndirect ≠ 0 ∧ k.role (.mid j) ≠ 0 := by
  have hmid : k.role (.mid j) ≠ 0 := by
    intro hc
    refine h0 ((roleAt_double hj hi).trans ?_)
    rw [show roleAt k.vol.disk k.din (.mid j) = 0 from hc, entryAt_zero]
  refine ⟨fun hc => hmid ((roleAt_mid hj).trans ?_), hmid⟩
  rw [hc, entryAt_zero]

theorem bmapGetDouble_read {j : ℕ} (h : Own R k.vol k.din) (hj : j < 1024) (hi : i < 1024)
    (h0 : k.role (.leaf (1036 + (1024 * j + i))) ≠ 0) (create : Bool) :
    bmapGetDouble (1024 * j + i) create k =
      some (.ok (k.role (.leaf (1036 + (1024 * j + i)))), k) := by
  obtain ⟨hc, hmid⟩ := role_double_ne_zero hj hi h0
  have hin : k.role (.mid j) < k.vol.blocks := h.inside (.mid j) hmid
  rw [role_double_word hj hi hmid] at h0 ⊢
  have hleaf := bmapGetSub_read hi hmid hin create (.inl h0)
  rw [role_mid_word hj hc] at hleaf hmid ⊢
  have hsub := bmapGetSub_read hj hc (h.inside .dbl hc) create (.inl hmid)
  unfold bmapGetDouble SFS_BLK_NENTRY
  rw [show (1024 * j + i) / 1024 = j by omega, show (1024 * j + i) % 1024 = i by omega,
    Op.bind_of_ok (rfl : Op.gets _ k = some (.ok k.din.dbIndirect, k)),
    Op.bind_of_ok (onVol_of_ok hsub)]
  dsimp only
  rw [if_neg (by simp), if_pos hmid, Op.bind_of_ok (onVol_of_ok hleaf)]
  rfl

/-- `sfs_bmap_get_nolock` finds a leaf that exists. -/
theorem bmapGet_read (h : Own R k.vol k.din) (h0 : k.role (.leaf i) ≠ 0) (create : Bool) :
    bmapGet i create k = some (.ok (k.role (.leaf i)), k) := by
  have hfind : bmapFind i create k = some (.ok (k.role (.leaf i)), k) := by
    unfold bmapFind SFS_NDIRECT SFS_BLK_NENTRY
    rcases leaf_cases i with hi | ⟨m, hm, rfl⟩ | ⟨j, m, hj, hm, rfl⟩ | hge
    · rw [if_pos hi]
      exact bmapGetDirect_read hi h0 create
    · rw [if_neg (by omega), if_pos (by omega), Nat.add_sub_cancel_left]
      exact bmapGetIndirect_read h hm h0 create
    · rw [if_neg (by omega), if_neg (by omega),
        show 1036 + (1024 * j + m) - 12 - 1024 = 1024 * j + m by omega]
      exact bmapGetDouble_read h hj hm h0 create
    · exact absurd (roleAt_beyond hge) h0
  have hin : assertInuse (k.role (.leaf i)) k.vol = some (.ok (), k.vol) :=
    assertInuse_eq h0 (h.inside _ h0) (h.inuse h0)
  unfold bmapGet
  rw [Op.bind_of_ok hfind, if_pos h0, Op.bind_of_ok (onVol_of_ok hin)]
  rfl

end Get

/-! ## Release of a block of the file -/

/-- Leaf `i` has been freed. -/
structure Detach (R : ℕ → Prop) (k : Lk) (i : ℕ) (k' : Lk) : Prop where
  own : Own R k'.vol k'.din
  role : ∀ r, k'.role r = if r = .leaf i then 0 else k.role r
  framed : Framed k k'
  map : k'.vol.freemap = Function.update k.vol.freemap (k.role (.leaf i)) true
  unused : k'.vol.unused = k.vol.unused + 1
  blocks : k'.vol.blocks = k.vol.blocks
  super : k'.vol.superDirty = true
  head : SameHead k.din k'.din
  dinBlocks : k'.din.blocks = k.din.blocks

section Free

variable {R : ℕ → Prop} {k : Lk} {i : ℕ}

/-- An entry of the index block in role `c` is cleared and the block it named is freed. -/
theorem detach_word (h : Own R k.vol k.din) {c : Role} {w : ℕ} (hc : c.isIndex = true)
    (hc0 : k.role c ≠ 0) (h0 : k.role (.leaf i) ≠ 0)
    (hrole : ∀ r, roleAt (setWord k.vol.disk (k.role c) w 0) k.din r =
      if r = .leaf i then 0 else k.role r) : Detach R k i
        ⟨(k.vol.setWord (k.role c) w 0).give (k.role (.leaf i)), k.din, k.dirty⟩ := by
  have hok : ((k.vol.setWord (k.role c) w 0).give (k.role (.leaf i))).Ok :=
    (h.vol.setWord _ _ _).give (h.inuse h0) h0 (h.inside _ h0)
  refine ⟨h.detach rfl h0 hok rfl rfl hrole, hrole, fun d hd hidx => ?_, rfl, rfl, rfl, rfl,
    SameHead.refl _, rfl⟩
  have hne : d ≠ k.role c := fun he => hc0 (he ▸ hidx c hc he.symm)
  exact Function.update_of_ne hne ..

theorem bmapFreeSub_eq {c m : ℕ} (h : Own R k.vol k.din) {r : Role} (hc : k.role r = c)
    (hc0 : c ≠ 0) (hm : m < 1024) (h0 : k.role (.leaf i) ≠ 0)
    (hw : k.role (.leaf i) = word (k.vol.disk c) m) : bmapFreeSub c m k.vol =
      some (.ok (), (k.vol.setWord c m 0).give (k.role (.leaf i))) := by
  have hin : c < k.vol.blocks := hc ▸ h.inside r (hc ▸ hc0 : k.role r ≠ 0)
  have huse : k.vol.freemap c = false := hc ▸ h.inuse (hc ▸ hc0 : k.role r ≠ 0)
  have hfree : blockFree (k.role (.leaf i)) (k.vol.setWord c m 0) =
      some (.ok (), (k.vol.setWord c m 0).give (k.role (.leaf i))) :=
    blockFree_spec (h.inuse h0) h0 (h.inside _ h0)
  unfold bmapFreeSub
  rw [Op.bind_of_ok (assertInuse_eq hc0 hin huse),
    Op.bind_of_ok (if_pos hm : Op.assert (m < SFS_BLK_NENTRY) k.vol = some (.ok (), k.vol)),
    Op.bind_of_ok (rword_eq hm hc0 hin), ← hw, if_pos h0, Op.bind_of_ok (wword_eq hm hc0 hin)]
  exact hfree

theorem detach_direct (h : Own R k.vol k.din) (hi : i < 12) (h0 : k.role (.leaf i) ≠ 0) :
    Detach R k i ⟨k.vol.give (k.role (.leaf i)),
      { k.din with direct := Function.update k.din.direct i 0 }, true⟩ := by
  have hrole : ∀ r, roleAt k.vol.disk { k.din with direct := Function.update k.din.direct i 0 } r =
      if r = .leaf i then 0 else k.role r := roleAt_setDirect hi
  have hok : (k.vol.give (k.role (.leaf i))).Ok := h.vol.give (h.inuse h0) h0 (h.inside _ h0)
  exact ⟨h.detach rfl h0 hok rfl rfl hrole, hrole, fun _ _ _ => rfl, rfl, rfl, rfl, rfl,
    SameHead.setDirect _ hi 0, rfl⟩

/-- `sfs_bmap_free_nolock` at a leaf that exists. -/
theorem bmapFree_spec (h : Own R k.vol k.din) (h0 : k.role (.leaf i) ≠ 0) :
    ∃ k', bmapFree i k = some (.ok (), k') ∧ Detach R k i k' := by
  unfold bmapFree SFS_NDIRECT SFS_BLK_NENTRY
  rw [Op.bind_of_ok (rfl : Op.gets Lk.din k = some (.ok k.din, k))]
  rcases leaf_cases i with hi | ⟨m, hm, rfl⟩ | ⟨j, m, hj, hm, rfl⟩ | hge
  · have hd : k.role (.leaf i) = k.din.direct i := roleAt_direct hi
    have hfree : blockFree (k.role (.leaf i)) k.vol =
        some (.ok (), k.vol.give (k.role (.leaf i))) :=
      blockFree_spec (h.inuse h0) h0 (h.inside _ h0)
    refine ⟨_, ?_, detach_direct h hi h0⟩
    rw [if_pos hi, if_pos (hd ▸ h0), ← hd, Op.bind_of_ok (onVol_of_ok hfree)]
    rfl
  · have hc : k.din.indirect ≠ 0 := by
      intro hc
      refine h0 ((roleAt_indirect hm).trans ?_)
      rw [hc, entryAt_zero]
    refine ⟨_, ?_, detach_word (c := .ind) (w := m) h rfl hc h0 fun r =>
      roleAt_setWord_indirect h.inj hc hm (by omega) r⟩
    rw [if_neg (by omega), if_pos (by omega), if_pos hc, Nat.add_sub_cancel_left]
    exact onVol_of_ok (bmapFreeSub_eq (r := .ind) h rfl hc hm h0 (role_indirect_word hm hc))
  · obtain ⟨hc, hmid⟩ := role_double_ne_zero hj hm h0
    refine ⟨_, ?_, detach_word (c := .mid j) (w := m) h rfl hmid h0 fun r =>
      roleAt_setWord_double h.inj hj hmid hm (by omega) r⟩
    have hwm := role_mid_word hj hc
    have hsub := bmapGetSub_read hj hc (h.inside .dbl hc) false (.inr rfl)
    have hfree := onVol_of_ok (bmapFreeSub_eq (r := .mid j) h rfl hmid hm h0
      (role_double_word hj hm hmid))
    rw [if_neg (by omega), if_neg (by omega), if_pos hc]
    dsimp only
    rw [show 1036 + (1024 * j + m) - 12 - 1024 = 1024 * j + m by omega,
      show (1024 * j + m) / 1024 = j by omega, show (1024 * j + m) % 1024 = m by omega,
      Op.bind_of_ok (onVol_of_ok hsub), ← hwm]
    dsimp only
    rw [if_pos hmid]
    exact hfree
  · exact absurd (roleAt_beyond hge) h0

end Free

end Ucore.Sfs
