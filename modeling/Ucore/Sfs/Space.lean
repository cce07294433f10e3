import Ucore.Sfs.Extent
import Ucore.Sfs.Fs

/-!
# Space ownership

Every block of the volume has one owner.  `I` is the set of the inodes of the volume, cached or not.

* `Owned fs I L` — the blocks of all the inodes in all their roles are different from each other, from the
  inodes themselves and from the superblock and the bitmap; together with the blocks in `L`, which are
  nobody's, they are the blocks in use.
* `Space fs I` — besides, no block is lost, and the leaves of an inode are those below its `blocks`.
* `Owned.own` — what this says about one inode, with the blocks of everybody else as the rest.
* `Owned.change` — one inode changes, is new or is gone, and the rest is left alone.
-/

namespace Ucore.Sfs

open Bytes

/-- The disk inode, in memory if it is cached and on disk otherwise. -/
def Fs.din (fs : Fs) (i : ℕ) : DiskInode :=
  match fs.cache i with
  | some s => s.din
  | none => DiskInode.ofBlock (fs.vol.disk i)

/-- The block that inode `i` has in a role, 0 if it has none. -/
def Fs.role (fs : Fs) (i : ℕ) (r : Role) : ℕ := roleAt fs.vol.disk (fs.din i) r

/-- The superblock and the blocks of the bitmap. -/
def Vol.isMeta (v : Vol) (b : ℕ) : Prop := b = 0 ∨ (2 ≤ b ∧ b < 2 + v.freemapBlocks)

structure Space (fs : Fs) (I : ℕ → Prop) : Prop where
  vol : fs.vol.Ok
  small : fs.vol.blocks ≤ 2 ^ 32
  node : ∀ i, I i → ¬ fs.vol.isMeta i ∧ i < fs.vol.blocks
  cached : ∀ i, fs.cache i ≠ none → I i
  fits : ∀ i, I i → (fs.din i).Fits
  inj : ∀ i j r r', I i → I j → fs.role i r ≠ 0 → fs.role i r = fs.role j r' → i = j ∧ r = r'
  apart : ∀ i j r, I i → I j → fs.role i r ≠ 0 → fs.role i r ≠ j
  data : ∀ i r, I i → fs.role i r ≠ 0 → ¬ fs.vol.isMeta (fs.role i r) ∧ fs.role i r < fs.vol.blocks
  used : ∀ b, b < fs.vol.blocks → (fs.vol.freemap b = false ↔
    fs.vol.isMeta b ∨ I b ∨ ∃ i r, I i ∧ fs.role i r ≠ 0 ∧ fs.role i r = b)
  filled : ∀ i, I i → ∀ j, fs.role i (.leaf j) ≠ 0 ↔ j < (fs.din i).blocks

/-- Block `b` belongs to the superblock, to the bitmap or to an inode. -/
def Fs.owns (fs : Fs) (I : ℕ → Prop) (b : ℕ) : Prop :=
  fs.vol.isMeta b ∨ I b ∨ ∃ i r, I i ∧ fs.role i r ≠ 0 ∧ fs.role i r = b

/-- The blocks in `L` are in use and belong to nobody. -/
structure Owned (fs : Fs) (I L : ℕ → Prop) : Prop where
  vol : fs.vol.Ok
  small : fs.vol.blocks ≤ 2 ^ 32
  node : ∀ i, I i → ¬ fs.vol.isMeta i ∧ i < fs.vol.blocks
  cached : ∀ i, fs.cache i ≠ none → I i
  fits : ∀ i, I i → (fs.din i).Fits
  inj : ∀ i j r r', I i → I j → fs.role i r ≠ 0 → fs.role i r = fs.role j r' → i = j ∧ r = r'
  apart : ∀ i j r, I i → I j → fs.role i r ≠ 0 → fs.role i r ≠ j
  data : ∀ i r, I i → fs.role i r ≠ 0 → ¬ fs.vol.isMeta (fs.role i r) ∧ fs.role i r < fs.vol.blocks
  lost : ∀ b, L b → ¬ fs.owns I b
  used : ∀ b, b < fs.vol.blocks → (fs.vol.freemap b = false ↔ fs.owns I b ∨ L b)

/-- The blocks of everybody but inode `i`, and all the inodes. -/
def Fs.rest (fs : Fs) (I : ℕ → Prop) (i b : ℕ) : Prop :=
  fs.vol.isMeta b ∨ I b ∨ ∃ j r, I j ∧ j ≠ i ∧ fs.role j r ≠ 0 ∧ fs.role j r = b

/-- The superblock, the bitmap, and the other inodes with their blocks. -/
def Fs.others (fs : Fs) (I : ℕ → Prop) (i b : ℕ) : Prop :=
  fs.vol.isMeta b ∨ ∃ j, I j ∧ j ≠ i ∧ (b = j ∨ ∃ r, fs.role j r ≠ 0 ∧ fs.role j r = b)

/-- What an operation on inode `i` leaves alone. -/
def Fs.away (fs : Fs) (I L : ℕ → Prop) (i b : ℕ) : Prop := fs.rest I i b ∨ L b

/-- The empty set of blocks. -/
abbrev nowhere : ℕ → Prop := fun _ => False

theorem Fs.away_nowhere {fs : Fs} {I : ℕ → Prop} {i : ℕ} : fs.away I nowhere i = fs.rest I i :=
  funext fun _ => propext (or_iff_left id)

namespace Owned

variable {fs fs' : Fs} {I L : ℕ → Prop} {i j : ℕ}

theorem own (h : Owned fs I L) (hi : I i) : Own (fs.away I L i) fs.vol (fs.din i) where
  vol := h.vol
  small := h.small
  zero := .inl (.inl (.inl rfl))
  inj r r' h0 he := (h.inj i i r r' hi hi h0 he).2
  apart r h0 := by
    rintro ((hm | hI | ⟨j, r', hj, hne, h0', he⟩) | hl)
    · exact (h.data i r hi h0).1 hm
    · exact h.apart i _ r hi hI h0 rfl
    · exact hne (h.inj j i r' r hj hi h0' he).1
    · exact h.lost _ hl (.inr (.inr ⟨i, r, hi, h0, rfl⟩))
  inside r h0 := (h.data i r hi h0).2
  used b hb := by
    rw [h.used b hb]
    refine ⟨?_, ?_⟩
    · rintro ((hm | hI | ⟨j, r, hj, h0, he⟩) | hl)
      · exact .inl (.inl (.inl hm))
      · exact .inl (.inl (.inr (.inl hI)))
      · by_cases hji : j = i
        · subst hji
          exact .inr ⟨r, h0, he⟩
        · exact .inl (.inl (.inr (.inr ⟨j, r, hj, hji, h0, he⟩)))
      · exact .inl (.inr hl)
    · rintro (((hm | hI | ⟨j, r, hj, -, h0, he⟩) | hl) | ⟨r, h0, he⟩)
      · exact .inl (.inl hm)
      · exact .inl (.inr (.inl hI))
      · exact .inl (.inr (.inr ⟨j, r, hj, h0, he⟩))
      · exact .inr hl
      · exact .inl (.inr (.inr ⟨i, r, hi, h0, he⟩))

/-- An inode is found on disk or in memory as before, and its index blocks are as before. -/
theorem role_congr (hdin : fs'.din j = fs.din j)
    (hidx : ∀ r, fs.role j r ≠ 0 → fs'.vol.disk (fs.role j r) = fs.vol.disk (fs.role j r)) :
    fs'.role j = fs.role j := by
  unfold Fs.role
  rw [hdin]
  exact roleAt_congr (hidx .ind) (hidx .dbl) fun m => hidx (.mid m)

/-- The blocks of everybody but inode `i`, and all the inodes: block `i` and the others. -/
theorem rest_iff {b : ℕ} (hi : I i) : fs.rest I i b ↔ b = i ∨ fs.others I i b := by
  unfold Fs.rest Fs.others
  constructor
  · rintro (hm | hI | ⟨j, r, hj, hne, h0, he⟩)
    · exact .inr (.inl hm)
    · by_cases hb : b = i
      · exact .inl hb
      · exact .inr (.inr ⟨b, hI, hb, .inl rfl⟩)
    · exact .inr (.inr ⟨j, hj, hne, .inr ⟨r, h0, he⟩⟩)
  · rintro (rfl | hm | ⟨j, hj, hne, rfl | ⟨r, h0, he⟩⟩)
    · exact .inr (.inl hi)
    · exact .inl hm
    · exact .inr (.inl hj)
    · exact .inr (.inr ⟨j, r, hj, hne, h0, he⟩)

theorem owns_iff {b : ℕ} (hi : I i) :
    fs.owns I b ↔ fs.others I i b ∨ b = i ∨ ∃ r, fs.role i r ≠ 0 ∧ fs.role i r = b := by
  unfold Fs.owns Fs.others
  constructor
  · rintro (hm | hI | ⟨j, r, hj, h0, he⟩)
    · exact .inl (.inl hm)
    · by_cases hb : b = i
      · exact .inr (.inl hb)
      · exact .inl (.inr ⟨b, hI, hb, .inl rfl⟩)
    · by_cases hji : j = i
      · subst hji
        exact .inr (.inr ⟨r, h0, he⟩)
      · exact .inl (.inr ⟨j, hj, hji, .inr ⟨r, h0, he⟩⟩)
  · rintro ((hm | ⟨j, hj, -, rfl | ⟨r, h0, he⟩⟩) | rfl | ⟨r, h0, he⟩)
    · exact .inl hm
    · exact .inr (.inl hj)
    · exact .inr (.inr ⟨j, r, hj, h0, he⟩)
    · exact .inr (.inl hi)
    · exact .inr (.inr ⟨i, r, hi, h0, he⟩)

/-- Nobody else has what an inode that is gone had. -/
theorem owns_iff_of_not {b : ℕ} (hi : ¬ I i) : fs.owns I b ↔ fs.others I i b := by
  unfold Fs.owns Fs.others
  refine or_congr Iff.rfl ⟨?_, ?_⟩
  · rintro (hb | ⟨j, r, hj, h0, he⟩)
    · exact ⟨b, hb, fun he => hi (he ▸ hb), .inl rfl⟩
    · exact ⟨j, hj, fun he => hi (he ▸ hj), .inr ⟨r, h0, he⟩⟩
  · rintro ⟨j, hj, -, rfl | ⟨r, h0, he⟩⟩
    · exact .inl hj
    · exact .inr ⟨j, r, hj, h0, he⟩

/-- The others own the same blocks. -/
theorem others_congr {I' : ℕ → Prop} (hI : ∀ j, j ≠ i → (I' j ↔ I j))
    (hmeta : ∀ b, fs'.vol.isMeta b ↔ fs.vol.isMeta b)
    (hrole : ∀ j, I j → j ≠ i → fs'.role j = fs.role j) (b : ℕ) : fs'.others I' i b ↔ fs.others I i b := by
  unfold Fs.others
  rw [hmeta]
  refine or_congr Iff.rfl (exists_congr fun j => ?_)
  by_cases hji : j = i
  · simp [hji]
  · rw [hI j hji]
    refine and_congr_right fun hj => ?_
    rw [hrole j hj hji]

theorem isMeta_congr (hblocks : fs'.vol.blocks = fs.vol.blocks) (b : ℕ) :
    fs'.vol.isMeta b ↔ fs.vol.isMeta b := by
  unfold Vol.isMeta Vol.freemapBlocks
  rw [hblocks]

/-- Inode `i` changes, is new or is gone: the others stay, and what `i` has is its own.  Blocks may be
lost. -/
theorem change (h : Owned fs I L) {I' L' : ℕ → Prop} (hI : ∀ j, j ≠ i → (I' j ↔ I j))
    (hblocks : fs'.vol.blocks = fs.vol.blocks) (hdin : ∀ j, I j → j ≠ i → fs'.din j = fs.din j)
    (hrole : ∀ j, I j → j ≠ i → fs'.role j = fs.role j) (hcached : ∀ j, fs'.cache j ≠ none → I' j)
    (hvol : fs'.vol.Ok)
    (hnew : I' i → (¬ fs.vol.isMeta i ∧ i < fs.vol.blocks) ∧
      (∀ j r, I j → j ≠ i → fs.role j r ≠ 0 → fs.role j r ≠ i) ∧
      Own (fun b => (b = i ∨ fs.others I i b) ∨ L' b) fs'.vol (fs'.din i) ∧ (fs'.din i).Fits)
    (hgone : ¬ I' i → ∀ b, b < fs.vol.blocks → (fs'.vol.freemap b = false ↔ fs.others I i b ∨ L' b))
    (hlost : ∀ b, L' b → ¬ fs.others I i b ∧ (I' i → b ≠ i)) : Owned fs' I' L' := by
  have hmeta := isMeta_congr hblocks
  have hothers := others_congr hI hmeta hrole
  have hown : ∀ r, I' i → fs'.role i r ≠ 0 → ¬ fs'.others I' i (fs'.role i r) := by
    intro r hi h0 ho
    exact (hnew hi).2.2.1.apart r h0 (.inl (.inr ((hothers _).mp ho)))
  refine ⟨hvol, hblocks ▸ h.small, fun j hj => ?_, hcached, fun j hj => ?_,
    fun j j' r r' hj hj' h0 he => ?_, fun j j' r hj hj' h0 he => ?_, fun j r hj h0 => ?_,
    fun b hb => ?_, fun b hb => ?_⟩
  · rw [hmeta, hblocks]
    by_cases hji : j = i
    · rw [hji] at hj ⊢
      exact (hnew hj).1
    · exact h.node j ((hI j hji).mp hj)
  · by_cases hji : j = i
    · rw [hji] at hj ⊢
      exact (hnew hj).2.2.2
    · rw [hdin j ((hI j hji).mp hj) hji]
      exact h.fits j ((hI j hji).mp hj)
  · by_cases hji : j = i <;> by_cases hji' : j' = i
    · subst hji
      subst hji'
      exact ⟨rfl, (hnew hj).2.2.1.inj r r' h0 he⟩
    · subst hji
      exact absurd (.inr ⟨j', hj', hji', .inr ⟨r', he ▸ h0, he.symm⟩⟩) (hown r hj h0)
    · subst hji'
      exact absurd (.inr ⟨j, hj, hji, .inr ⟨r, h0, he⟩⟩) (hown r' hj' (he ▸ h0))
    · have h1 := (hI j hji).mp hj
      have h2 := (hI j' hji').mp hj'
      rw [hrole j h1 hji] at h0 he
      rw [hrole j' h2 hji'] at he
      exact h.inj j j' r r' h1 h2 h0 he
  · by_cases hji : j = i
    · subst hji
      by_cases hji' : j' = j
      · exact (hnew hj).2.2.1.apart r h0 (.inl (.inl (he.trans hji')))
      · exact hown r hj h0 (.inr ⟨j', hj', hji', .inl he⟩)
    · have h1 := (hI j hji).mp hj
      rw [hrole j h1 hji] at h0 he
      by_cases hji' : j' = i
      · rw [hji'] at he hj'
        exact (hnew hj').2.1 j r h1 hji h0 he
      · exact h.apart j j' r h1 ((hI j' hji').mp hj') h0 he
  · rw [hmeta]
    by_cases hji : j = i
    · subst hji
      exact ⟨fun hm => hown r hj h0 (.inl ((hmeta _).mpr hm)), (hnew hj).2.2.1.inside r h0⟩
    · have h1 := (hI j hji).mp hj
      rw [hrole j h1 hji] at h0 ⊢
      rw [hblocks]
      exact h.data j r h1 h0
  · obtain ⟨hother, hself⟩ := hlost b hb
    by_cases hi : I' i
    · rw [owns_iff hi, hothers]
      rintro (ho | rfl | ⟨r, h0, rfl⟩)
      · exact hother ho
      · exact hself hi rfl
      · exact (hnew hi).2.2.1.apart r h0 (.inr hb)
    · rw [owns_iff_of_not hi, hothers]
      exact hother
  · by_cases hi : I' i
    · rw [owns_iff hi, hothers, (hnew hi).2.2.1.used b hb]
      have hcomm : ∀ p q r s : Prop, ((p ∨ q) ∨ r) ∨ s ↔ (q ∨ p ∨ s) ∨ r := fun p q r s => by tauto
      exact hcomm ..
    · rw [owns_iff_of_not hi, hothers]
      exact hgone hi b (hblocks ▸ hb)

end Owned

namespace Space

variable {fs fs' : Fs} {I : ℕ → Prop} {i j : ℕ}

theorem owned (h : Space fs I) : Owned fs I nowhere :=
  ⟨h.vol, h.small, h.node, h.cached, h.fits, h.inj, h.apart, h.data, nofun,
    fun b hb => (h.used b hb).trans (or_iff_left id).symm⟩

theorem of_owned (h : Owned fs I nowhere)
    (hf : ∀ i, I i → ∀ j, fs.role i (.leaf j) ≠ 0 ↔ j < (fs.din i).blocks) : Space fs I :=
  ⟨h.vol, h.small, h.node, h.cached, h.fits, h.inj, h.apart, h.data,
    fun b hb => (h.used b hb).trans (or_iff_left id), hf⟩

end Space

/-! ## Operations on a cached inode -/

/-- The cached inode `s` as an operation on it sees it. -/
def Fs.lk (fs : Fs) (s : Sin) : Lk := ⟨fs.vol, s.din, s.dirty⟩

/-- What an operation on the cached inode leaves. -/
def Fs.put (fs : Fs) (i : ℕ) (s : Sin) (k : Lk) : Fs :=
  { fs with
    vol := k.vol
    cache := Function.update fs.cache i (some { s with din := k.din, dirty := k.dirty }) }

section Put

variable {fs : Fs} {I : ℕ → Prop} {i : ℕ} {s : Sin} {k : Lk}

theorem Fs.din_cached (hs : fs.cache i = some s) : fs.din i = s.din := by
  unfold Fs.din
  rw [hs]

theorem Fs.put_lk (hs : fs.cache i = some s) : fs.put i s (fs.lk s) = fs := by
  have hself : Function.update fs.cache i (some s) = fs.cache := by
    rw [← hs]
    exact Function.update_eq_self i fs.cache
  show (⟨fs.vol, fs.info, Function.update fs.cache i (some s)⟩ : Fs) = fs
  rw [hself]

theorem Fs.put_cache_self :
    (fs.put i s k).cache i = some { s with din := k.din, dirty := k.dirty } :=
  Function.update_self ..

theorem Fs.put_din_self : (fs.put i s k).din i = k.din := Fs.din_cached Fs.put_cache_self

theorem Fs.put_role_self : (fs.put i s k).role i = k.role := by
  unfold Fs.role
  rw [Fs.put_din_self]
  rfl

theorem Fs.put_cache_of_ne {j : ℕ} (h : j ≠ i) : (fs.put i s k).cache j = fs.cache j :=
  Function.update_of_ne h ..

theorem Fs.put_din_of_ne {j : ℕ} (h : j ≠ i) (hd : k.vol.disk j = fs.vol.disk j) :
    (fs.put i s k).din j = fs.din j := by
  unfold Fs.din
  rw [Fs.put_cache_of_ne h]
  show (match fs.cache j with
    | some s => s.din
    | none => DiskInode.ofBlock (k.vol.disk j)) = _
  rw [hd]

theorem onSin_of_eq {α : Type} {x : Op Lk Err α} {r : Except Err α} (hs : fs.cache i = some s)
    (hx : x (fs.lk s) = some (r, k)) : onSin i x fs = some (r, fs.put i s k) := by
  unfold onSin
  rw [hs]
  show Option.map _ (x (fs.lk s)) = _
  rw [hx]
  rfl

theorem wpx_onSin {α : Type} {x : Op Lk Err α} {Q : Except Err α → Fs → Prop} {F : Prop}
    (hs : fs.cache i = some s) (h : Op.wpx F x (fun r k => Q r (fs.put i s k)) (fs.lk s)) :
    Op.wpx F (onSin i x) Q fs := by
  cases hx : x (fs.lk s) with
  | none =>
    refine Op.wpx_of_none ?_ ?_
    · unfold onSin
      rw [hs]
      show Option.map _ (x (fs.lk s)) = _
      rw [hx]
      rfl
    · unfold Op.wpx at h
      rw [hx] at h
      exact h
  | some p =>
    obtain ⟨r, k⟩ := p
    have hq : Q r (fs.put i s k) := Op.wpx_elim (Q := fun r k => Q r (fs.put i s k)) h hx
    exact Op.wpx_of_eq (onSin_of_eq hs hx) hq

namespace Owned

variable {L : ℕ → Prop}

theorem own_lk (h : Owned fs I L) (hs : fs.cache i = some s) :
    Own (fs.away I L i) (fs.lk s).vol (fs.lk s).din := by
  have hown := h.own (h.cached i (by rw [hs]; simp))
  rw [Fs.din_cached hs] at hown
  exact hown

theorem fits_lk (h : Owned fs I L) (hs : fs.cache i = some s) : s.din.Fits := by
  have hf := h.fits i (h.cached i (by rw [hs]; simp))
  rwa [Fs.din_cached hs] at hf

/-- The inodes of others are where they were. -/
theorem put_din (h : Owned fs I L) (ht : Local (fs.away I L i) (fs.lk s) k) (s' : Sin) {j : ℕ} (hj : I j)
    (hne : j ≠ i) : (fs.put i s' k).din j = fs.din j :=
  Fs.put_din_of_ne hne (ht.rest j (.inl (.inr (.inl hj))) (h.node j hj).2)

theorem put_role (h : Owned fs I L) (ht : Local (fs.away I L i) (fs.lk s) k) (s' : Sin) {j : ℕ} (hj : I j)
    (hne : j ≠ i) : (fs.put i s' k).role j = fs.role j :=
  role_congr (h.put_din ht s' hj hne) fun r h0 =>
    ht.rest _ (.inl (.inr (.inr ⟨j, r, hj, hne, h0, rfl⟩))) (h.data j r hj h0).2

theorem away_iff (hi : I i) : (fun b => (b = i ∨ fs.others I i b) ∨ L b) = fs.away I L i :=
  funext fun _ => propext (or_congr (rest_iff hi).symm Iff.rfl)

/-- What is lost is not somebody else's, and no inode. -/
theorem lost_others {b : ℕ} (h : Owned fs I L) (hi : I i) (hb : L b) : ¬ fs.others I i b ∧ b ≠ i := by
  have hno := h.lost b hb
  rw [owns_iff hi, not_or, not_or] at hno
  exact ⟨hno.1, hno.2.1⟩

theorem put (h : Owned fs I L) (hs : fs.cache i = some s) (ht : Local (fs.away I L i) (fs.lk s) k)
    (hfits : k.din.Fits) (s' : Sin) : Owned (fs.put i s' k) I L := by
  have hi : I i := h.cached i (by rw [hs]; simp)
  refine h.change (fun _ _ => Iff.rfl) ht.blocks (fun j hj hne => h.put_din ht s' hj hne)
    (fun j hj hne => h.put_role ht s' hj hne) (fun j hj => ?_) ht.own.vol (fun _ => ?_) (fun hn => absurd hi hn)
    fun b hb => ?_
  · by_cases hji : j = i
    · rw [hji]
      exact hi
    · rw [Fs.put_cache_of_ne hji] at hj
      exact h.cached j hj
  · rw [Fs.put_din_self, away_iff hi]
    exact ⟨h.node i hi, fun j r hj _ h0 => h.apart j i r hj hi h0, ht.own, hfits⟩
  · obtain ⟨hother, hself⟩ := h.lost_others hi hb
    exact ⟨hother, fun _ => hself⟩

end Owned

namespace Space

theorem own_lk (h : Space fs I) (hs : fs.cache i = some s) :
    Own (fs.rest I i) (fs.lk s).vol (fs.lk s).din := by
  rw [← Fs.away_nowhere]
  exact h.owned.own_lk hs

theorem filled_lk (h : Space fs I) (hs : fs.cache i = some s) : (fs.lk s).Filled := by
  have hf := h.filled i (h.cached i (by rw [hs]; simp))
  unfold Fs.role at hf
  rw [Fs.din_cached hs] at hf
  exact hf

theorem fits_lk (h : Space fs I) (hs : fs.cache i = some s) : s.din.Fits := h.owned.fits_lk hs

theorem put_din (h : Space fs I) (ht : Local (fs.rest I i) (fs.lk s) k) (s' : Sin) {j : ℕ} (hj : I j)
    (hne : j ≠ i) : (fs.put i s' k).din j = fs.din j := by
  rw [← Fs.away_nowhere] at ht
  exact h.owned.put_din ht s' hj hne

theorem put_role (h : Space fs I) (ht : Local (fs.rest I i) (fs.lk s) k) (s' : Sin) {j : ℕ} (hj : I j)
    (hne : j ≠ i) : (fs.put i s' k).role j = fs.role j := by
  rw [← Fs.away_nowhere] at ht
  exact h.owned.put_role ht s' hj hne

theorem put (h : Space fs I) (hs : fs.cache i = some s) (ht : Local (fs.rest I i) (fs.lk s) k)
    (hf : k.Filled) (hfits : k.din.Fits) (s' : Sin) : Space (fs.put i s' k) I := by
  refine .of_owned (h.owned.put hs (by rwa [Fs.away_nowhere]) hfits s') fun j hj m => ?_
  by_cases hji : j = i
  · subst hji
    rw [Fs.put_din_self, Fs.put_role_self]
    exact hf m
  · rw [h.put_role ht s' hj hji, h.put_din ht s' hj hji]
    exact h.filled j hj m

end Space

/-- An inode whose blocks lie in the volume fits its fields. -/
theorem Own.fits {R : ℕ → Prop} {X : Prop} {k : Lk} (h : Own R k.vol k.din) (hc : k.Covered X)
    (hinfo : k.din.info < 2 ^ 32) (hparent : k.din.parent < 2 ^ 32) (htype : k.din.type < 2 ^ 16)
    (hnlinks : k.din.nlinks < 2 ^ 16) (hbeyond : ∀ j, 12 ≤ j → k.din.direct j = 0) : k.din.Fits := by
  have hrole : ∀ r, k.role r < 2 ^ 32 := by
    intro r
    by_cases h0 : k.role r = 0
    · rw [h0]
      exact Nat.two_pow_pos 32
    · exact Nat.lt_of_lt_of_le (h.inside r h0) h.small
  refine ⟨hinfo, hparent, htype, hnlinks, ?_, fun j => ?_, hbeyond, hrole .ind, hrole .dbl⟩
  · have hle := hc.blocks_le
    unfold NLEAF at hle
    omega
  · by_cases hj : j < 12
    · have hd : k.role (.leaf j) = k.din.direct j := roleAt_direct hj
      rw [← hd]
      exact hrole _
    · rw [hbeyond j (by omega)]
      exact Nat.two_pow_pos 32

theorem Touch.fits {R : ℕ → Prop} {X : Prop} {k' : Lk} (h : Touch R k k') (hc : k'.Covered X) (hk : k.din.Fits)
    (hinfo : k'.din.info < 2 ^ 32) : k'.din.Fits :=
  h.own.fits hc hinfo (h.parent ▸ hk.parent) (h.type ▸ hk.type) (h.nlinks ▸ hk.nlinks)
    fun j hj => (h.beyond j hj).trans (hk.beyond j hj)

end Put

end Ucore.Sfs
