import Ucore.Sfs.FsSpec
import Ucore.Sfs.Resize

/-!
# Dropping references

`vop_ref_dec` and `sfs_reclaim`: the last reference to an inode takes it out of the cache, and frees all
of its blocks if it has no links.

* `freeMids_spec`, `freeInode_spec` — the blocks that are left when the data is gone.
* `Stores.release`, `Stores.evict` — the volume without the inode, the cache without it.
* `refDec_spec` — one node loses a reference, is no longer cached, or is gone.
-/

namespace Ucore.Sfs

open Bytes
open Function (update update_eq_self update_idem update_of_ne update_self)

/-- The blocks in `S` have been freed, and `disk` has changed at most in block `e`, if there is one. -/
structure Freed (v : Vol) (S : ℕ → Prop) (e : ℕ) (v' : Vol) : Prop where
  ok : v'.Ok
  blocks : v'.blocks = v.blocks
  map : ∀ b, v'.freemap b = true ↔ v.freemap b = true ∨ S b
  disk : ∀ c, (e ≠ 0 → c ≠ e) → v'.disk c = v.disk c
  super : v'.superDirty = true ∨ (v'.superDirty = v.superDirty ∧ ∀ b, ¬ S b)

section Free

variable {v v' v'' : Vol} {e : ℕ} {S S' : ℕ → Prop}

theorem Freed.refl (h : v.Ok) : Freed v (fun _ => False) e v :=
  ⟨h, rfl, fun _ => (or_iff_left id).symm, fun _ _ => rfl, .inr ⟨rfl, fun _ hf => hf⟩⟩

theorem Freed.trans (h : Freed v S e v') (h' : Freed v' S' e v'') :
    Freed v (fun b => S b ∨ S' b) e v'' where
  ok := h'.ok
  blocks := h'.blocks.trans h.blocks
  map b := by rw [h'.map, h.map, or_assoc]
  disk c hc := (h'.disk c hc).trans (h.disk c hc)
  super := by
    rcases h'.super with hs | ⟨hs, hn⟩
    · exact .inl hs
    · rcases h.super with hs₁ | ⟨hs₁, hn₁⟩
      · exact .inl (hs.trans hs₁)
      · exact .inr ⟨hs.trans hs₁, fun b hb => hb.elim (hn₁ b) (hn b)⟩

theorem Freed.congr (h : Freed v S e v') (hS : ∀ b, S b ↔ S' b) : Freed v S' e v' := by
  have : S = S' := funext fun b => propext (hS b)
  exact this ▸ h

/-- A block in use that is not in `S` is still in use. -/
theorem Freed.used {b : ℕ} (h : Freed v S e v') (hb : v.freemap b = false) (hS : ¬ S b) :
    v'.freemap b = false := by
  refine Bool.eq_false_iff.mpr fun hf => ?_
  rcases (h.map b).mp hf with hf' | hs
  · rw [hb] at hf'
    cases hf'
  · exact hS hs

/-- One block, with a word of block `e` perhaps overwritten before. -/
theorem freed_give {b : ℕ} (h : v.Ok) (hb : v.freemap b = false) (h0 : b ≠ 0) (hlt : b < v.blocks) :
    Freed v (fun c => c = b) e (v.give b) where
  ok := h.give hb h0 hlt
  blocks := rfl
  map c := by
    show update v.freemap b true c = true ↔ _
    by_cases hc : c = b
    · rw [hc, update_self]
      simp
    · rw [update_of_ne hc]
      simp [hc]
  disk _ _ := rfl
  super := .inl rfl

theorem freed_setWord (h : v.Ok) (he : e ≠ 0) (i w : ℕ) : Freed v (fun _ => False) e (v.setWord e i w) where
  ok := h.setWord e i w
  blocks := rfl
  map _ := (or_iff_left id).symm
  disk _ hc := update_of_ne (hc he) ..
  super := .inr ⟨rfl, fun _ hf => hf⟩

/-- The middle blocks from entry `i` on are in use, and different from each other. -/
structure MidsOk (v : Vol) (e i : ℕ) : Prop where
  ok : v.Ok
  ent : e ≠ 0 ∧ e < v.blocks ∧ v.freemap e = false
  mid : ∀ j, i ≤ j → j < 1024 → word (v.disk e) j ≠ 0 →
    word (v.disk e) j < v.blocks ∧ v.freemap (word (v.disk e) j) = false ∧ word (v.disk e) j ≠ e
  inj : ∀ j j', i ≤ j → j < 1024 → i ≤ j' → j' < 1024 → word (v.disk e) j ≠ 0 →
    word (v.disk e) j = word (v.disk e) j' → j = j'

theorem MidsOk.skip {i : ℕ} (h : MidsOk v e i) : MidsOk v e (i + 1) :=
  ⟨h.ok, h.ent, fun j hj => h.mid j (by omega), fun j j' hj hlt hj' => h.inj j j' (by omega) hlt (by omega)⟩

/-- Entry `i` is cleared and its block is freed. -/
theorem MidsOk.step {i : ℕ} (h : MidsOk v e i) (hi : i < 1024) (h0 : word (v.disk e) i ≠ 0) :
    MidsOk ((v.setWord e i 0).give (word (v.disk e) i)) e (i + 1) ∧
      ∀ j, i < j → word (((v.setWord e i 0).give (word (v.disk e) i)).disk e) j = word (v.disk e) j := by
  obtain ⟨hlt, huse, hne⟩ := h.mid i le_rfl hi h0
  have hword : ∀ j, i < j →
      word (((v.setWord e i 0).give (word (v.disk e) i)).disk e) j = word (v.disk e) j := by
    intro j hj
    have hd : ((v.setWord e i 0).give (word (v.disk e) i)).disk e =
        splice (v.disk e) (4 * i) 4 (ofWords fun _ => 0) := update_self ..
    rw [hd, word_setWord _ _ _ _ (by simp), if_neg (by omega)]
  have hmap : ∀ b, b ≠ word (v.disk e) i →
      ((v.setWord e i 0).give (word (v.disk e) i)).freemap b = v.freemap b := fun b hb =>
    update_of_ne hb ..
  refine ⟨⟨(h.ok.setWord e i 0).give huse h0 hlt, ⟨h.ent.1, h.ent.2.1, ?_⟩, fun j hj hj' hw => ?_,
    fun j j' hj hj₁ hj' hj₁' hw he => ?_⟩, hword⟩
  · rw [hmap e hne.symm]
    exact h.ent.2.2
  · rw [hword j hj] at hw ⊢
    obtain ⟨h1, h2, h3⟩ := h.mid j (by omega) hj' hw
    refine ⟨h1, ?_, h3⟩
    rw [hmap]
    · exact h2
    · intro he
      have := h.inj j i (by omega) hj' le_rfl hi hw he
      omega
  · rw [hword j hj] at hw he
    rw [hword j' hj'] at he
    exact h.inj j j' (by omega) hj₁ (by omega) hj₁' hw he

/-- The loop over the entries of the double-indirect block: by induction on the entries left. -/
theorem freeMids_spec : ∀ (n i : ℕ) {v : Vol}, i + n = 1024 → MidsOk v e i →
    ∃ v', freeMids e i n v = some (.ok (), v') ∧
      Freed v (fun b => ∃ j, i ≤ j ∧ j < 1024 ∧ word (v.disk e) j ≠ 0 ∧ word (v.disk e) j = b) e v' := by
  intro n
  induction n with
  | zero =>
    intro i v hi h
    refine ⟨v, rfl, (Freed.refl h.ok).congr fun b => ?_⟩
    refine iff_of_false id ?_
    rintro ⟨j, hj, hlt, -⟩
    omega
  | succ n ih =>
    intro i v hi h
    have hlt : i < 1024 := by omega
    obtain ⟨he0, helt, heuse⟩ := h.ent
    by_cases h0 : word (v.disk e) i = 0
    · have hsub : bmapFreeSub e i v = some (.ok (), v) := by
        unfold bmapFreeSub
        rw [Op.bind_of_ok (assertInuse_eq he0 helt heuse),
          Op.bind_of_ok (if_pos hlt : Op.assert (i < SFS_BLK_NENTRY) v = some (.ok (), v)),
          Op.bind_of_ok (rword_eq hlt he0 helt), h0, if_neg (by simp)]
        rfl
      obtain ⟨v', heq, hf⟩ := ih (i + 1) (by omega) h.skip
      refine ⟨v', ?_, hf.congr fun b => ⟨?_, ?_⟩⟩
      · unfold freeMids
        rw [Op.bind_of_ok hsub]
        exact heq
      · rintro ⟨j, hj, hj', hw, he⟩
        exact ⟨j, by omega, hj', hw, he⟩
      · rintro ⟨j, hj, hj', hw, he⟩
        refine ⟨j, ?_, hj', hw, he⟩
        by_contra hlt'
        obtain rfl : j = i := by omega
        exact hw h0
    · obtain ⟨hwlt, hwuse, hwne⟩ := h.mid i le_rfl hlt h0
      have hfree : blockFree (word (v.disk e) i) (v.setWord e i 0) =
          some (.ok (), (v.setWord e i 0).give (word (v.disk e) i)) := blockFree_spec hwuse h0 hwlt
      have hsub : bmapFreeSub e i v =
          some (.ok (), (v.setWord e i 0).give (word (v.disk e) i)) := by
        unfold bmapFreeSub
        rw [Op.bind_of_ok (assertInuse_eq he0 helt heuse),
          Op.bind_of_ok (if_pos hlt : Op.assert (i < SFS_BLK_NENTRY) v = some (.ok (), v)),
          Op.bind_of_ok (rword_eq hlt he0 helt), if_pos h0, Op.bind_of_ok (wword_eq hlt he0 helt)]
        exact hfree
      obtain ⟨hmids, hword⟩ := h.step hlt h0
      obtain ⟨v', heq, hf⟩ := ih (i + 1) (by omega) hmids
      have hgive := freed_give (e := e) (h.ok.setWord e i 0) hwuse h0 hwlt
      refine ⟨v', ?_, (((freed_setWord h.ok he0 i 0).trans hgive).trans hf).congr fun b => ⟨?_, ?_⟩⟩
      · unfold freeMids
        rw [Op.bind_of_ok hsub]
        exact heq
      · rintro ((hf | hb) | ⟨j, hj, hj', hw, he⟩)
        · exact hf.elim
        · exact ⟨i, le_rfl, hlt, h0, hb.symm⟩
        · rw [hword j hj] at hw he
          exact ⟨j, by omega, hj', hw, he⟩
      · rintro ⟨j, hj, hj', hw, he⟩
        by_cases hji : j = i
        · subst hji
          exact .inl (.inr he.symm)
        · have hlt' : i < j := by omega
          exact .inr ⟨j, hlt', hj', by rw [hword j hlt']; exact hw, by rw [hword j hlt']; exact he⟩

/-- The double-indirect block, when the middle blocks below it are in order. -/
theorem freeDouble_spec (h : e ≠ 0 → MidsOk v e 0) (hok : v.Ok) :
    ∃ v', freeDouble e v = some (.ok (), v') ∧ Freed v (fun b => e ≠ 0 ∧ (b = e ∨
      ∃ j, j < 1024 ∧ word (v.disk e) j ≠ 0 ∧ word (v.disk e) j = b)) e v' := by
  by_cases h0 : e = 0
  · refine ⟨v, ?_, (Freed.refl hok).congr fun b => iff_of_false id fun hc => hc.1 h0⟩
    unfold freeDouble
    rw [if_pos h0]
    rfl
  · have hm := h h0
    obtain ⟨v₁, heq, hf⟩ := freeMids_spec (e := e) 1024 0 rfl hm
    have huse : v₁.freemap e = false := by
      refine hf.used hm.ent.2.2 ?_
      rintro ⟨j, hj, hj', hw, he⟩
      exact (hm.mid j hj hj' hw).2.2 he
    have hlt : e < v₁.blocks := hf.blocks ▸ hm.ent.2.1
    refine ⟨v₁.give e, ?_, (hf.trans (freed_give hf.ok huse h0 hlt)).congr fun b => ⟨?_, ?_⟩⟩
    · unfold freeDouble
      rw [if_neg h0, show SFS_BLK_NENTRY = 1024 from rfl, Op.bind_of_ok heq]
      exact blockFree_spec huse h0 hlt
    · rintro (⟨j, -, hj', hw, he⟩ | hb)
      · exact ⟨h0, .inr ⟨j, hj', hw, he⟩⟩
      · exact ⟨h0, .inl hb⟩
    · rintro ⟨-, hb | ⟨j, hj', hw, he⟩⟩
      · exact .inr hb
      · exact .inl ⟨j, Nat.zero_le j, hj', hw, he⟩

variable {R : ℕ → Prop} {d : DiskInode} {i : ℕ}

/-- The middle blocks of an inode, once its own block and the indirect block may have been freed. -/
theorem Own.midsOk (h : Own R v d) (hf : Freed v S (d.dbIndirect) v') (h0 : d.dbIndirect ≠ 0)
    (hdisk : v'.disk = v.disk) (hS : ∀ b, S b → R b ∨ b = d.indirect) : MidsOk v' d.dbIndirect 0 := by
  have hother : ∀ r, roleAt v.disk d r ≠ 0 → r ≠ .ind → ¬ S (roleAt v.disk d r) := by
    intro r hr hne hs
    rcases hS _ hs with hR | he
    · exact h.apart r hr hR
    · exact hne (h.inj r .ind hr he)
  have hmid : ∀ j, j < 1024 → word (v.disk d.dbIndirect) j = roleAt v.disk d (.mid j) := by
    intro j hj
    rw [roleAt_mid hj]
    unfold entryAt
    rw [if_neg h0]
  refine ⟨hf.ok, ⟨h0, hf.blocks ▸ h.inside .dbl h0, ?_⟩, fun j _ hj hw => ?_,
    fun j j' _ hj _ hj' hw he => ?_⟩
  · exact hf.used (h.inuse (r := .dbl) h0) (hother .dbl h0 nofun)
  · rw [hdisk, hmid j hj] at hw ⊢
    refine ⟨hf.blocks ▸ h.inside _ hw, hf.used (h.inuse hw) (hother _ hw nofun), fun he => ?_⟩
    exact nomatch h.inj (.mid j) .dbl hw he
  · rw [hdisk, hmid j hj] at hw he
    rw [hmid j' hj'] at he
    exact Role.mid.inj (h.inj _ _ hw he)

/-- What `sfs_reclaim` frees after the data: the inode and its index blocks. -/
theorem freeInode_spec (h : Own R v d) (hR : R i) (h0 : i ≠ 0) (hlt : i < v.blocks) :
    ∃ v', freeInode i d v = some (.ok (), v') ∧ Freed v (fun b => b = i ∨
      ∃ r, r.isIndex = true ∧ roleAt v.disk d r ≠ 0 ∧ roleAt v.disk d r = b) d.dbIndirect v' := by
  have huse : v.freemap i = false := (h.used i hlt).mpr (.inl hR)
  have hgive : Freed v (fun b => b = i) d.dbIndirect (v.give i) := freed_give h.vol huse h0 hlt
  -- the roles that are left, in the order in which they are freed
  have hroles : ∀ b, (∃ r, r.isIndex = true ∧ roleAt v.disk d r ≠ 0 ∧ roleAt v.disk d r = b) ↔
      (d.indirect ≠ 0 ∧ b = d.indirect) ∨ (d.dbIndirect ≠ 0 ∧ (b = d.dbIndirect ∨
        ∃ j, j < 1024 ∧ word (v.disk d.dbIndirect) j ≠ 0 ∧ word (v.disk d.dbIndirect) j = b)) := by
    intro b
    constructor
    · rintro ⟨r, hidx, hr, he⟩
      cases r with
      | leaf j => cases hidx
      | ind => exact .inl ⟨hr, he.symm⟩
      | dbl => exact .inr ⟨hr, .inl he.symm⟩
      | mid j =>
        have hj : j < 1024 := by
          by_contra hge
          exact hr (roleAt_mid_beyond (Nat.not_lt.mp hge))
        rw [roleAt_mid hj] at hr he
        unfold entryAt at hr he
        by_cases hd : d.dbIndirect = 0
        · rw [if_pos hd] at hr
          exact absurd rfl hr
        · rw [if_neg hd] at hr he
          exact .inr ⟨hd, .inr ⟨j, hj, hr, he⟩⟩
    · rintro (⟨hd, hb⟩ | ⟨hd, hb | ⟨j, hj, hw, he⟩⟩)
      · exact ⟨.ind, rfl, hd, hb.symm⟩
      · exact ⟨.dbl, rfl, hd, hb.symm⟩
      · refine ⟨.mid j, rfl, ?_, ?_⟩
        · rw [roleAt_mid hj]
          unfold entryAt
          rwa [if_neg hd]
        · rw [roleAt_mid hj]
          unfold entryAt
          rwa [if_neg hd]
  unfold freeInode
  rw [Op.bind_of_ok (blockFree_spec huse h0 hlt)]
  by_cases hi : d.indirect = 0
  · obtain ⟨v', heq, hf⟩ := freeDouble_spec (e := d.dbIndirect) (fun hd =>
      h.midsOk hgive hd rfl fun b hb => .inl (hb ▸ hR)) hgive.ok
    refine ⟨v', ?_, (hgive.trans hf).congr fun b => ?_⟩
    · rw [if_pos hi]
      exact heq
    · rw [hroles]
      refine or_congr Iff.rfl ⟨.inr, fun hb => hb.resolve_left fun hc => hc.1 hi⟩
  · have hne : d.indirect ≠ i := fun he => h.apart .ind hi (he ▸ hR : R d.indirect)
    have huse₁ : (v.give i).freemap d.indirect = false := hgive.used (h.inuse (r := .ind) hi) hne
    have hgive₂ := hgive.trans (freed_give (e := d.dbIndirect) hgive.ok huse₁ hi (h.inside .ind hi))
    obtain ⟨v', heq, hf⟩ := freeDouble_spec (e := d.dbIndirect) (fun hd =>
      h.midsOk hgive₂ hd rfl fun b hb => hb.imp (fun he : b = i => he ▸ hR) id) hgive₂.ok
    refine ⟨v', ?_, (hgive₂.trans hf).congr fun b => ?_⟩
    · rw [if_neg hi, Op.bind_of_ok (blockFree_spec huse₁ hi (h.inside .ind hi))]
      exact heq
    · rw [hroles, or_assoc]
      exact or_congr Iff.rfl (or_congr ⟨fun hb => ⟨hi, hb⟩, fun hb => hb.2⟩ Iff.rfl)

end Free

/-! ## The volume without the inode -/

section Release

variable {fs : Fs} {t : Tree} {c : ℕ → ℕ → UInt8} {X : Prop} {i : ℕ} {n : Node} {s : Sin}

/-- The inode and its index blocks are freed and it leaves the cache; its leaves, if it still has some, are
lost. -/
theorem Stores.release (fs' : Fs) (h : Stores fs t c X) (hi : t.has i) (hinfo : fs'.info = fs.info)
    {e : ℕ} (hblk : e = 0 ∨ ∃ r, fs.role i r ≠ 0 ∧ fs.role i r = e)
    (hf : Freed fs.vol (fun b => b = i ∨ ∃ r, r.isIndex = true ∧ fs.role i r ≠ 0 ∧ fs.role i r = b) e fs'.vol)
    (hstray : X ∨ ∀ j, fs.role i (.leaf j) = 0) (hcache : fs'.cache = update fs.cache i none) :
    Stores fs' (update t i none) c X := by
  obtain ⟨L, hL, ho⟩ := h.owned
  have hmeta := ho.node i hi
  -- nobody else has block `i` or a block of the inode
  have hout : ∀ b, fs.others t.has i b → ¬ (b = i ∨ ∃ r, fs.role i r ≠ 0 ∧ fs.role i r = b) := by
    rintro b hoth (rfl | ⟨r, h0, rfl⟩)
    · rcases hoth with hm | ⟨j, hj, hne, he | ⟨r, h0, he⟩⟩
      · exact hmeta.1 hm
      · exact hne he.symm
      · exact ho.apart j b r hj hi h0 he
    · exact (ho.own hi).apart r h0 (.inl ((Owned.rest_iff hi).mpr (.inr hoth)))
  have hother : ∀ j, j ≠ i → fs'.cache j = fs.cache j := fun j hj => by
    rw [hcache]
    exact update_of_ne hj ..
  have hself : fs'.cache i = none := by
    rw [hcache]
    exact update_self ..
  have hrest : ∀ b, fs.others t.has i b → b < fs.vol.blocks → fs'.vol.disk b = fs.vol.disk b := by
    intro b hoth _
    refine hf.disk b fun he0 hce => ?_
    rcases hblk with h0 | hr
    · exact he0 h0
    · exact hout b hoth (.inr (hce ▸ hr))
  let L' : ℕ → Prop := fun b => L b ∨ ∃ j, fs.role i (.leaf j) ≠ 0 ∧ fs.role i (.leaf j) = b
  have hL' : X ∨ L' = nowhere := by
    rcases hL with hx | hL
    · exact .inl hx
    · refine hstray.imp id fun hz => funext fun b => propext (iff_of_false ?_ id)
      rintro (hl | ⟨j, h0, -⟩)
      · rwa [hL] at hl
      · exact h0 (hz j)
  have hchange : Stores fs' (update t i none) (update c i (c i)) X := h.change ho
    ⟨hL', fun b hb => ⟨fun hoth => ?_, fun he => ?_⟩⟩ hinfo hf.blocks
    hother (fun j r hj _ h0 => ho.apart j i r hj hi h0) hrest hf.ok
    nofun (fun _ => ⟨hself, fun b hb => ?_⟩) (fun s hs => ?_) (fun s hs => ?_) fun hd => ?_
  · rwa [update_eq_self] at hchange
  · rcases hb with hl | ⟨j, h0, he⟩
    · exact (ho.lost_others hi hl).1 hoth
    · exact hout b hoth (.inr ⟨_, h0, he⟩)
  · rcases hb with hl | ⟨j, h0, he'⟩
    · exact (ho.lost_others hi hl).2 he
    · exact ho.apart i i _ hi hi h0 (he'.trans he)
  · rw [← Bool.not_eq_true, hf.map, not_or, Bool.not_eq_true, ho.used b hb, Owned.owns_iff hi]
    constructor
    · rintro ⟨(hoth | rfl | ⟨r, h0, he⟩) | hl, hno⟩
      · exact .inl hoth
      · exact absurd (.inl rfl) hno
      · cases r with
        | leaf j => exact .inr (.inr ⟨j, h0, he⟩)
        | ind => exact absurd (.inr ⟨.ind, rfl, h0, he⟩) hno
        | dbl => exact absurd (.inr ⟨.dbl, rfl, h0, he⟩) hno
        | mid j => exact absurd (.inr ⟨.mid j, rfl, h0, he⟩) hno
      · exact .inr (.inl hl)
    · rintro (hoth | hl | ⟨j, h0, he⟩)
      · exact ⟨.inl (.inl hoth), fun hc => hout b hoth (hc.imp id fun ⟨r, _, hr⟩ => ⟨r, hr⟩)⟩
      · obtain ⟨-, hne⟩ := ho.lost_others hi hl
        refine ⟨.inr hl, ?_⟩
        rintro (rfl | ⟨r, -, h0, he⟩)
        · exact hne rfl
        · exact ho.lost b hl (.inr (.inr ⟨i, r, hi, h0, he⟩))
      · refine ⟨.inl (.inr (.inr ⟨_, h0, he⟩)), ?_⟩
        rintro (rfl | ⟨r, hidx, h1, he'⟩)
        · exact ho.apart b b _ hi hi h0 he
        · have := (ho.inj i i _ _ hi hi h0 (he.trans he'.symm)).2
          subst this
          cases hidx
  · rw [hself] at hs
    cases hs
  · rw [hself] at hs
    cases hs
  · rcases hf.super with hs | ⟨-, hn⟩
    · rw [hs] at hd
      cases hd
    · exact absurd (.inl rfl) (hn i)

/-- The inode is in its block, up to the number of its blocks, and leaves the cache. -/
theorem Stores.evict (h : Stores fs t c X) (hs : fs.cache i = some s) (hl : s.din.nlinks ≠ 0)
    (hr : s.removed = false) {v : Vol} (hv : v = { fs.vol with disk := v.disk })
    (hdisk : ∀ b, b ≠ i → v.disk b = fs.vol.disk b)
    (hself : Behind (X ∧ s.din.type = SFS_TYPE_FILE) (DiskInode.ofBlock (v.disk i)) s.din) :
    Stores ⟨v, fs.info, update fs.cache i none⟩ (update t i
      (some { s.node fs with ref := 0, blocks := (DiskInode.ofBlock (v.disk i)).blocks })) c X := by
  obtain ⟨L, -, ho⟩ := h.owned
  have hn := h.node_of hs
  have hi := h.has hs
  have hnone : update fs.cache i none i = none := update_self ..
  have hview : Fs.view ⟨v, fs.info, update fs.cache i none⟩ i =
      ⟨DiskInode.ofBlock (v.disk i), false, false, 0⟩ := by
    unfold Fs.view
    dsimp only
    rw [hnone]
  have hok : v.Ok := by
    have hvol := ho.vol
    rw [hv]
    exact ⟨hvol.free, hvol.count⟩
  have hdin : Fs.din ⟨v, fs.info, update fs.cache i none⟩ i = DiskInode.ofBlock (v.disk i) := by
    rw [Fs.din_view, hview]
  refine h.recache hn rfl hok (by rw [hv]) (by rw [hv]) (by rw [hv]) (by rw [hv]) hdisk
    (fun j hj => update_of_ne hj ..) ?_ ?_ (fun _ => hl) (fun s' hs' => ?_) fun s' hs' => ?_
  · rw [hdin, Fs.din_cached hs]
    exact hself
  · unfold Fs.node
    rw [hview]
    have hidx : ∀ r, roleAt fs.vol.disk s.din r ≠ 0 →
        v.disk (roleAt fs.vol.disk s.din r) = fs.vol.disk (roleAt fs.vol.disk s.din r) := by
      intro r h0
      refine hdisk _ ?_
      have := ho.apart i i r hi hi
      unfold Fs.role at this
      rw [Fs.din_cached hs] at this
      exact this h0
    have hrole : (Fs.lk ⟨v, fs.info, update fs.cache i none⟩
        ⟨DiskInode.ofBlock (v.disk i), false, false, 0⟩).role = (fs.lk s).role := by
      show roleAt v.disk (DiskInode.ofBlock (v.disk i)) = roleAt fs.vol.disk s.din
      rw [hself.same, ← roleAt_congr (hidx .ind) (hidx .dbl) fun m => hidx (.mid m)]
      rfl
    have hents : (Fs.lk ⟨v, fs.info, update fs.cache i none⟩
        ⟨DiskInode.ofBlock (v.disk i), false, false, 0⟩).ents = (fs.lk s).ents := by
      by_cases hdir : s.din.type = SFS_TYPE_DIR
      · have hb : (DiskInode.ofBlock (v.disk i)).blocks = s.din.blocks := hself.exact fun hP => by
          have := hP.2
          rw [hdir] at this
          exact absurd this (by decide)
        have htype : (DiskInode.ofBlock (v.disk i)).type = s.din.type := by rw [hself.same]
        exact Lk.ents_congr (h.covered_lk hs) htype hb hrole fun m h0 => hidx (.leaf m) h0
      · have htype : (DiskInode.ofBlock (v.disk i)).type = s.din.type := by rw [hself.same]
        funext m
        unfold Lk.ents
        rw [if_neg fun hc => hdir (htype ▸ hc.1), if_neg fun hc => hdir hc.1]
    unfold Sin.node nodeOf
    rw [hents, hr]
    show (⟨(DiskInode.ofBlock (v.disk i)).type, (DiskInode.ofBlock (v.disk i)).nlinks,
      (DiskInode.ofBlock (v.disk i)).info, (DiskInode.ofBlock (v.disk i)).parent, _, _, _, _⟩ : Node) = _
    rw [hself.same]
    rfl
  · exact nomatch hnone.symm.trans hs'
  · exact nomatch hnone.symm.trans hs'

end Release

/-! ## `vop_ref_dec` -/

/-- The node after a reference to it has been dropped. -/
def Node.drop (n : Node) : Option Node :=
  if n.ref ≠ 1 then some { n with ref := n.ref - 1 }
  else if n.nlinks = 0 then none
  else some { n with ref := 0 }

/-- The same, with the number of blocks that is found on disk. -/
def Node.fade (n : Node) (b : ℕ) : Option Node := n.drop.map fun m => { m with blocks := b }

theorem Node.fade_self (n : Node) : n.fade n.blocks = n.drop := by
  unfold Node.fade Node.drop
  split
  · rfl
  · split <;> rfl

section RefDec

variable {fs : Fs} {t : Tree} {c : ℕ → ℕ → UInt8} {X : Prop} {i : ℕ} {n : Node} {s : Sin}

theorem setSin_eq (s' : Sin) : setSin i s' fs = some (.ok (), fs.put i s' (fs.lk s')) := rfl

/-- Block `i` as `sfs_fsync` writes it. -/
def Vol.saved (v : Vol) (i : ℕ) (d : DiskInode) : Vol :=
  { v with disk := update v.disk i (splice (v.disk i) 0 INODE_SIZE (ofWords d.words)) }

theorem Vol.saved_inode {v : Vol} {d : DiskInode} (h : d.Fits) : DiskInode.ofBlock ((v.saved i d).disk i) = d := by
  show DiskInode.ofBlock (update v.disk i _ i) = d
  rw [update_self]
  exact DiskInode.ofBlock_splice h _

/-- `sfs_fsync` of an inode that has links and is dirty. -/
theorem fsync_eq (hs : fs.cache i = some s) (hl : s.din.nlinks ≠ 0) (hd : s.dirty = true)
    (hr : s.removed = false) (h0 : i ≠ 0) (hlt : i < fs.vol.blocks) : fsync i fs = some (.ok (),
      ⟨fs.vol.saved i s.din, fs.info, update fs.cache i (some { s with dirty := false })⟩) := by
  have hw : winode s.din i fs.vol = some (.ok (), fs.vol.saved i s.din) :=
    if_pos ⟨by unfold SFS_BLKSIZE; omega, by unfold SFS_BLKSIZE INODE_SIZE; omega, h0, hlt⟩
  have hlock : trylockSin i fs = some (.ok (), fs) := by
    unfold trylockSin
    rw [Op.bind_of_ok (sinOf_eq hs), if_neg (by rw [hr]; simp)]
    rfl
  have hcond : ¬ (s.din.nlinks = 0 ∨ s.dirty = false) := by
    rw [hd]
    simpa using hl
  unfold fsync
  rw [Op.bind_of_ok (sinOf_eq hs), if_neg hcond, Op.bind_of_ok hlock,
    Op.bind_of_ok (setSin_eq { s with dirty := false })]
  exact onDisk_of_ok hw

/-- The reclaim of an inode that has links: it is written back if it must be. -/
theorem reclaim_linked (h : Stores fs t c X) (hs : fs.cache i = some s) (hl : s.din.nlinks ≠ 0)
    (hr : s.removed = false) : ∃ fs' b, reclaim i (fs.put i { s with ref := 0 } (fs.lk s)) =
      some (.ok (), fs') ∧ Lags (X ∧ s.din.type = SFS_TYPE_FILE) { s.din with blocks := b } s.din ∧
      Stores fs' (update t i (some { s.node fs with ref := 0, blocks := b })) c X := by
  obtain ⟨L, -, ho⟩ := h.owned
  generalize hfs₁ : fs.put i { s with ref := 0 } (fs.lk s) = fs₁
  have hs₁ : fs₁.cache i = some { s with ref := 0 } := by
    rw [← hfs₁]
    exact Fs.put_cache_self
  have hvol : fs₁.vol = fs.vol := by rw [← hfs₁]; rfl
  have hcache : update fs₁.cache i none = update fs.cache i none := by
    rw [← hfs₁]
    exact update_idem ..
  have hinfo : fs₁.info = fs.info := by rw [← hfs₁]; rfl
  unfold reclaim
  rw [Op.bind_of_ok (sinOf_eq hs₁), if_neg hl]
  cases hd : s.dirty with
  | false =>
    have hb := h.clean i s hs hd hl
    refine ⟨_, _, ?_, ⟨rfl, hb.le, hb.exact⟩, h.evict hs hl hr rfl (fun _ _ => rfl) hb⟩
    show some (Except.ok (), (⟨fs₁.vol, fs₁.info, update fs₁.cache i none⟩ : Fs)) = _
    rw [hvol, hcache, hinfo]
  | true =>
    obtain ⟨hmeta, hlt⟩ := ho.node i (h.has hs)
    have h0 : i ≠ 0 := fun he => hmeta (.inl he)
    have hfits := ho.fits_lk hs
    have hself : DiskInode.ofBlock ((fs.vol.saved i s.din).disk i) = s.din := Vol.saved_inode hfits
    have hbehind : Behind (X ∧ s.din.type = SFS_TYPE_FILE)
        (DiskInode.ofBlock ((fs.vol.saved i s.din).disk i)) s.din := by
      rw [hself]
      exact ⟨Lags.refl _, fun hP => (h.neat hs hP.1 hP.2).size⟩
    refine ⟨_, _, ?_, ⟨rfl, hbehind.le, hbehind.exact⟩,
      h.evict (v := fs.vol.saved i s.din) hs hl hr rfl (fun b hb => update_of_ne hb ..) hbehind⟩
    have hsync := fsync_eq hs₁ hl hd hr h0 (by rw [hvol]; exact hlt)
    dsimp only
    rw [if_pos rfl, Op.bind_of_ok hsync]
    show some (Except.ok (), (⟨fs₁.vol.saved i s.din, fs₁.info,
      update (update fs₁.cache i _) i none⟩ : Fs)) = _
    rw [update_idem, hcache, hvol, hinfo]

/-- The reclaim of an inode that has none: its blocks are freed, up to those that are lost. -/
theorem reclaim_unlinked (h : Stores fs t c X) (hs : fs.cache i = some s) (hl : s.din.nlinks = 0)
    (hsol : (fs.lk s).Solid X) : ∃ fs', reclaim i (fs.put i { s with ref := 0 } (fs.lk s)) = some (.ok (), fs') ∧
      Stores fs' (update t i none) c X := by
  obtain ⟨L, hL, ho⟩ := h.owned
  have hi := h.has hs
  obtain ⟨k, heq, hk⟩ := shrinkLoop_spec s.din.blocks (ho.own_lk hs) hsol le_rfl
  have hb : k.din.blocks = 0 := by
    have : k.din.blocks + s.din.blocks = s.din.blocks := hk.dinBlocks
    omega
  -- the volume without the data, with an empty file still cached
  let k₀ : Lk := ⟨k.vol, { k.din with info := 0 }, true⟩
  have ht : Touch (fs.away t.has L i) (fs.lk s) k₀ := hk.toTouch.setInfo 0 k.din.blocks true
  have hsol₀ : k₀.Solid X := by
    have := hk.solid X hsol
    exact ⟨⟨this.leaf, this.exact⟩, this.blank⟩
  have hzero : k₀.data = fun _ => 0 := funext fun p => hsol₀.data_beyond (by show 4096 * k.din.blocks ≤ p; omega)
  have hput := h.put hL ho hs ht.toLocal hsol₀.toCovered
    (ht.fits hsol₀.toCovered (ho.fits_lk hs) (Nat.two_pow_pos 32))
    nofun s (h.held i s hs) fun _ => ⟨hzero, fun _ => ⟨Nat.zero_le _, fun _ _ => rfl⟩⟩
  have hi' : Tree.has (update t i (some (nodeOf k₀ s.removed s.ref))) i := by
    rw [Tree.has_update hi]
    exact hi
  obtain ⟨L', -, ho'⟩ := hput.owned
  obtain ⟨hmeta, hlt⟩ := ho'.node i hi'
  have h0 : i ≠ 0 := fun he => hmeta (.inl he)
  have hown := ho'.own hi'
  have hdin : (fs.put i s k₀).din i = k₀.din := Fs.put_din_self
  rw [hdin] at hown
  obtain ⟨v', hfree, hf⟩ := freeInode_spec hown (.inl (.inr (.inl hi'))) h0 hlt
  have hrole : (fs.put i s k₀).role i = roleAt k.vol.disk k₀.din := Fs.put_role_self
  have hrel := Stores.release ⟨v', fs.info, update fs.cache i none⟩
    (e := k.din.dbIndirect) hput hi' rfl ?_ ?_ ?_ ?_
  · rw [update_idem] at hrel
    refine ⟨⟨v', fs.info, update fs.cache i none⟩, ?_, hrel.contents fun j n hj _ => ?_⟩
    · have hs₁ : (fs.put i { s with ref := 0 } (fs.lk s)).cache i = some { s with ref := 0 } :=
        Fs.put_cache_self
      have hshrink : onSin i (shrinkLoop s.din.blocks) (fs.put i { s with ref := 0 } (fs.lk s)) =
          some (.ok (), fs.put i { s with ref := 0 } k) := by
        rw [onSin_of_eq (k := k) hs₁ heq]
        show some (Except.ok (), (⟨k.vol, fs.info, update (update fs.cache i _) i _⟩ : Fs)) = _
        rw [update_idem]
        rfl
      unfold reclaim
      rw [Op.bind_of_ok (sinOf_eq hs₁), if_pos hl, Op.bind_of_ok hshrink,
        Op.bind_of_ok (sinOf_eq Fs.put_cache_self),
        Op.bind_of_ok (rfl : removeLinks i _ = some (.ok (), _))]
      have hdone : (⟨k.vol, fs.info, update (fs.put i { s with ref := 0 } k).cache i none⟩ : Fs) =
          ⟨k.vol, fs.info, update fs.cache i none⟩ := by
        show (⟨k.vol, fs.info, update (update fs.cache i _) i none⟩ : Fs) = _
        rw [update_idem]
      show onDisk (freeInode i k.din)
        ⟨k.vol, fs.info, update (fs.put i { s with ref := 0 } k).cache i none⟩ = _
      rw [hdone]
      exact onDisk_of_ok hfree
    · have hne : j ≠ i := by
        rintro rfl
        rw [update_self] at hj
        cases hj
      exact (update_of_ne hne ..).symm
  · rw [hrole]
    by_cases he : k.din.dbIndirect = 0
    · exact .inl he
    · exact .inr ⟨.dbl, he, rfl⟩
  · rw [hrole]
    exact hf
  · by_cases hx : X
    · exact .inl hx
    · refine .inr fun j => ?_
      rw [hrole]
      by_contra hne
      have := hsol₀.exact (fun hX => absurd hX hx) j hne
      have hlt : j < k.din.blocks := this
      omega
  · show update fs.cache i none = update (update fs.cache i _) i none
    rw [update_idem]

/-- A file that has nothing beyond its size reads as zero there. -/
theorem Stores.solid (h : Stores fs t c X) (hs : fs.cache i = some s) : (fs.lk s).Solid X := by
  have hcov := h.covered_lk hs
  refine ⟨hcov, fun j hj h0 => ?_⟩
  have hlt : ¬ (X → s.din.type = SFS_TYPE_DIR) := fun hx => Nat.not_lt.mpr hj (hcov.exact hx j h0)
  obtain ⟨hx, hndir⟩ := Classical.not_imp.mp hlt
  have hfile : s.din.type = SFS_TYPE_FILE := (h.type i _ (h.node_of hs)).resolve_left hndir
  have hneat := h.neat hs hx hfile
  intro r hr
  have hj' : s.din.blocks ≤ j := hj
  have hdiv : (4096 * j + r) / 4096 = j := by omega
  have hmod : (4096 * j + r) % 4096 = r := by omega
  have hdata : (fs.lk s).data (4096 * j + r) = 0 := by
    rw [h.data_lk hs hfile]
    have := hneat.size
    exact hneat.blank _ (by omega)
  rw [Lk.data_of_leaf (by rwa [hdiv])] at hdata
  unfold Lk.byte at hdata
  rwa [hdiv, hmod] at hdata

/-- `vop_ref_dec`: a directory that has been removed has no links, so nothing keeps `sfs_fsync` from
writing an inode back. -/
theorem refDec_spec (h : Stores fs t c X) (hn : t i = some n) (href : 0 < n.ref)
    (hrem : n.removed = true → n.nlinks = 0) :
    ∃ fs' b, refDec i fs = some (.ok (), fs') ∧ b ≤ n.blocks ∧ (¬ (X ∧ n.type = SFS_TYPE_FILE) → b = n.blocks) ∧
      Stores fs' (update t i (n.fade b)) c X := by
  obtain ⟨s, hs, rfl⟩ := h.cached hn href
  have href' : 0 < s.ref := href
  have hrefs : (s.node fs).ref = s.ref := rfl
  unfold refDec
  rw [Op.bind_of_ok (sinOf_eq hs),
    Op.bind_of_ok (if_pos href' : Op.assert (0 < s.ref) fs = some (.ok (), fs))]
  by_cases h1 : s.ref = 1
  · rw [Op.bind_of_ok (setSin_eq _), if_pos h1]
    have hzero : fs.put i { s with ref := s.ref - 1 } (fs.lk { s with ref := s.ref - 1 }) =
        fs.put i { s with ref := 0 } (fs.lk s) := by
      rw [h1]
      rfl
    rw [hzero]
    have hdone : ∀ {fs' : Fs}, reclaim i (fs.put i { s with ref := 0 } (fs.lk s)) = some (.ok (), fs') →
        (do let _ ← Op.attempt (reclaim i); pure () : Op Fs Err Unit)
          (fs.put i { s with ref := 0 } (fs.lk s)) = some (.ok (), fs') := fun {fs'} heq => by
      have hatt : Op.attempt (reclaim i) (fs.put i { s with ref := 0 } (fs.lk s)) =
          some (.ok (.ok ()), fs') := by
        unfold Op.attempt
        rw [heq]
        rfl
      rw [Op.bind_of_ok hatt]
      rfl
    by_cases hl : s.din.nlinks = 0
    · obtain ⟨fs', heq, hr⟩ := reclaim_unlinked h hs hl (h.solid hs)
      refine ⟨fs', (s.node fs).blocks, hdone heq, le_rfl, fun _ => rfl, ?_⟩
      rw [Node.fade_self]
      unfold Node.drop
      rw [if_neg (not_not.mpr (hrefs.trans h1)), if_pos (show (s.node fs).nlinks = 0 from hl)]
      exact hr
    · have hnr : s.removed = false := by
        cases hrr : s.removed with
        | false => rfl
        | true => exact absurd (hrem hrr) hl
      obtain ⟨fs', b, heq, hb, hr⟩ := reclaim_linked h hs hl hnr
      refine ⟨fs', b, hdone heq, hb.le, hb.exact, ?_⟩
      unfold Node.fade Node.drop
      rw [if_neg (not_not.mpr (hrefs.trans h1)), if_neg (show ¬ (s.node fs).nlinks = 0 from hl)]
      exact hr
  · obtain ⟨L, -, ho⟩ := h.owned
    have hfits := ho.fits_lk hs
    obtain ⟨heq, hr⟩ := h.edit hs { s with ref := s.ref - 1 } rfl hfits.info
      hfits.parent hfits.nlinks (by dsimp only; omega) (fun hd => ⟨hd, rfl⟩) (fun _ => rfl) hn
    refine ⟨fs.put i { s with ref := s.ref - 1 } (fs.lk { s with ref := s.ref - 1 }), (s.node fs).blocks, ?_, le_rfl,
      fun _ => rfl, ?_⟩
    · rw [Op.bind_of_ok heq, if_neg h1]
      rfl
    · rw [Node.fade_self]
      unfold Node.drop
      rw [if_pos (hrefs ▸ h1)]
      exact hr

end RefDec

end Ucore.Sfs
