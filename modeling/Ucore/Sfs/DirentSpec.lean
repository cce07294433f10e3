import Ucore.Sfs.Dirent
import Ucore.Sfs.IoSpec

/-!
# What the operations on directory entries do

* `ofBytes_toBytes` — an entry is read back as it was written.
* `direntWrite_spec` — one slot changes; a slot at the end is new, or there is no block for it.
* `direntSearch_spec` — the scan finds the first slot with the name, and otherwise an empty slot.
-/

namespace Ucore.Sfs

open Bytes

/-! ## The entry on disk -/

theorem cstr_of_bytes {data : ℕ → UInt8} : ∀ (l : List UInt8) (i n : ℕ), l.length ≤ n →
    (0 : UInt8) ∉ l → (∀ j, j < l.length → data (i + j) = (l[j]?).getD 0) →
      (l.length < n → data (i + l.length) = 0) → cstr data i n = l := by
  intro l
  induction l with
  | nil =>
    intro i n _ _ _ hend
    cases n with
    | zero => rfl
    | succ n =>
      have h0 : data i = 0 := hend (Nat.succ_pos n)
      unfold cstr
      rw [if_pos h0]
  | cons c l ih =>
    intro i n hle hnul hdata hend
    cases n with
    | zero => exact absurd hle (Nat.not_succ_le_zero _)
    | succ n =>
      have hc : data i = c := hdata 0 (Nat.succ_pos _)
      have hc0 : c ≠ 0 := fun he => hnul (he ▸ List.mem_cons_self)
      have hrest : cstr data (i + 1) n = l := by
        refine ih (i + 1) n (Nat.le_of_succ_le_succ hle) (fun hm => hnul (List.mem_cons_of_mem c hm))
          (fun j hj => ?_) fun hlt => ?_
        · rw [Nat.add_assoc, Nat.add_comm 1 j]
          exact hdata (j + 1) (Nat.succ_lt_succ hj)
        · rw [Nat.add_assoc, Nat.add_comm 1 l.length]
          exact hend (Nat.succ_lt_succ hlt)
      unfold cstr
      rw [hc, if_neg hc0, hrest]

theorem ofBytes_ino_toBytes (b : Block) {ino : ℕ} (hino : ino < 2 ^ 32) (name : Name) :
    (Entry.ofBytes (splice b 0 ENTRY_SIZE (Entry.toBytes ino name))).ino = ino := by
  show word (splice b 0 ENTRY_SIZE (Entry.toBytes ino name)) 0 = ino
  have hw : word (splice b 0 ENTRY_SIZE (Entry.toBytes ino name)) 0 = word (ofWords fun _ => ino) 0 := by
    refine word_congr fun k hk => ?_
    rw [splice_of_mem (Nat.zero_le _) (by unfold ENTRY_SIZE; omega), ofWords_apply _ hk]
    unfold Entry.toBytes
    by_cases h0 : ino = 0
    · rw [if_pos h0, h0]
      unfold byte
      rw [Nat.zero_div]
      rfl
    · rw [if_neg h0, if_pos (by omega), Nat.mul_zero, Nat.zero_add, Nat.sub_zero]
  rw [hw, word_ofWords]
  exact Nat.mod_eq_of_lt hino

/-- A slot is read back as it was written. -/
theorem ofBytes_toBytes (b : Block) {ino : ℕ} (h0 : ino ≠ 0) (hino : ino < 2 ^ 32) {name : Name}
    (hlen : strlen name ≤ SFS_MAX_FNAME_LEN) :
    Entry.ofBytes (splice b 0 ENTRY_SIZE (Entry.toBytes ino name)) = ⟨ino, name⟩ := by
  have hname : cstr (splice b 0 ENTRY_SIZE (Entry.toBytes ino name)) 4 SFS_MAX_FNAME_LEN =
      name.val := by
    have hbyte : ∀ j, j ≤ 255 → splice b 0 ENTRY_SIZE (Entry.toBytes ino name) (4 + j) =
        (name.val[j]?).getD 0 := by
      intro j hj
      rw [splice_of_mem (Nat.zero_le _) (by unfold ENTRY_SIZE; omega), Nat.sub_zero]
      unfold Entry.toBytes
      rw [if_neg h0, if_neg (by omega), Nat.add_sub_cancel_left]
    unfold strlen SFS_MAX_FNAME_LEN at hlen
    refine cstr_of_bytes name.val 4 SFS_MAX_FNAME_LEN hlen name.property
      (fun j hj => hbyte j (by omega)) fun _ => ?_
    rw [hbyte _ hlen, List.getElem?_eq_none le_rfl]
    rfl
  have hino' := ofBytes_ino_toBytes b hino name
  unfold Entry.ofBytes at hino' ⊢
  dsimp only at hino'
  rw [hino']
  congr 1
  exact Subtype.ext hname

/-- The entry in slot `j`. -/
def Lk.entry (k : Lk) (j : ℕ) : Entry := Entry.ofBytes (k.vol.disk (k.role (.leaf j)))

section Slots

variable {R : ℕ → Prop} {k : Lk} {name : Name}

theorem direntRead_eq (h : Own R k.vol k.din) (hf : k.Filled) (htype : k.din.type = SFS_TYPE_DIR)
    {j : ℕ} (hj : j < k.din.blocks) : direntRead j k = some (.ok (k.entry j), k) := by
  have h0 := (hf j).mpr hj
  have hin : assertInuse (k.role (.leaf j)) k.vol = some (.ok (), k.vol) :=
    assertInuse_eq h0 (h.inside _ h0) (h.inuse h0)
  have hread : rbuf ENTRY_SIZE (k.role (.leaf j)) 0 k.vol =
      some (.ok fun i => k.vol.disk (k.role (.leaf j)) (0 + i), k.vol) :=
    if_pos ⟨by unfold SFS_BLKSIZE; omega, by unfold SFS_BLKSIZE ENTRY_SIZE; omega, h0, h.inside _ h0⟩
  have hdata : (fun i => k.vol.disk (k.role (.leaf j)) (0 + i)) = k.vol.disk (k.role (.leaf j)) := by
    funext i
    rw [Nat.zero_add]
  rw [hdata] at hread
  unfold direntRead
  rw [Op.bind_of_ok (rfl : Op.gets Lk.din k = some (.ok k.din, k)),
    Op.bind_of_ok (if_pos ⟨htype, hj⟩ : Op.assert (k.din.type = SFS_TYPE_DIR ∧ j < k.din.blocks) k =
      some (.ok (), k)),
    Op.bind_of_ok (bmapLoad_inside (X := False) h hf.covered hj), Op.bind_of_ok (onVol_of_ok hin),
    Op.bind_of_ok (onVol_of_ok hread)]
  rfl

/-- Slot `slot` of a directory has been set. -/
structure SlotSet (R : ℕ → Prop) (k : Lk) (slot ino : ℕ) (name : Name) (k' : Lk) : Prop
    extends Touch R k k' where
  filled : k'.Filled
  info : k'.din.info = k.din.info
  dinBlocks : k'.din.blocks = max k.din.blocks (slot + 1)
  number : (k'.entry slot).ino = ino
  entry : ino ≠ 0 → k'.entry slot = ⟨ino, name⟩
  others : ∀ j, j < k.din.blocks → j ≠ slot → k'.entry j = k.entry j
  clean : k'.dirty = false → k.dirty = false ∧ k'.din = { k.din with blocks := k'.din.blocks }

theorem direntWrite_spec (h : Own R k.vol k.din) (hf : k.Filled) (htype : k.din.type = SFS_TYPE_DIR)
    {slot ino : ℕ} (hslot : slot ≤ k.din.blocks) (hlt : slot < NLEAF) (hino : ino < 2 ^ 32)
    (hlen : ino ≠ 0 → strlen name ≤ SFS_MAX_FNAME_LEN) : Op.wp (direntWrite slot ino name)
      (fun r k' => (r = .ok () ∧ SlotSet R k slot ino name k') ∨
        (r = .error .noMem ∧ slot = k.din.blocks ∧ Refused R k k')) k := by
  unfold direntWrite
  rw [Op.wp_bind_gets, Op.wp_bind_assert]
  refine ⟨⟨htype, hslot⟩, ?_⟩
  rw [Op.wp_bind_assert]
  refine ⟨hlen, ?_⟩
  rw [Op.wp_bind]
  refine Op.wp_mono (bmapLoad_spec (X := False) h hf.solid hslot hlt) ?_
  rintro r k₂ (⟨b, rfl, hr, rfl⟩ | ⟨rfl, hend, hr⟩)
  · have hblocks := hr.dinBlocks
    have hin : slot < k₂.din.blocks := by omega
    have hf₂ := hr.filled hf
    have h0 := (hf₂ slot).mpr hin
    have hinuse : assertInuse (k₂.role (.leaf slot)) k₂.vol = some (.ok (), k₂.vol) :=
      assertInuse_eq h0 (hr.own.inside _ h0) (hr.own.inuse h0)
    have hwbuf : wbuf (Entry.toBytes ino name) ENTRY_SIZE (k₂.role (.leaf slot)) 0 k₂.vol =
        some (.ok (), (k₂.write slot 0 ENTRY_SIZE (Entry.toBytes ino name)).vol) :=
      if_pos ⟨by unfold SFS_BLKSIZE; omega, by unfold SFS_BLKSIZE ENTRY_SIZE; omega, h0,
        hr.own.inside _ h0⟩
    have hself : (k₂.write slot 0 ENTRY_SIZE (Entry.toBytes ino name)).entry slot = Entry.ofBytes
        (splice (k₂.vol.disk (k₂.role (.leaf slot))) 0 ENTRY_SIZE (Entry.toBytes ino name)) := by
      unfold Lk.entry
      rw [Lk.write_role hr.own h0]
      congr 1
      exact Function.update_self ..
    dsimp only
    rw [Op.wp_bind_of_ok (onVol_of_ok hinuse)]
    refine Op.wp_iff.mpr ⟨_, _, onVol_of_ok hwbuf, .inl ⟨rfl, ⟨?_, fun j => ?_, hr.info, hblocks,
      ?_, fun hne => ?_, fun j hj hne => ?_, hr.clean⟩⟩⟩
    · exact hr.toTouch.trans (Lk.write_touch hr.own h0)
    · have hrole : (k₂.write slot 0 ENTRY_SIZE (Entry.toBytes ino name)).role (.leaf j) = k₂.role (.leaf j) :=
        congrFun (Lk.write_role hr.own h0) (.leaf j)
      exact (not_congr (Eq.congr_left hrole)).trans (hf₂ j)
    · exact (congrArg Entry.ino hself).trans (ofBytes_ino_toBytes _ hino name)
    · exact hself.trans (ofBytes_toBytes _ hne hino (hlen hne))
    · have hne' : k₂.role (.leaf j) ≠ k₂.role (.leaf slot) := fun he =>
        hne (Role.leaf.inj (hr.own.inj _ _ ((hf₂ j).mpr (by omega)) he))
      have hold : (k₂.write slot 0 ENTRY_SIZE (Entry.toBytes ino name)).entry j = k₂.entry j := by
        unfold Lk.entry
        rw [Lk.write_role hr.own h0]
        congr 1
        exact Function.update_of_ne hne' ..
      refine hold.trans ?_
      unfold Lk.entry
      rw [hr.block j ((hf j).mpr hj)]
  · exact .inr ⟨rfl, hend, hr⟩

/-- Beyond the last leaf that a block map can hold there is an assertion. -/
theorem bmapLoad_full (hfull : k.din.blocks = NLEAF) : bmapLoad NLEAF k = none := by
  have hon : onVol (bmapGetSub k.din.dbIndirect 1024 true) k = none := rfl
  have hget : bmapGet NLEAF true k = none := by
    have hdouble : bmapGetDouble 1048576 true k = none := by
      unfold bmapGetDouble
      rw [Op.bind_of_ok (rfl : Op.gets _ k = some (.ok k.din.dbIndirect, k))]
      exact Op.bind_of_none hon
    have hfind : bmapFind NLEAF true = bmapGetDouble 1048576 true := rfl
    unfold bmapGet
    rw [hfind]
    exact Op.bind_of_none hdouble
  unfold bmapLoad
  rw [Op.bind_of_ok (rfl : Op.gets _ k = some (.ok k.din.blocks, k)),
    Op.bind_of_ok (if_pos hfull.ge : Op.assert (NLEAF ≤ k.din.blocks) k = some (.ok (), k)),
    show decide (NLEAF = k.din.blocks) = true by simp [hfull]]
  exact Op.bind_of_none hget

/-- A directory has at most as many slots as a block map has leaves. -/
theorem Lk.Filled.blocks_le (hf : k.Filled) : k.din.blocks ≤ NLEAF := (hf.covered (X := False)).blocks_le

/-- `direntWrite_spec` without a bound on the slot: a slot beyond the last one is an assertion. -/
theorem direntWrite_wpx (h : Own R k.vol k.din) (hf : k.Filled) (htype : k.din.type = SFS_TYPE_DIR)
    {slot ino : ℕ} (hslot : slot ≤ k.din.blocks) (hino : ino < 2 ^ 32)
    (hlen : ino ≠ 0 → strlen name ≤ SFS_MAX_FNAME_LEN) {F : Prop} (hF : slot = NLEAF → F) :
    Op.wpx F (direntWrite slot ino name)
      (fun r k' => (r = .ok () ∧ SlotSet R k slot ino name k') ∨
        (r = .error .noMem ∧ slot = k.din.blocks ∧ Refused R k k')) k := by
  by_cases hlt : slot < NLEAF
  · exact Op.wpx_of_wp (direntWrite_spec h hf htype hslot hlt hino hlen)
  · have hle := hf.blocks_le
    obtain rfl : slot = NLEAF := by omega
    refine Op.wpx_of_none ?_ (hF rfl)
    unfold direntWrite
    rw [Op.bind_of_ok (rfl : Op.gets Lk.din k = some (.ok k.din, k)),
      Op.bind_of_ok (if_pos ⟨htype, hslot⟩ :
        Op.assert (k.din.type = SFS_TYPE_DIR ∧ NLEAF ≤ k.din.blocks) k = some (.ok (), k)),
      Op.bind_of_ok (if_pos hlen :
        Op.assert (ino ≠ 0 → strlen name ≤ SFS_MAX_FNAME_LEN) k = some (.ok (), k))]
    exact Op.bind_of_none (bmapLoad_full (by omega))

/-- What a scan for a name over the slots from `i` to `n` finds; `e` is the empty slot seen before. -/
structure Found (k : Lk) (name : Name) (i n e : ℕ) (r : Search) : Prop where
  hit : ∀ ino j, r.found = some (ino, j) → i ≤ j ∧ j < n ∧ ino ≠ 0 ∧ k.entry j = ⟨ino, name⟩
  miss : r.found = none → ∀ j, i ≤ j → j < n → (k.entry j).ino ≠ 0 → (k.entry j).name ≠ name
  empty : r.empty = e ∨ (i ≤ r.empty ∧ r.empty < n ∧ (k.entry r.empty).ino = 0)

/-- The loop of the search: by induction on the slots that are left. -/
theorem searchLoop_spec (h : Own R k.vol k.din) (hf : k.Filled) (htype : k.din.type = SFS_TYPE_DIR) :
    ∀ (m i e : ℕ), i + m = k.din.blocks →
      ∃ r, searchLoop name i m e k = some (.ok r, k) ∧ Found k name i k.din.blocks e r := by
  intro m
  induction m with
  | zero =>
    intro i e hm
    exact ⟨⟨none, e⟩, rfl, ⟨nofun, fun _ j hj hj' => by omega, .inl rfl⟩⟩
  | succ m ih =>
    intro i e hm
    have hread := direntRead_eq h hf htype (show i < k.din.blocks by omega)
    unfold searchLoop
    rw [Op.bind_of_ok hread]
    by_cases h0 : (k.entry i).ino = 0
    · rw [if_pos h0]
      obtain ⟨r, heq, hr⟩ := ih (i + 1) i (by omega)
      refine ⟨r, heq, ⟨fun ino j hj => ?_, fun hnone j hj hj' hne => ?_, .inr ?_⟩⟩
      · obtain ⟨h1, h2⟩ := hr.hit ino j hj
        exact ⟨by omega, h2⟩
      · by_cases hji : j = i
        · exact absurd (hji ▸ h0) hne
        · exact hr.miss hnone j (by omega) hj' hne
      · rcases hr.empty with he | ⟨h1, h2⟩
        · rw [he]
          exact ⟨le_rfl, by omega, h0⟩
        · exact ⟨by omega, h2⟩
    · rw [if_neg h0]
      by_cases hn : name = (k.entry i).name
      · rw [if_pos hn]
        refine ⟨_, rfl, ⟨fun ino j hj => ?_, nofun, .inl rfl⟩⟩
        cases hj
        refine ⟨le_rfl, by omega, h0, ?_⟩
        rw [hn]
      · rw [if_neg hn]
        obtain ⟨r, heq, hr⟩ := ih (i + 1) e (by omega)
        refine ⟨r, heq, ⟨fun ino j hj => ?_, fun hnone j hj hj' hne => ?_, ?_⟩⟩
        · obtain ⟨h1, h2⟩ := hr.hit ino j hj
          exact ⟨by omega, h2⟩
        · by_cases hji : j = i
          · rw [hji]
            exact fun he => hn he.symm
          · exact hr.miss hnone j (by omega) hj' hne
        · rcases hr.empty with he | ⟨h1, h2⟩
          · exact .inl he
          · exact .inr ⟨by omega, h2⟩

theorem direntSearch_spec (h : Own R k.vol k.din) (hf : k.Filled)
    (htype : k.din.type = SFS_TYPE_DIR) (hlen : strlen name ≤ SFS_MAX_FNAME_LEN) :
    ∃ r, direntSearch name k = some (.ok r, k) ∧ Found k name 0 k.din.blocks k.din.blocks r := by
  obtain ⟨r, heq, hr⟩ := searchLoop_spec h hf htype k.din.blocks 0 k.din.blocks
    (Nat.zero_add _)
  refine ⟨r, ?_, hr⟩
  unfold direntSearch
  rw [Op.bind_of_ok (if_pos hlen : Op.assert (strlen name ≤ SFS_MAX_FNAME_LEN) k = some (.ok (), k)),
    Op.bind_of_ok (rfl : Op.gets _ k = some (.ok k.din.blocks, k))]
  exact heq

end Slots

end Ucore.Sfs
