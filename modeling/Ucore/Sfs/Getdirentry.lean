import Ucore.Sfs.CallRun

/-!
# Listing a directory

Reference model of `iobuf.c` as far as the kernel fills a buffer, of `sfs_getdirentry` (`sfs_inode.c`)
and of `file_getdirentry` (`file.c`).

* `getdirentrySub`, `getdirentry` — the live entry with a given number, by a scan from the first slot on;
* `listing` — the names of a directory in the order of the slots;
* `enumerate` — one call after another, each from the offset that the one before has left;
* `directory_enumeration` — the calls return the listing.
-/

namespace Ucore.Sfs

open Bytes

/-! ## `struct iobuf` -/

/-- `struct iobuf`; `base` is `io_base`, counted from the beginning of the buffer. -/
structure Iobuf where
  buf : ℕ → UInt8
  base : ℕ
  offset : ℤ
  len : ℕ
  resid : ℕ

/-- `iobuf_init`. -/
def iobufInit (buf : ℕ → UInt8) (len : ℕ) (offset : ℤ) : Iobuf := ⟨buf, 0, offset, len, len⟩

/-- `iobuf_used`. -/
def Iobuf.used (iob : Iobuf) : ℕ := iob.len - iob.resid

section Iobufs

variable {σ : Type}

/-- `iobuf_skip`. -/
def iobufSkip (iob : Iobuf) (n : ℕ) : Op σ Err Iobuf := do
  Op.assert (n ≤ iob.resid)
  pure { iob with
    base := iob.base + n, offset := Int.bmod (iob.offset + n) (2 ^ 32), resid := iob.resid - n }

/-- `iobuf_move` to the buffer, with its return value. -/
def iobufMove (iob : Iobuf) (data : ℕ → UInt8) (len : ℕ) : Op σ Err (Option Err × Iobuf) := do
  let alen := min iob.resid len
  let ret := if len - alen = 0 then none else some Err.noMem
  if 0 < alen then
    let iob ← iobufSkip { iob with buf := splice iob.buf iob.base alen data } alen
    pure (ret, iob)
  else pure (ret, iob)

/-- A move that fills the buffer. -/
theorem iobufMove_all {len : ℕ} (hlen : 0 < len) (buf data : ℕ → UInt8) (offset : ℤ) (st : σ) :
    iobufMove (iobufInit buf len offset) data len st = some (.ok (none,
      ⟨splice buf 0 len data, len, Int.bmod (offset + len) (2 ^ 32), len, 0⟩), st) := by
  have hassert : (Op.assert (min len len ≤ len) : Op σ Err Unit) st = some (.ok (), st) :=
    if_pos (Nat.min_le_left ..)
  unfold iobufMove iobufInit iobufSkip
  simp only [min_self, Nat.sub_self, hlen, if_true]
  rw [Op.bind_assoc, Op.bind_of_ok hassert, Nat.zero_add]
  rfl

end Iobufs

/-! ## `sfs_getdirentry` -/

/-- `sfs_dentry_size`. -/
def DENTRY_SIZE : ℕ := SFS_MAX_FNAME_LEN + 1

/-- A C string in a buffer that holds `junk` behind its end. -/
def stringBytes (name : Name) (junk : ℕ → UInt8) : ℕ → UInt8 := fun j =>
  if j = strlen name then 0 else (name.val[j]?).getD (junk j)

/-- The loop of `sfs_getdirentry_sub_nolock`: `n` slots from slot `i` on. -/
def subLoop : ℕ → ℕ → ℕ → Op Lk Err Entry
  | _, 0, _ => Op.throw .noEnt
  | i, n + 1, slot => do
    let entry ← direntRead i
    if entry.ino ≠ 0 then
      if slot = 0 then pure entry else subLoop (i + 1) n (slot - 1)
    else subLoop (i + 1) n slot

/-- `sfs_getdirentry_sub_nolock`. -/
def getdirentrySub (slot : ℕ) : Op Lk Err Entry := do
  let nslots ← Op.gets fun k => k.din.blocks
  subLoop 0 nslots slot

/-- The three cases of `sfs_getdirentry`. -/
def entryName (dir slot : ℕ) : Op Fs Err Name :=
  if slot = 0 then pure DOT
  else if slot = 1 then pure DOTDOT
  else do
    trylockSin dir
    let entry ← onSin dir (getdirentrySub (slot - 2))
    pure entry.name

/-- The end of `sfs_getdirentry`; `junk` is what the new `entry` holds. -/
def moveEntryName (dir slot : ℕ) (junk : ℕ → UInt8) (iob : Iobuf) : Op Fs Err (Option Err × Iobuf) := do
  match ← Op.attempt (entryName dir slot) with
  | .error e => pure (some e, iob)
  | .ok name => iobufMove iob (stringBytes name junk) DENTRY_SIZE

/-- `vop_getdirentry`, with its return value: `sfs_getdirentry` for a directory. -/
def getdirentry (dir : ℕ) (junk : ℕ → UInt8) (iob : Iobuf) : Op Fs Err (Option Err × Iobuf) := do
  let s ← sinOf dir
  if s.din.type ≠ SFS_TYPE_DIR then pure (some .notDir, iob)
  else if iob.offset < 0 ∨ iob.offset % DENTRY_SIZE ≠ 0 then pure (some .inval, iob)
  else
    let slot := (iob.offset / DENTRY_SIZE).toNat
    if (s.din.info + 2) % 2 ^ 32 ≤ slot then pure (some .noEnt, iob)
    else moveEntryName dir slot junk iob

/-- `struct dirent`. -/
structure Dirent where
  offset : ℤ
  name : ℕ → UInt8

/-- `file_getdirentry`, with its return value; `files` are the nodes of the open files. -/
def fileGetdirentry (files : ℕ → Option ℕ) (fd : ℕ) (junk : ℕ → UInt8) (direntp : Dirent) :
    Op Fs Err (Option Err × Dirent) :=
  match files fd with
  | none => pure (some .inval, direntp)
  | some node => do
    let (ret, iob) ← getdirentry node junk (iobufInit direntp.name DENTRY_SIZE direntp.offset)
    let offset := if ret = none then Int.bmod (direntp.offset + iob.used) (2 ^ 32) else direntp.offset
    pure (ret, ⟨offset, iob.buf⟩)

/-- The name that `file_getdirentry` has stored. -/
def Dirent.spelled (direntp : Dirent) : List UInt8 := cstr direntp.name 0 DENTRY_SIZE

/-- Calls of `file_getdirentry` one after the other, each in a state of its own and with the `dirent`
that the one before has left. -/
def enumerate (files : ℕ → Option ℕ) (fd : ℕ) :
    List (Fs × (ℕ → UInt8)) → Dirent → Option (List (Except Err (List UInt8)))
  | [], _ => some []
  | (fs, junk) :: calls, direntp =>
    match fileGetdirentry files fd junk direntp fs with
    | some (.ok (ret, direntp), _) => do
      let rest ← enumerate files fd calls direntp
      let this := match ret with
        | none => .ok direntp.spelled
        | some e => .error e
      return this :: rest
    | _ => none

/-! ## The listing of a directory -/

/-- The names in the live slots, in order. -/
def Node.listing (n : Node) : List Name := ((List.range n.blocks).filterMap n.ents).map Prod.snd

/-- The node that the caller holds is a directory that satisfies the directory invariant: `slots` is the
number of its live entries, and they have different names.  A removed directory has none. -/
structure DirAt (fs : Fs) (dir : ℕ) (names : List Name) (s : Sin) : Prop where
  cached : fs.cache dir = some s
  type : s.din.type = SFS_TYPE_DIR
  own : ∃ R, Own R fs.vol s.din
  filled : (fs.lk s).Filled
  listing : (s.node fs).listing = names
  slots : s.din.info = names.length
  unique : names.Nodup
  removed : s.removed = true → names = []

section Scan

variable {R : ℕ → Prop} {k : Lk}

/-- The scan skips the holes: by induction on the slots that are left. -/
theorem subLoop_spec (h : Own R k.vol k.din) (hf : k.Filled) (htype : k.din.type = SFS_TYPE_DIR) :
    ∀ (n i slot : ℕ), i + n = k.din.blocks →
      match ((List.range' i n).filterMap k.ents)[slot]? with
      | some (ino, name) => subLoop i n slot k = some (.ok ⟨ino, name⟩, k)
      | none => subLoop i n slot k = some (.error .noEnt, k) := by
  intro n
  induction n with
  | zero => exact fun i slot _ => rfl
  | succ n ih =>
    intro i slot hn
    have hread := direntRead_eq h hf htype (show i < k.din.blocks by omega)
    rw [List.range'_succ]
    unfold subLoop
    rw [Op.bind_of_ok hread]
    by_cases h0 : (k.entry i).ino = 0
    · rw [List.filterMap_cons_none (ents_hole h0), if_neg (not_not.mpr h0)]
      exact ih (i + 1) slot (by omega)
    · rw [List.filterMap_cons_some (ents_live htype (by omega) h0), if_pos h0]
      cases slot with
      | zero => rfl
      | succ slot =>
        rw [if_neg (Nat.succ_ne_zero slot), List.getElem?_cons_succ]
        exact ih (i + 1) slot (by omega)

end Scan

section Calls

variable {fs : Fs} {dir slot : ℕ} {names : List Name} {s : Sin} {files : ℕ → Option ℕ} {fd : ℕ}

theorem DirAt.bound (h : DirAt fs dir names s) : names.length ≤ NLEAF := by
  have hle : (s.node fs).listing.length ≤ s.din.blocks := by
    unfold Node.listing
    rw [List.length_map]
    exact (List.length_filterMap_le _ _).trans_eq List.length_range
  rw [h.listing] at hle
  exact hle.trans h.filled.blocks_le

/-- The entry with a number below `slots + 2`. -/
theorem DirAt.entryName (h : DirAt fs dir names s) {name : Name}
    (hname : (DOT :: DOTDOT :: names)[slot]? = some name) :
    entryName dir slot fs = some (.ok name, fs) := by
  unfold Sfs.entryName
  match slot, hname with
  | 0, hname =>
    cases hname
    rfl
  | 1, hname =>
    cases hname
    rfl
  | slot + 2, hname =>
    rw [if_neg (by omega), if_neg (by omega)]
    have hname : names[slot]? = some name := hname
    have hlive : s.removed = false := by
      cases hr : s.removed with
      | false => rfl
      | true =>
        rw [h.removed hr] at hname
        cases hname
    have hlock : trylockSin dir fs = some (.ok (), fs) := by
      unfold trylockSin
      rw [Op.bind_of_ok (by unfold sinOf; rw [h.cached] : sinOf dir fs = some (.ok s, fs)), hlive]
      rfl
    obtain ⟨R, hown⟩ := h.own
    have hscan := subLoop_spec (k := fs.lk s) hown h.filled h.type s.din.blocks 0 slot (Nat.zero_add _)
    rw [← h.listing] at hname
    unfold Node.listing at hname
    rw [List.getElem?_map, List.range_eq_range'] at hname
    obtain ⟨⟨ino, nm⟩, hent, hnm⟩ := Option.map_eq_some_iff.mp hname
    cases hnm
    have hent : ((List.range' 0 s.din.blocks).filterMap (fs.lk s).ents)[slot]? = some (ino, nm) := hent
    rw [hent] at hscan
    have hsub : getdirentrySub slot (fs.lk s) = some (.ok ⟨ino, nm⟩, fs.lk s) := hscan
    have hon := onSin_of_eq h.cached hsub
    rw [Fs.put_lk h.cached] at hon
    rw [Op.bind_of_ok hlock, Nat.add_sub_cancel, Op.bind_of_ok hon]
    rfl

theorem cstr_length_le (data : ℕ → UInt8) : ∀ (n i : ℕ), (cstr data i n).length ≤ n := by
  intro n
  induction n with
  | zero => exact fun i => le_rfl
  | succ n ih =>
    intro i
    unfold cstr
    split
    · exact Nat.zero_le _
    · exact Nat.succ_le_succ (ih (i + 1))

/-- The names fit into an entry. -/
theorem DirAt.strlen_le (h : DirAt fs dir names s) {name : Name} (hname : name ∈ DOT :: DOTDOT :: names) :
    strlen name ≤ SFS_MAX_FNAME_LEN := by
  rcases List.mem_cons.mp hname with rfl | hname
  · decide
  rcases List.mem_cons.mp hname with rfl | hname
  · decide
  rw [← h.listing] at hname
  obtain ⟨⟨ino, nm⟩, hent, rfl⟩ := List.mem_map.mp hname
  obtain ⟨j, -, hj⟩ := List.mem_filterMap.mp hent
  have hj : (fs.lk s).ents j = some (ino, nm) := hj
  unfold Lk.ents at hj
  split at hj
  · split at hj
    · cases hj
    · cases hj
      exact cstr_length_le _ _ _
  · cases hj

/-- A name is read from the buffer as it was stored there. -/
theorem cstr_stringBytes {name : Name} (hlen : strlen name ≤ SFS_MAX_FNAME_LEN) (buf junk : ℕ → UInt8) :
    cstr (splice buf 0 DENTRY_SIZE (stringBytes name junk)) 0 DENTRY_SIZE = name.val := by
  unfold strlen SFS_MAX_FNAME_LEN at hlen
  have hbyte : ∀ j, j ≤ 255 →
      splice buf 0 DENTRY_SIZE (stringBytes name junk) (0 + j) = stringBytes name junk j := by
    intro j hj
    rw [splice_of_mem (Nat.zero_le _) (by unfold DENTRY_SIZE SFS_MAX_FNAME_LEN; omega), Nat.zero_add,
      Nat.sub_zero]
  refine cstr_of_bytes name.val 0 DENTRY_SIZE (by unfold DENTRY_SIZE SFS_MAX_FNAME_LEN; omega)
    name.property (fun j hj => ?_) fun _ => ?_
  · rw [hbyte j (by omega)]
    unfold stringBytes strlen
    rw [if_neg (Nat.ne_of_lt hj), List.getElem?_eq_getElem hj]
    rfl
  · rw [hbyte _ hlen]
    exact if_pos rfl

/-- What call number `n` returns. -/
def outcome (names : List Name) (n : ℕ) : Except Err (List UInt8) :=
  match (DOT :: DOTDOT :: names)[n]? with
  | some name => .ok name.val
  | none => .error .noEnt

/-- **One call.**  A `dirent` with the offset of a name gets that name and the offset of the next; past
the last name there is no more.  Nothing else changes. -/
theorem DirAt.fileGetdirentry (h : DirAt fs dir names s) (hfd : files fd = some dir) (junk : ℕ → UInt8)
    {direntp : Dirent} {n : ℕ} (hoff : direntp.offset = DENTRY_SIZE * n) (hn : n ≤ names.length + 2) :
    match (DOT :: DOTDOT :: names)[n]? with
    | some name => ∃ direntp', fileGetdirentry files fd junk direntp fs = some (.ok (none, direntp'), fs) ∧
        direntp'.offset = DENTRY_SIZE * (n + 1 : ℕ) ∧ direntp'.spelled = name.val
    | none => fileGetdirentry files fd junk direntp fs = some (.ok (some .noEnt, direntp), fs) := by
  have hbound := h.bound
  have hslots : (s.din.info + 2) % 2 ^ 32 = names.length + 2 := by
    rw [h.slots]
    unfold NLEAF at hbound
    omega
  have hsize : (DENTRY_SIZE : ℤ) = 256 := rfl
  have hsin : sinOf dir fs = some (.ok s, fs) := by
    unfold sinOf
    rw [h.cached]
  have hdiv : (direntp.offset / DENTRY_SIZE).toNat = n := by
    rw [hoff, hsize]
    omega
  have haligned : ¬ (direntp.offset < 0 ∨ direntp.offset % DENTRY_SIZE ≠ 0) := by
    rw [hoff, hsize]
    omega
  have hhead : getdirentry dir junk (iobufInit direntp.name DENTRY_SIZE direntp.offset) fs =
      (if names.length + 2 ≤ n then
        pure (some .noEnt, iobufInit direntp.name DENTRY_SIZE direntp.offset)
      else moveEntryName dir n junk (iobufInit direntp.name DENTRY_SIZE direntp.offset)) fs := by
    unfold getdirentry
    rw [Op.bind_of_ok hsin, if_neg (not_not.mpr h.type)]
    unfold iobufInit
    dsimp only
    rw [if_neg haligned, hslots, hdiv]
  cases hname : (DOT :: DOTDOT :: names)[n]? with
  | none =>
    have hge : names.length + 2 ≤ n := List.getElem?_eq_none_iff.mp hname
    rw [if_pos hge] at hhead
    unfold Sfs.fileGetdirentry
    rw [hfd]
    dsimp only
    rw [Op.bind_of_ok hhead]
    rfl
  | some name =>
    obtain ⟨hlt, -⟩ := List.getElem?_eq_some_iff.mp hname
    have hlt : n < names.length + 2 := hlt
    have hentry : Op.attempt (Sfs.entryName dir n) fs = some (.ok (.ok name), fs) := by
      unfold Op.attempt
      rw [h.entryName hname]
      rfl
    unfold moveEntryName at hhead
    rw [if_neg (Nat.not_le.mpr hlt), Op.bind_of_ok hentry] at hhead
    refine ⟨⟨Int.bmod (direntp.offset + DENTRY_SIZE) (2 ^ 32),
      splice direntp.name 0 DENTRY_SIZE (stringBytes name junk)⟩, ?_, ?_, ?_⟩
    · unfold Sfs.fileGetdirentry
      rw [hfd]
      dsimp only
      dsimp only at hhead
      rw [iobufMove_all (show 0 < DENTRY_SIZE by decide)] at hhead
      rw [Op.bind_of_ok hhead]
      unfold Iobuf.used
      rw [Nat.sub_zero, if_pos rfl]
      rfl
    · show Int.bmod (direntp.offset + DENTRY_SIZE) (2 ^ 32) = _
      rw [hoff, hsize]
      unfold NLEAF at hbound
      rw [Int.bmod_eq_of_le_mul_two (by omega) (by omega)]
      omega
    · exact cstr_stringBytes (h.strlen_le (List.mem_of_getElem? hname)) _ _

theorem outcome_past {n : ℕ} (hn : names.length + 2 ≤ n) : outcome names n = .error .noEnt := by
  unfold outcome
  rw [List.getElem?_eq_none_iff.mpr (show (DOT :: DOTDOT :: names).length ≤ n from hn)]

theorem outcomes_past {n : ℕ} (hn : names.length + 2 ≤ n) (k : ℕ) :
    (List.range' n k).map (outcome names) = List.replicate k (.error .noEnt) := by
  refine List.eq_replicate_iff.mpr ⟨by rw [List.length_map, List.length_range'], fun r hr => ?_⟩
  obtain ⟨m, hm, rfl⟩ := List.mem_map.mp hr
  exact outcome_past (hn.trans (List.mem_range'_1.mp hm).1)

/-- The calls from the offset of name `n` on: by induction on the calls. -/
theorem enumerate_from (hfd : files fd = some dir) : ∀ (calls : List (Fs × (ℕ → UInt8))) (n : ℕ)
    (direntp : Dirent), (∀ c ∈ calls, ∃ s, DirAt c.1 dir names s) → n ≤ names.length + 2 →
    direntp.offset = DENTRY_SIZE * n →
    enumerate files fd calls direntp = some ((List.range' n calls.length).map (outcome names)) := by
  intro calls
  induction calls with
  | nil => exact fun _ _ _ _ _ => rfl
  | cons c calls ih =>
    intro n direntp hdir hn hoff
    obtain ⟨fs, junk⟩ := c
    obtain ⟨s, h⟩ := hdir (fs, junk) List.mem_cons_self
    have hrest := fun c hc => hdir c (List.mem_cons_of_mem _ hc)
    have hcall := h.fileGetdirentry hfd junk hoff hn
    rw [List.length_cons, List.range'_succ, List.map_cons]
    unfold enumerate outcome
    cases hname : (DOT :: DOTDOT :: names)[n]? with
    | none =>
      -- past the last name the offset stays, and so does the outcome
      have hge : names.length + 2 ≤ n := List.getElem?_eq_none_iff.mp hname
      rw [hname] at hcall
      rw [hcall]
      dsimp only
      rw [ih n direntp hrest hn hoff, outcomes_past hge, ← outcomes_past (hge.trans n.le_succ)]
      rfl
    | some name =>
      obtain ⟨hlt, -⟩ := List.getElem?_eq_some_iff.mp hname
      have hlt : n < names.length + 2 := hlt
      rw [hname] at hcall
      obtain ⟨direntp', hrun, hoff', hspelled⟩ := hcall
      rw [hrun]
      dsimp only
      rw [ih (n + 1) direntp' hrest hlt hoff', hspelled]
      rfl

/-- **Directory enumeration is exact.**  Calls from offset 0 return `.`, `..` and each name of the
directory once, in the order of the slots, and then `-E_NOENT`; between the calls anything may happen
that leaves the directory as it is. -/
theorem directory_enumeration (files : ℕ → Option ℕ) (fd dir : ℕ) (names : List Name)
    (hfd : files fd = some dir)
    (calls : List (Fs × (ℕ → UInt8))) (hdir : ∀ c ∈ calls, ∃ s, DirAt c.1 dir names s) (buf : ℕ → UInt8) :
    enumerate files fd calls ⟨0, buf⟩ = some ((List.range calls.length).map (outcome names)) := by
  rw [List.range_eq_range']
  exact enumerate_from hfd calls 0 ⟨0, buf⟩ hdir (Nat.zero_le _) (by simp)

end Calls

/-! ## The directories of the tree -/

section Directories

open Occurrence

variable {fs : Fs} {t : Tree} {d : ℕ} {n : Node} {x : Option ℕ} {s : Sin}

/-- `slots` is the length of the listing. -/
theorem Sound.listing_length (hs : Sound t x) (hd : t d = some n) (hdir : n.type = SFS_TYPE_DIR) :
    n.listing.length = n.info := by
  have hrow : t.row d = n.ents := funext fun j => Tree.ent_of hd j
  have hset : {j | n.ents j ≠ none} =
      (((List.range n.blocks).filter fun j => (n.ents j).isSome).toFinset : Set ℕ) := by
    ext j
    simp only [Set.mem_ofPred_eq, List.coe_toFinset, List.mem_filter, List.mem_range]
    rw [← Option.isSome_iff_ne_none]
    exact ⟨fun hj => ⟨(hs.inside d n j hd (Option.isSome_iff_ne_none.mp hj)).2, hj⟩, fun hj => hj.2⟩
  rw [hs.slots d n hd hdir, hrow]
  unfold occ Node.listing
  rw [hset, Set.ncard_coe_finset, List.toFinset_card_of_nodup (List.nodup_range.filter _), List.length_map,
    List.length_filterMap_eq_countP, List.countP_eq_length_filter]

/-- The names in a directory are different. -/
theorem Sound.listing_nodup (hs : Sound t x) (hd : t d = some n) : n.listing.Nodup := by
  unfold Node.listing
  refine List.pairwise_map.mpr (List.pairwise_filterMap.mpr ?_)
  refine List.pairwise_lt_range.imp ?_
  rintro j j' hlt ⟨i, nm⟩ hj ⟨i', nm'⟩ hj' hnm
  have hnm : nm = nm' := hnm
  subst hnm
  rw [← Tree.ent_of hd] at hj hj'
  exact absurd (hs.unique d j j' i i' nm hj hj') (Nat.ne_of_lt hlt)

/-- The directories of a represented file system satisfy the invariant. -/
theorem Refines.dirAt (h : Refines fs t) (hs : Sound t x) (hc : fs.cache d = some s)
    (hdir : s.din.type = SFS_TYPE_DIR) : DirAt fs d (s.node fs).listing s := by
  have hd : t d = some (s.node fs) := h.stores.node_of hc
  refine ⟨hc, hdir, ⟨_, h.space.own_lk hc⟩, h.stores.filled_lk hc hdir, rfl,
    (hs.listing_length hd hdir).symm, hs.listing_nodup hd, fun hr => ?_⟩
  obtain ⟨-, -, hnone, -⟩ := hs.gone d _ hd hr
  unfold Node.listing
  rw [List.filterMap_eq_nil_iff.mpr fun j _ => hnone j]
  rfl

end Directories

/-- Five calls on a directory with the entries `a` and `g`, and a hole between them. -/
theorem directory_enumeration_hole :
    (List.range 3).map (fun j => ((holeFs.node SFS_BLKN_ROOT).ents j).isSome) = [true, false, true] ∧
    enumerate (fun _ => some SFS_BLKN_ROOT) 0 (List.replicate 5 (holeFs, fun _ => 7)) ⟨0, fun _ => 1⟩ =
      some [.ok [46], .ok [46, 46], .ok [97], .ok [103], .error .noEnt] := by
  have hdir : (holeFs.cache SFS_BLKN_ROOT).map (fun s => s.din.type) = some SFS_TYPE_DIR := by decide +kernel
  have hlist : (holeFs.node SFS_BLKN_ROOT).listing = [⟨[97], by decide⟩, ⟨[103], by decide⟩] := by decide +kernel
  obtain ⟨s, hc, hs⟩ := Option.map_eq_some_iff.mp hdir
  obtain ⟨c, hst, hw⟩ := dirFs_whole
  obtain ⟨l, hrun⟩ := holeFs_run
  obtain ⟨t, c', -, hst', hw'⟩ := (hrun.mono fun _ _ => And.left).simulates hst hw
  have hat := hst'.refines.dirAt hw'.sound hc hs
  rw [← Fs.node_cached hc, hlist] at hat
  refine ⟨by decide +kernel, ?_⟩
  exact directory_enumeration (fun _ => some SFS_BLKN_ROOT) 0 SFS_BLKN_ROOT _ rfl
    (List.replicate 5 (holeFs, fun _ => 7))
    (fun call hcall => by rw [List.eq_of_mem_replicate hcall]; exact ⟨s, hat⟩) fun _ => 1

end Ucore.Sfs
