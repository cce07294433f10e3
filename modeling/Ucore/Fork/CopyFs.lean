import Ucore.Fork.CopySem

/-!
# `copy_fs` and `put_fs`

`dup_fs` takes references to the current directory and to the inodes of the open files, and `fs_destroy`
gives them back.  `copy_fs` fails only before it has taken anything.
-/

namespace Ucore.Fork

open Lease
open Heap (fileInit)
open Vfs (File FS_STRUCT_NENTRY)

/-- What an open file has of its inode. -/
def aFile : Counters := anOpen + aRef

/-- An inode with references. -/
def NodeLive (h : Heap) (n : ℕ) : Prop := ∃ c, h n = some ⟨c, .inode⟩ ∧ 0 < c.1

/-- An inode with references, that is open. -/
def NodeOpen (h : Heap) (n : ℕ) : Prop := ∃ c, h n = some ⟨c, .inode⟩ ∧ 0 < c.1 ∧ 0 < c.2.1

/-- A table of files with references, whose inodes have references. -/
def FsOk (h : Heap) (f : ℕ) : Prop :=
  ∃ c x, h f = some ⟨c, .fs x⟩ ∧ 0 < c.1 ∧ (∀ n, x.pwd = some n → NodeLive h n) ∧
    ∀ i < FS_STRUCT_NENTRY, (x.filemap i).status = .opened → ∀ n, (x.filemap i).node = some n → NodeOpen h n

/-- The inodes of the open files among `is`. -/
def nodes (filemap : ℕ → File) (is : List ℕ) : List ℕ :=
  is.filterMap fun i => if (filemap i).status = .opened then (filemap i).node else none

section grown

variable {h h' : Heap} {n f : ℕ}

theorem NodeLive.grown (hn : NodeLive h n) (hg : Grown h h') : NodeLive h' n := by
  obtain ⟨c, hx, hpos⟩ := hn
  obtain ⟨d, hd, hx'⟩ := hg _ _ hx nofun
  have hd1 : 0 ≤ d.1 := hd.1
  refine ⟨d + c, hx', ?_⟩
  show 0 < d.1 + c.1
  omega

theorem NodeOpen.grown (hn : NodeOpen h n) (hg : Grown h h') : NodeOpen h' n := by
  obtain ⟨c, hx, hpos, hopen⟩ := hn
  obtain ⟨d, hd, hx'⟩ := hg _ _ hx nofun
  have hd1 : 0 ≤ d.1 := hd.1
  have hd2 : 0 ≤ d.2.1 := hd.2.1
  refine ⟨d + c, hx', ?_, ?_⟩
  · show 0 < d.1 + c.1
    omega
  · show 0 < d.2.1 + c.2.1
    omega

theorem FsOk.grown (hf : FsOk h f) (hg : Grown h h') : FsOk h' f := by
  obtain ⟨c, x, hx, hpos, hpwd, hfiles⟩ := hf
  obtain ⟨d, hd, hx'⟩ := hg _ _ hx nofun
  have hd1 : 0 ≤ d.1 := hd.1
  refine ⟨d + c, x, hx', ?_, fun n hn => (hpwd n hn).grown hg,
    fun i hi ho n hn => (hfiles i hi ho n hn).grown hg⟩
  show 0 < d.1 + c.1
  omega

end grown

section files

variable {base new h h' : Heap} {taken : ℕ → Counters} {n i : ℕ} {f g : File} {src dst filemap : ℕ → File}
  {is : List ℕ}

theorem nodes_cons_open (ho : (filemap i).status = .opened) (hn : (filemap i).node = some n) :
    nodes filemap (i :: is) = n :: nodes filemap is := by
  simp [nodes, ho, hn]

theorem nodes_cons_other (ho : (filemap i).status ≠ .opened) : nodes filemap (i :: is) = nodes filemap is := by
  simp [nodes, ho]

theorem nodes_congr (hsame : ∀ i ∈ is, filemap i = src i) : nodes filemap is = nodes src is := by
  unfold nodes
  refine List.filterMap_congr fun i hi => ?_
  rw [hsame i hi]

/-- A file that `filemap_dup` has made of `f`. -/
structure DupOf (f g : File) : Prop where
  inode : f.node ≠ none
  status : g.status = .opened
  node : g.node = f.node
  openCount : g.openCount = 1

/-- **`filemap_dup`** takes a reference, and opens the inode once more. -/
theorem filemapDup_spec (hl : Lent base new taken h) (hnode : ∀ n, f.node = some n → NodeOpen base n)
    (hrun : h.filemapDup fileInit f = some (g, h')) :
    ∃ n, f.node = some n ∧ DupOf f g ∧ Lent base new (Pi.single n aFile + taken) h' := by
  unfold Heap.filemapDup at hrun
  obtain ⟨_, -, hrest⟩ := Option.bind_eq_some_iff.mp hrun
  obtain ⟨n, hn, hrest⟩ := Option.bind_eq_some_iff.mp hrest
  obtain ⟨⟨y, h₁⟩, href, hrest⟩ := Option.bind_eq_some_iff.mp hrest
  obtain ⟨⟨z, h₂⟩, hopen, hrest⟩ := Option.bind_eq_some_iff.mp hrest
  obtain ⟨k, hfile, hend⟩ := Option.bind_eq_some_iff.mp hrest
  cases hend
  unfold Heap.filemapOpen at hfile
  obtain ⟨_, -, heq⟩ := Option.bind_eq_some_iff.mp hfile
  cases heq
  obtain ⟨c, hx, -⟩ := hnode n hn
  have hl' := (Leased.add_old (Leased.add_old hl hx href).2 hx hopen).2
  rw [← add_assoc, ← Pi.single_add] at hl'
  exact ⟨n, hn, ⟨by simp [hn], rfl, hn.symm, rfl⟩, hl'⟩

/-- **`vop_ref_dec`** of a reference that has been taken: the inode stays. -/
theorem vopRefDec_spec (hl : Lent base new (Pi.single n aRef + taken) h) (hnode : NodeLive base n)
    (hpos : ∀ a, 0 ≤ taken a) (hrun : h.vopRefDec n = some h') : Lent base new taken h' := by
  obtain ⟨c, hx, hc⟩ := hnode
  unfold Heap.vopRefDec at hrun
  obtain ⟨_, -, hrest⟩ := Option.bind_eq_some_iff.mp hrun
  obtain ⟨_, -, hrest⟩ := Option.bind_eq_some_iff.mp hrest
  obtain ⟨⟨z, h₁⟩, hdec, hrest⟩ := Option.bind_eq_some_iff.mp hrest
  have hl₁ := (Leased.add_old hl hx hdec).2
  rw [give] at hl₁
  have hne : z.count ≠ 0 := by
    have hstill := hl₁.get_old hx
    obtain ⟨w, hw, rfl, rfl⟩ := add_eq_some hdec
    rw [Function.update_self] at hstill
    rw [Option.some.inj hstill, vadd_count]
    have hnonneg : 0 ≤ (taken n).1 := (hpos n).1
    show (taken n).1 + c.1 ≠ 0
    omega
  dsimp only at hrest
  rw [if_neg hne] at hrest
  cases hrest
  exact hl₁

/-- **`vfs_close`**: the inode stays, with what it had. -/
theorem vfsClose_spec (hl : Lent base new (Pi.single n aFile + taken) h) (hnode : NodeOpen base n)
    (hpos : ∀ a, 0 ≤ taken a) (hrun : h.vfsClose n = some h') : Lent base new taken h' := by
  obtain ⟨c, hx, hc, -⟩ := hnode
  unfold Heap.vfsClose at hrun
  obtain ⟨h₁, hopen, href⟩ := Option.bind_eq_some_iff.mp hrun
  obtain ⟨_, -, hrest⟩ := Option.bind_eq_some_iff.mp hopen
  obtain ⟨_, -, hmap⟩ := Option.bind_eq_some_iff.mp hrest
  obtain ⟨⟨y, h₂⟩, hdec, rfl⟩ := Option.map_eq_some_iff.mp hmap
  have hl₁ := (Leased.add_old hl hx hdec).2
  have htaken : Pi.single n (-anOpen) + (Pi.single n aFile + taken) = Pi.single n aRef + taken := by
    rw [← add_assoc, ← Pi.single_add, aFile, neg_add_cancel_left]
  rw [htaken] at hl₁
  exact vopRefDec_spec hl₁ ⟨c, hx, hc⟩ hpos href

/-- **`filemap_close`** of a file that `filemap_dup` has opened. -/
theorem filemapClose_spec (hl : Lent base new (Pi.single n aFile + taken) h) (hnode : NodeOpen base n)
    (hpos : ∀ a, 0 ≤ taken a) (hn : f.node = some n) (hcount : f.openCount = 1)
    (hrun : h.filemapClose f = some (g, h')) : Lent base new taken h' := by
  unfold Heap.filemapClose at hrun
  obtain ⟨_, -, hrest⟩ := Option.bind_eq_some_iff.mp hrun
  obtain ⟨_, -, hrest⟩ := Option.bind_eq_some_iff.mp hrest
  dsimp only at hrest
  rw [if_pos (by rw [hcount])] at hrest
  unfold Heap.filemapFree at hrest
  obtain ⟨_, -, hrest⟩ := Option.bind_eq_some_iff.mp hrest
  obtain ⟨_, -, hrest⟩ := Option.bind_eq_some_iff.mp hrest
  dsimp only at hrest
  rw [if_pos rfl] at hrest
  obtain ⟨n', hn', hrest⟩ := Option.bind_eq_some_iff.mp hrest
  obtain ⟨h₁, hclose, hend⟩ := Option.bind_eq_some_iff.mp hrest
  cases hend
  cases hn.symm.trans hn'
  exact vfsClose_spec hl hnode hpos hclose

/-- **The loop of `dup_fs`.** -/
theorem dupFsLoop_spec : ∀ (is : List ℕ) (dst : ℕ → File) (taken : ℕ → Counters) (h : Heap) {g : ℕ → File},
    is.Nodup → (∀ i ∈ is, dst i = fileInit) → Lent base new taken h →
    (∀ i ∈ is, (src i).status = .opened → ∀ n, (src i).node = some n → NodeOpen base n) →
    Heap.dupFsLoop src is dst h = some (g, h') →
    (∀ i ∈ is, if (src i).status = .opened then DupOf (src i) (g i) else g i = fileInit) ∧
      (∀ i ∉ is, g i = dst i) ∧ Lent base new (total aFile (nodes src is) + taken) h'
  | [], dst, taken, h, g, _, _, hl, _, hrun => by
    cases hrun
    exact ⟨nofun, fun _ _ => rfl, by simpa [nodes] using hl⟩
  | i :: is, dst, taken, h, g, hnd, hinit, hl, hnode, hrun => by
    obtain ⟨hi, hnd⟩ := List.nodup_cons.mp hnd
    have hnode' := fun j hj => hnode j (List.mem_cons_of_mem i hj)
    unfold Heap.dupFsLoop at hrun
    split at hrun
    · rename_i hopened
      obtain ⟨⟨f, h₁⟩, hdup, hrest⟩ := Option.bind_eq_some_iff.mp hrun
      rw [hinit i List.mem_cons_self] at hdup
      obtain ⟨n, hn, hof, hl₁⟩ := filemapDup_spec hl (hnode i List.mem_cons_self hopened) hdup
      have hinit' : ∀ j ∈ is, Function.update dst i f j = fileInit := by
        intro j hj
        have hne : j ≠ i := fun heq => hi (heq ▸ hj)
        rw [Function.update_of_ne hne]
        exact hinit j (List.mem_cons_of_mem i hj)
      obtain ⟨hin, hout, hl'⟩ := dupFsLoop_spec is _ _ h₁ hnd hinit' hl₁ hnode' hrest
      refine ⟨fun j hj => ?_, fun j hj => ?_, ?_⟩
      · rcases List.mem_cons.mp hj with rfl | hj
        · rw [if_pos hopened, hout j hi, Function.update_self]
          exact hof
        · exact hin j hj
      · have hne : j ≠ i := fun heq => hj (heq ▸ List.mem_cons_self)
        rw [hout j fun hmem => hj (List.mem_cons_of_mem i hmem), Function.update_of_ne hne]
      · rw [nodes_cons_open hopened hn, total_cons, add_assoc, add_left_comm]
        exact hl'
    · rename_i hopened
      obtain ⟨hin, hout, hl'⟩ := dupFsLoop_spec is dst taken h hnd
        (fun j hj => hinit j (List.mem_cons_of_mem i hj)) hl hnode' hrun
      refine ⟨fun j hj => ?_, fun j hj => hout j fun hmem => hj (List.mem_cons_of_mem i hmem), ?_⟩
      · rcases List.mem_cons.mp hj with rfl | hj
        · rw [if_neg hopened, hout j hi]
          exact hinit j List.mem_cons_self
        · exact hin j hj
      · rw [nodes_cons_other hopened]
        exact hl'

/-- **The loop of `fs_destroy`** gives back what the files have. -/
theorem fsDestroyLoop_spec : ∀ (is : List ℕ) (filemap : ℕ → File) (h : Heap), is.Nodup →
    Lent base new (total aFile (nodes filemap is) + taken) h → (∀ a, 0 ≤ taken a) →
    (∀ i ∈ is, (filemap i).status = .opened → (filemap i).openCount = 1 ∧
      ∃ n, (filemap i).node = some n ∧ NodeOpen base n) →
    Heap.fsDestroyLoop is filemap h = some h' → Lent base new taken h'
  | [], filemap, h, _, hl, _, _, hrun => by
    cases hrun
    simpa [nodes] using hl
  | i :: is, filemap, h, hnd, hl, hpos, hfiles, hrun => by
    obtain ⟨hi, hnd⟩ := List.nodup_cons.mp hnd
    unfold Heap.fsDestroyLoop at hrun
    have hrec : ∀ (f : File) (h₁ : Heap), Lent base new (total aFile (nodes filemap is) + taken) h₁ →
        Heap.fsDestroyLoop is (Function.update filemap i f) h₁ = some h' → Lent base new taken h' := by
      intro f h₁ hl₁ hrest
      have hsame : ∀ j ∈ is, Function.update filemap i f j = filemap j := fun j hj =>
        Function.update_of_ne (fun heq : j = i => hi (heq ▸ hj)) ..
      refine fsDestroyLoop_spec is _ h₁ hnd ?_ hpos (fun j hj => ?_) hrest
      · rw [nodes_congr hsame]
        exact hl₁
      · rw [hsame j hj]
        exact hfiles j (List.mem_cons_of_mem i hj)
    split at hrun
    · rename_i hopened
      obtain ⟨⟨f, h₁⟩, hclose, hrest⟩ := Option.bind_eq_some_iff.mp hrun
      obtain ⟨_, -, hrest⟩ := Option.bind_eq_some_iff.mp hrest
      obtain ⟨hcount, n, hn, hnode⟩ := hfiles i List.mem_cons_self hopened
      rw [nodes_cons_open hopened hn, total_cons, add_assoc] at hl
      refine hrec f h₁ (filemapClose_spec hl hnode (fun a => ?_) hn hcount hclose) hrest
      rw [Pi.add_apply]
      exact add_nonneg (total_nonneg (by decide) _ a) (hpos a)
    · rename_i hopened
      obtain ⟨⟨f, h₁⟩, heq, hrest⟩ := Option.bind_eq_some_iff.mp hrun
      cases heq
      obtain ⟨_, -, hrest⟩ := Option.bind_eq_some_iff.mp hrest
      rw [nodes_cons_other hopened] at hl
      exact hrec _ _ hl hrest

end files

/-! ## The calls -/

section calls

variable {base h h' : Heap} {taken : ℕ → Counters} {f dst : ℕ} {ret : Int}

/-- The table at `dst` is new, and has references to what the table `x` has. -/
def FsNew (base : Heap) (dst : ℕ) (x : FsStruct) (c : Counters) (h : Heap) : Prop :=
  ∃ g : ℕ → File,
    (∀ i < FS_STRUCT_NENTRY, if (x.filemap i).status = .opened then DupOf (x.filemap i) (g i) else g i = fileInit) ∧
    Lent base (Function.update (fun _ => none) dst (some ⟨c, .fs ⟨x.pwd, g⟩⟩))
      (total aFile (nodes x.filemap (List.range FS_STRUCT_NENTRY)) + total aRef x.pwd.toList) h

theorem aFile_nonneg : 0 ≤ aFile := by decide

theorem FsNew.grown {x : FsStruct} {c : Counters} (hf : FsNew base dst x c h) : Grown base h := by
  obtain ⟨g, -, hl⟩ := hf
  refine Leased.grown hl fun a => ?_
  rw [Pi.add_apply]
  exact add_nonneg (total_nonneg aFile_nonneg _ a) (total_nonneg aRef_nonneg _ a)

/-- The counters of a new table change. -/
theorem FsNew.add {x : FsStruct} {c m : Counters} {y : Obj} (hf : FsNew base dst x c h)
    (hrun : h.add dst m = some (y, h')) : y.count = m.1 + c.1 ∧ FsNew base dst x (m + c) h' := by
  obtain ⟨g, hg, hl⟩ := hf
  obtain ⟨rfl, hl'⟩ := Leased.add_new hl (Function.update_self ..) hrun
  rw [Function.update_idem] at hl'
  exact ⟨rfl, g, hg, hl'⟩

/-- **`dup_fs`** into a table that has just been created. -/
theorem dupFs_spec {c d : Counters} {x : FsStruct} (hx : base f = some ⟨d, .fs x⟩) (hok : FsOk base f)
    (hl : Lent base (Function.update (fun _ => none) dst (some ⟨c, .fs ⟨none, fun _ => fileInit⟩⟩)) 0 h)
    (hrun : h.dupFs dst f = some (ret, h')) : ret = 0 ∧ FsNew base dst x c h' := by
  obtain ⟨_, x', hx', -, hpwd, hfiles⟩ := hok
  cases hx.symm.trans hx'
  unfold Heap.dupFs at hrun
  obtain ⟨_, -, hrest⟩ := Option.bind_eq_some_iff.mp hrun
  obtain ⟨_, -, hrest⟩ := Option.bind_eq_some_iff.mp hrest
  obtain ⟨_, -, hrest⟩ := Option.bind_eq_some_iff.mp hrest
  obtain ⟨toFs, hto, hrest⟩ := Option.bind_eq_some_iff.mp hrest
  obtain ⟨fromFs, hfrom, hrest⟩ := Option.bind_eq_some_iff.mp hrest
  unfold Heap.fsAt at hto hfrom
  rw [hl.get_new (Function.update_self ..)] at hto
  rw [hl.get_old hx] at hfrom
  cases hto
  cases hfrom
  obtain ⟨h₁, hpw, hrest⟩ := Option.bind_eq_some_iff.mp hrest
  obtain ⟨⟨g, h₂⟩, hloop, hrest⟩ := Option.bind_eq_some_iff.mp hrest
  obtain ⟨h₃, hset, hend⟩ := Option.bind_eq_some_iff.mp hrest
  cases hend
  have hl₁ : Lent base (Function.update (fun _ => none) dst (some ⟨c, .fs ⟨none, fun _ => fileInit⟩⟩))
      (total aRef x.pwd.toList) h₁ := by
    cases hp : x.pwd with
    | none =>
      rw [hp] at hpw
      cases hpw
      exact hl
    | some n =>
      rw [hp] at hpw
      obtain ⟨⟨y, h₄⟩, hadd, rfl⟩ := Option.map_eq_some_iff.mp hpw
      obtain ⟨e, he, -⟩ := hpwd n hp
      exact (Leased.add_old hl he hadd).2
  obtain ⟨hg, -, hl₂⟩ := dupFsLoop_spec _ _ _ h₁ List.nodup_range (fun _ _ => rfl) hl₁
    (fun i hi => hfiles i (List.mem_range.mp hi)) hloop
  have hl₃ := Leased.setBody_new hl₂ (Function.update_self ..) hset
  rw [Function.update_idem] at hl₃
  exact ⟨rfl, g, fun i hi => hg i (List.mem_range.mpr hi), hl₃⟩

/-- **`fs_destroy`** of a new table. -/
theorem FsNew.fsDestroy {c d : Counters} {x : FsStruct} (hx : base f = some ⟨d, .fs x⟩) (hok : FsOk base f)
    (hf : FsNew base dst x c h) (hrun : h.fsDestroy dst = some h') : h' = base := by
  obtain ⟨_, x', hx', -, hpwd, hfiles⟩ := hok
  cases hx.symm.trans hx'
  obtain ⟨g, hg, hl⟩ := hf
  unfold Heap.fsDestroy at hrun
  obtain ⟨_, -, hrest⟩ := Option.bind_eq_some_iff.mp hrun
  obtain ⟨_, -, hrest⟩ := Option.bind_eq_some_iff.mp hrest
  obtain ⟨fs, hfs, hrest⟩ := Option.bind_eq_some_iff.mp hrest
  unfold Heap.fsAt at hfs
  rw [hl.get_new (Function.update_self ..)] at hfs
  cases hfs
  obtain ⟨h₁, hpw, hrest⟩ := Option.bind_eq_some_iff.mp hrest
  obtain ⟨h₂, hloop, hfree⟩ := Option.bind_eq_some_iff.mp hrest
  have hfilesNonneg : ∀ a, 0 ≤ total aFile (nodes x.filemap (List.range FS_STRUCT_NENTRY)) a :=
    total_nonneg aFile_nonneg _
  have hl₁ : Lent base (Function.update (fun _ => none) dst (some ⟨c, .fs ⟨x.pwd, g⟩⟩))
      (total aFile (nodes x.filemap (List.range FS_STRUCT_NENTRY)) + 0) h₁ := by
    cases hp : x.pwd with
    | none =>
      rw [hp] at hpw hl
      cases hpw
      exact hl
    | some n =>
      rw [hp] at hpw hl
      exact vopRefDec_spec (by rwa [Option.toList_some, total_cons, add_left_comm] at hl) (hpwd n hp)
        (fun a => by simpa using hfilesNonneg a) hpw
  have hnodes : nodes g (List.range FS_STRUCT_NENTRY) = nodes x.filemap (List.range FS_STRUCT_NENTRY) := by
    unfold nodes
    refine List.filterMap_congr fun i hi => ?_
    have hgi := hg i (List.mem_range.mp hi)
    split at hgi
    · rename_i hopened
      rw [if_pos hopened, if_pos hgi.status, hgi.node]
    · rename_i hopened
      rw [if_neg hopened, hgi]
      rfl
  rw [← hnodes] at hl₁
  have hl₂ := fsDestroyLoop_spec _ _ h₁ List.nodup_range hl₁ (fun _ => le_rfl) (fun i hi hopened => by
    have hgi := hg i (List.mem_range.mp hi)
    split at hgi
    · rename_i hopened'
      obtain ⟨n, hn⟩ := Option.ne_none_iff_exists'.mp hgi.inode
      exact ⟨hgi.openCount, n, hgi.node.trans hn, hfiles i (List.mem_range.mp hi) hopened' n hn⟩
    · rw [hgi] at hopened
      cases hopened) hloop
  have hl₃ := Leased.kfree_new hl₂ (Function.update_self ..) hfree
  rw [Function.update_idem, Function.update_eq_self] at hl₃
  exact hl₃.eq

/-- **`copy_fs`**: a failure leaves nothing behind, and `put_fs` undoes a success. -/
theorem copyFs_spec {a : Site → Option ℕ} {cloneFlags : UInt32} {old new : Option ℕ}
    (hok : ∀ f, old = some f → FsOk h f) (hrun : h.copyFs a cloneFlags old = some (ret, new, h')) :
    (ret ≠ 0 → h' = h) ∧ (ret = 0 → Copied h h' fun h₁ => h₁.putFs new) := by
  unfold Heap.copyFs at hrun
  obtain ⟨f, rfl, hcopy⟩ := Option.bind_eq_some_iff.mp hrun
  have hf := hok f rfl
  obtain ⟨c, x, hx, hpos, -⟩ := id hf
  split at hcopy
  · -- the table is shared
    obtain ⟨⟨y, h₁⟩, hadd, heq⟩ := Option.map_eq_some_iff.mp hcopy
    cases heq
    refine ⟨fun h0 => absurd rfl h0, fun _ => ⟨share_grown hx hadd, fun h'' hput => ?_⟩⟩
    obtain ⟨⟨z, h₂⟩, hdec, hrest⟩ := Option.bind_eq_some_iff.mp hput
    obtain ⟨rfl, rfl⟩ := share_undone hx hadd hdec
    have hne : (⟨c, .fs x⟩ : Obj).count ≠ 0 := ne_of_gt hpos
    dsimp only at hrest
    rw [if_neg hne] at hrest
    exact (Option.some.inj hrest).symm
  · unfold Heap.fsCreate at hcopy
    rcases kmalloc_cases h (a .fs) fun _ => ⟨anUp, .fs ⟨none, fun _ => fileInit⟩⟩ with hnone | ⟨dst, hfree, hsome⟩
    · rw [hnone] at hcopy
      cases hcopy
      exact ⟨fun _ => rfl, nofun⟩
    · rw [hsome] at hcopy
      obtain ⟨⟨r, h₁⟩, hdup, hrest⟩ := Option.bind_eq_some_iff.mp hcopy
      obtain ⟨rfl, hnew⟩ := dupFs_spec hx hf ((Leased.refl h).alloc hfree ⟨anUp, .fs ⟨none, fun _ => fileInit⟩⟩) hdup
      dsimp only at hrest
      rw [if_neg fun h0 => h0 rfl] at hrest
      obtain ⟨⟨y, h₂⟩, hadd, hend⟩ := Option.bind_eq_some_iff.mp hrest
      cases hend
      obtain ⟨-, hnew'⟩ := hnew.add hadd
      refine ⟨fun h0 => absurd rfl h0, fun _ => ⟨hnew'.grown, fun h'' hput => ?_⟩⟩
      obtain ⟨⟨z, h₃⟩, hdec, hrest⟩ := Option.bind_eq_some_iff.mp hput
      obtain ⟨hz, hnew''⟩ := hnew'.add hdec
      dsimp only at hrest
      rw [if_pos (by rw [hz]; decide)] at hrest
      exact hnew''.fsDestroy hx hf hrest

end calls

end Ucore.Fork
