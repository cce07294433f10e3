import Ucore.Sfs.Locks

/-!
# No circular wait among the SFS operations

* `Ok` — the discipline of one operation: `mutex_sem` first, then inode semaphores of
  referenced inodes (two of them only under `mutex_sem`), then `fs_sem`, then the semaphore of
  the unreferenced inode that is being reclaimed, then `io_sem`.
* `Inv` — every process keeps the discipline for what remains of its operation, and no
  semaphore has two holders.

Principal results: `Op.code_ok` — every operation keeps the discipline; `Inv.act` — a step
keeps the invariant; `lock_order_acyclic` — no set of processes waits in a circle as long as
`sfs_sync` does not wait for an inode on which `sfs_create`, `sfs_mkdir`, `sfs_unlink` or
`sfs_rename` is at work; `lock_order_sync_create` — it does once that happens.
-/

namespace Ucore.Locks

/-! ## The discipline of one operation -/

/-- How an operation takes `fs_sem`: `sfs_sync` takes inode semaphores under it; `inner`
operations take it while they have inode semaphores; the others take it with no semaphore. -/
inductive Kind where
  | sync
  | inner
  | outer
  deriving DecidableEq

def Op.kind : Op → Kind
  | .sync => .sync
  | .create .. | .mkdir .. | .unlink .. | .rename .. => .inner
  | _ => .outer

/-- The inode that an operation is reclaiming: it dropped the last reference to it, or it then
found it without references under `fs_sem`. -/
inductive Life where
  | clear
  | dropped (x : Node)
  | idle (x : Node)

/-- When an operation may wait for a semaphore: `held` and `mine` are its semaphores and
references. -/
def May (kind : Kind) (held : List Sem) (mine : List Node) (life : Life) : Sem → Prop
  | .mutex => held = []
  | .fs => .fs ∉ held ∧ .io ∉ held ∧ (kind = .inner ∨ held = [])
  | .io => .io ∉ held
  | .sin x =>
    (held = [] ∧ x ∈ mine) ∨
    (held = [.mutex] ∧ kind = .inner ∧ x ∈ mine) ∨
    (∃ y, held = [.sin y, .mutex] ∧ kind = .inner ∧ y ≠ x ∧ x ∈ mine) ∨
    (.fs ∈ held ∧ .io ∉ held ∧ .sin x ∉ held ∧ life = .idle x) ∨
    (held = [.fs] ∧ kind = .sync)

/-- An inode semaphore is kept with a reference to the inode, or under `fs_sem`. -/
def Covered (held : List Sem) (mine : List Node) : Prop :=
  ∀ y, .sin y ∈ held → y ∈ mine ∨ .fs ∈ held

theorem Covered.fs_mem {held : List Sem} {mine : List Node} (h : .fs ∈ held) :
    Covered held mine := fun _ _ => .inr h

theorem Covered.cons {held : List Sem} {mine : List Node} (h : Covered held mine) {m : Sem}
    (hm : ∀ x, m = .sin x → x ∈ mine ∨ .fs ∈ held) : Covered (m :: held) mine := by
  intro y hy
  rcases List.mem_cons.mp hy with hy | hy
  · exact (hm y hy.symm).imp id (List.mem_cons_of_mem _)
  · exact (h y hy).imp id (List.mem_cons_of_mem _)

theorem Covered.mono {held : List Sem} {mine mine' : List Node} (h : Covered held mine)
    (hs : mine ⊆ mine') : Covered held mine' := fun y hy => (h y hy).imp (fun hm => hs hm) id

namespace May

variable {kind : Kind} {held : List Sem} {mine : List Node} {life : Life} {x : Node}

theorem io_not_mem (h : May kind held mine life (.sin x)) : .io ∉ held := by
  rcases h with ⟨rfl, -⟩ | ⟨rfl, -⟩ | ⟨y, rfl, -⟩ | ⟨-, hio, -⟩ | ⟨rfl, -⟩ <;> simp_all

theorem covered (h : May kind held mine life (.sin x)) : x ∈ mine ∨ .fs ∈ held := by
  rcases h with ⟨-, hx⟩ | ⟨-, -, hx⟩ | ⟨y, -, -, -, hx⟩ | ⟨hfs, -⟩ | ⟨rfl, -⟩
  · exact .inl hx
  · exact .inl hx
  · exact .inl hx
  · exact .inr hfs
  · exact .inr List.mem_cons_self

end May

def Ok (kind : Kind) : Code → List Sem → List Node → Life → Prop
  | .done, held, _, life => held = [] ∧ life = .clear
  | .down m k, held, mine, life =>
    May kind held mine life m ∧ Ok kind k (m :: held) mine life
  | .up m k, held, mine, life =>
    m ∈ held ∧ Covered (held.erase m) mine ∧
      Ok kind k (held.erase m) mine (if m = .fs then .clear else life)
  | .read k, held, mine, life => ∀ fs : Fs, fs.Tree → Ok kind (k fs) held mine life
  | .write f k, held, mine, life =>
    (∀ fs : Fs, (f fs).cache ⊆ mine ++ fs.cache) ∧ Ok kind k held mine life
  | .choose k, held, mine, life => ∀ c, Ok kind (k c) held mine life
  | .dup x k, held, mine, life => x ∈ mine ∧ Ok kind k held (x :: mine) life
  | .lookupSfs ino k, held, mine, life =>
    .fs ∈ held ∧ life = .clear ∧ Ok kind (k none) held mine life ∧
      ∀ x, x.ino = ino → Ok kind (k (some x)) held (x :: mine) life
  | .new ino k, held, mine, life =>
    life = .clear ∧ ∀ x, x.ino = ino → Ok kind (k x) held (x :: mine) life
  | .put x k, held, mine, life =>
    x ∈ mine ∧ Covered held (mine.erase x) ∧ Ok kind (k true) held (mine.erase x) (.dropped x) ∧
      Ok kind (k false) held (mine.erase x) life
  | .idle x k, held, mine, life =>
    .fs ∈ held ∧ life = .dropped x ∧ (x ∉ mine → Ok kind k held mine (.idle x))

namespace Ok

variable {kind : Kind} {held : List Sem} {mine : List Node} {life : Life} {x d : Node}

theorem done : Ok kind .done [] mine .clear := ⟨rfl, rfl⟩

/-- A write that leaves `inode_list` alone. -/
theorem write {f : Fs → Fs} {k : Code} (hk : Ok kind k held mine life)
    (hf : ∀ fs, (f fs).cache = fs.cache) :
    Ok kind (.write f k) held mine life :=
  ⟨fun fs => by rw [hf]; exact List.subset_append_right _ _, hk⟩

theorem fallible {fail ok : Code} (hf : Ok kind fail held mine life)
    (ho : Ok kind ok held mine life) : Ok kind (.fallible fail ok) held mine life := by
  intro c
  dsimp only
  split
  · exact ho
  · exact hf

theorem ios {k : Code} (hc : Covered held mine) (hio : .io ∉ held)
    (hk : Ok kind k held mine life) : ∀ n, Ok kind (.ios n k) held mine life
  | 0 => hk
  | n + 1 => by
    refine ⟨hio, List.mem_cons_self, ?_, ?_⟩
    · rw [List.erase_cons_head]
      exact hc
    · rw [List.erase_cons_head, if_neg (by simp)]
      exact ios hc hio hk n

theorem disk {fail ok : Code} (hc : Covered held mine) (hio : .io ∉ held)
    (hf : Ok kind fail held mine life) (ho : Ok kind ok held mine life) :
    Ok kind (.disk fail ok) held mine life :=
  fun n => ios hc hio (fallible hf ho) n

/-- The release of a semaphore that was taken last. -/
theorem up_last {m : Sem} {k : Code} (hc : Covered held mine) (hm : m ≠ .fs)
    (hk : Ok kind k held mine life) : Ok kind (.up m k) (m :: held) mine life := by
  refine ⟨List.mem_cons_self, ?_, ?_⟩
  · rw [List.erase_cons_head]
    exact hc
  · rw [List.erase_cons_head, if_neg hm]
    exact hk

theorem up_fs {k : Code} (hc : Covered held mine) (hk : Ok kind k held mine .clear) :
    Ok kind (.up .fs k) (.fs :: held) mine life := by
  refine ⟨List.mem_cons_self, ?_, ?_⟩
  · rw [List.erase_cons_head]
    exact hc
  · rw [List.erase_cons_head, if_pos rfl]
    exact hk

theorem trylockSin {fail ok : Code} (hm : May kind held mine life (.sin x))
    (hc : Covered held mine) (hf : Ok kind fail held mine life)
    (ho : Ok kind ok (.sin x :: held) mine life) :
    Ok kind (.trylockSin x fail ok) held mine life := by
  intro fs _
  dsimp only
  split
  · exact hf
  · refine ⟨hm, ?_⟩
    intro fs' _
    dsimp only
    split
    · exact up_last hc (by simp) hf
    · exact ho

theorem fsync {k : Bool → Code} (hm : May kind held mine life (.sin x))
    (hc : Covered held mine) (hk : ∀ b, Ok kind (k b) held mine life) :
    Ok kind (.fsync x k) held mine life := by
  have hc' : Covered (.sin x :: held) mine := hc.cons fun y hy => by
    cases hy
    exact hm.covered
  have hio : .io ∉ Sem.sin x :: held := by simp [hm.io_not_mem]
  have hup : ∀ b, Ok kind (.up (.sin x) (k b)) (.sin x :: held) mine life :=
    fun b => up_last hc (by simp) (hk b)
  intro fs _
  dsimp only
  split
  · exact hk true
  · refine trylockSin hm hc (hk false) ?_
    intro fs' _
    dsimp only
    split
    · exact write (ios hc' hio (fallible (write (hup false) fun _ => by rfl) (hup true)) 1) fun _ => by rfl
    · exact hup true

/-- The conditions under which an operation may take `fs_sem`, and so drop a reference. -/
structure Enters (kind : Kind) (held : List Sem) (mine : List Node) : Prop where
  may : May kind held mine .clear .fs
  covered : Covered held mine

theorem Enters.io_not_mem (h : Enters kind held mine) : .io ∉ Sem.fs :: held := by
  have := h.may.2.1
  simp [this]

theorem reclaimKill {k : Code} (h : Enters kind held mine) (hk : Ok kind k held mine .clear) :
    Ok kind (.reclaimKill x k) (.fs :: held) mine life := by
  refine ⟨fun fs => ?_, up_fs h.covered ?_⟩
  · exact fun y hy => List.mem_append_right _ (List.mem_of_mem_erase hy)
  · intro fs _
    dsimp only
    split
    · exact write (fun n => ios h.covered h.may.2.1 hk n) fun _ => by rfl
    · exact hk

theorem reclaim {k : Code} (h : Enters kind held mine) (hk : Ok kind k held mine .clear) :
    Ok kind (.reclaim x k) held mine (.dropped x) := by
  have hc : Covered (.fs :: held) mine := .fs_mem List.mem_cons_self
  refine ⟨h.may, ?_⟩
  intro busy
  dsimp only
  split
  · exact up_fs h.covered hk
  · refine ⟨List.mem_cons_self, rfl, ?_⟩
    intro hx fs _
    -- nobody else has the semaphore of `x`, and this operation does not either
    have hsin : .sin x ∉ Sem.fs :: held := by
      intro hmem
      rcases h.covered x (by simpa using hmem) with hx' | hfs
      · exact hx hx'
      · exact h.may.1 hfs
    dsimp only
    split
    · exact fun n => ios hc h.io_not_mem (reclaimKill h hk) n
    split
    · refine fsync (.inr (.inr (.inr (.inl ⟨List.mem_cons_self, h.io_not_mem, hsin, rfl⟩)))) hc ?_
      intro ok
      split
      · exact reclaimKill h hk
      · exact up_fs h.covered hk
    · exact reclaimKill h hk

theorem refDec {k : Code} (hx : x ∈ mine) (h : Enters kind held (mine.erase x))
    (hk : Ok kind k held (mine.erase x) .clear) : Ok kind (.refDec x k) held mine .clear :=
  ⟨hx, h.covered, reclaim h hk, hk⟩

theorem setLinks_subset (fs : Fs) : (fs.setLinks x).cache ⊆ (x :: mine) ++ fs.cache := by
  intro y hy
  rcases List.mem_cons.mp hy with rfl | hy
  · exact List.mem_append_left _ List.mem_cons_self
  · exact List.mem_append_right _ hy

theorem loadInode {ino : ℕ} {fail : Code} {k : Node → Code} (h : Enters kind held mine)
    (hf : Ok kind fail held mine .clear)
    (hk : ∀ x, x.ino = ino → Ok kind (k x) held (x :: mine) .clear) :
    Ok kind (.loadInode ino fail k) held mine .clear := by
  have hc : Covered (.fs :: held) mine := .fs_mem List.mem_cons_self
  have hfail : Ok kind (.up .fs fail) (.fs :: held) mine .clear := up_fs h.covered hf
  have hcov : ∀ x, Covered held (x :: mine) := fun x => h.covered.mono (by simp)
  refine ⟨h.may, List.mem_cons_self, rfl, ?_, ?_⟩
  · refine fallible hfail (disk hc h.io_not_mem hfail (fallible hfail ⟨rfl, ?_⟩))
    exact fun x hino => ⟨fun fs => setLinks_subset (fs.createInode x), up_fs (hcov x) (hk x hino)⟩
  · exact fun x hino => up_fs (hcov x) (hk x hino)

theorem search {name : String} {fail absent : Code} {found : ℕ → Code} (hc : Covered held mine)
    (hio : .io ∉ held) (hf : Ok kind fail held mine life)
    (hfound : ∀ ino, ino ≠ d.ino → Ok kind (found ino) held mine life)
    (ha : Ok kind absent held mine life) :
    Ok kind (.search d name fail found absent) held mine life := by
  refine disk hc hio hf ?_
  intro fs htree
  dsimp only
  split
  · rename_i ino hl
    exact hfound ino (htree.ne hl)
  · exact ha

theorem direntCreateInode {dir : Bool} {fail : Code} {k : Node → Code}
    (h : Enters kind held mine) (hf : Ok kind fail held mine .clear)
    (hk : ∀ x, Ok kind (k x) held (x :: mine) .clear) :
    Ok kind (.direntCreateInode dir fail k) held mine .clear := by
  refine fallible hf ?_
  intro ino fs _
  dsimp only
  split
  · exact hf
  · refine write (ios h.covered h.may.2.1
      (fallible hf (fallible (write hf fun _ => by rfl) ?_)) 1) fun _ => by rfl
    refine ⟨rfl, ?_⟩
    intro x _
    exact write ⟨h.may, setLinks_subset, up_fs (h.covered.mono (by simp)) (hk x)⟩ fun _ => by rfl

theorem direntLink {name : String} {fail ok : Code} (hc : Covered held mine) (hio : .io ∉ held)
    (hf : Ok kind fail held mine life) (ho : Ok kind ok held mine life) :
    Ok kind (.direntLink d name x fail ok) held mine life :=
  disk hc hio hf (write ho fun _ => by rfl)

theorem direntUnlink {name : String} {fail ok : Code} (hc : Covered held mine)
    (hio : .io ∉ held) (hf : Ok kind fail held mine life) (ho : Ok kind ok held mine life) :
    Ok kind (.direntUnlink d name x fail ok) held mine life :=
  disk hc hio hf (write ho fun _ => by rfl)

theorem checkName {name : String} {k : Code} (hk : Ok kind k [] mine .clear) :
    Ok kind (.checkName name k) [] mine .clear := by
  unfold Code.checkName
  split
  · exact done
  · exact hk

/-- The reference that an operation took itself can be dropped. -/
theorem refDec_own {k : Code} (h : Enters kind held mine) (hk : Ok kind k held mine .clear) :
    Ok kind (.refDec x k) held (x :: mine) .clear := by
  refine refDec List.mem_cons_self ?_ ?_
  · rw [List.erase_cons_head]
    exact h
  · rw [List.erase_cons_head]
    exact hk

/-! ### One lemma for each operation -/

/-- The only semaphore that is held is released at the end. -/
theorem up_done {m : Sem} (hm : m ≠ .fs) : Ok kind (.up m .done) [m] mine .clear :=
    up_last (by simp [Covered]) hm done

theorem create {name : String} {excl : Bool} (hd : d ∈ mine) :
    Ok .inner (.create d name excl) [] mine .clear := by
  have hnil : Covered [] mine := by simp [Covered]
  have h : Enters .inner [.sin d] mine := ⟨by simp [May], by simp [Covered, hd]⟩
  have hio : .io ∉ [Sem.sin d] := by simp
  have hk : Ok .inner (.up (.sin d) .done) [.sin d] mine .clear := up_done (by simp)
  refine checkName (trylockSin (.inl ⟨rfl, hd⟩) hnil done ?_)
  refine search h.covered hio hk ?_ ?_
  · intro ino _
    split
    · exact hk
    · refine loadInode h hk ?_
      intro x _ fs _
      dsimp only
      split
      · exact refDec_own h hk
      · exact up_done (by simp)
  · refine direntCreateInode h hk ?_
    intro x
    exact direntLink (h.covered.mono (by simp)) hio (refDec_own h hk) (up_done (by simp))

theorem mkdir {name : String} (hd : d ∈ mine) : Ok .inner (.mkdir d name) [] mine .clear := by
  have hnil : Covered [] mine := by simp [Covered]
  have h : Enters .inner [.sin d] mine := ⟨by simp [May], by simp [Covered, hd]⟩
  have hio : .io ∉ [Sem.sin d] := by simp
  have hk : Ok .inner (.up (.sin d) .done) [.sin d] mine .clear := up_done (by simp)
  refine checkName (trylockSin (.inl ⟨rfl, hd⟩) hnil done ?_)
  refine search h.covered hio hk (fun _ _ => hk) (direntCreateInode h hk ?_)
  intro x
  exact direntLink (h.covered.mono (by simp)) hio (refDec_own h hk)
    (write (refDec_own h hk) fun _ => by rfl)

theorem link {kind : Kind} {name : String} (hd : d ∈ mine) :
    Ok kind (.link d name x) [] mine .clear := by
  have hnil : Covered [] mine := by simp [Covered]
  have hc : Covered [.sin d] mine := by simp [Covered, hd]
  have hio : .io ∉ [Sem.sin d] := by simp
  have hk : Ok kind (.up (.sin d) .done) [.sin d] mine .clear := up_done (by simp)
  refine checkName ?_
  intro fs _
  dsimp only
  split
  · exact done
  · refine trylockSin (.inl ⟨rfl, hd⟩) hnil done ?_
    exact search hc hio hk (fun _ _ => hk) (direntLink hc hio hk hk)

theorem unlinkDir {name : String} {k : Code} (hd : d ∈ mine) (hx : x ∈ mine) (hne : d ≠ x)
    (hk : Ok .inner k [.sin d, .mutex] mine .clear) :
    Ok .inner (.unlinkDir d name x k) [.sin d, .mutex] mine .clear := by
  have hc : Covered [.sin d, .mutex] mine := by simp [Covered, hd]
  have hc' : Covered [.sin x, .sin d, .mutex] mine := by simp [Covered, hd, hx]
  have hup : Ok .inner (.up (.sin x) k) [.sin x, .sin d, .mutex] mine .clear :=
    up_last hc (by simp) hk
  refine trylockSin (.inr (.inr (.inl ⟨d, rfl, rfl, hne, hx⟩))) hc hk ?_
  intro fs _
  dsimp only
  split
  · exact hup
  · exact direntUnlink hc' (by simp) hup (write hup fun _ => by rfl)

theorem unlink {name : String} (hd : d ∈ mine) : Ok .inner (.unlink d name) [] mine .clear := by
  have hm : Covered [.mutex] mine := by simp [Covered]
  have h : Enters .inner [.sin d, .mutex] mine := ⟨by simp [May], by simp [Covered, hd]⟩
  have hio : .io ∉ [Sem.sin d, .mutex] := by simp
  have hout : Ok .inner (.up .mutex .done) [.mutex] mine .clear := up_done (by simp)
  have hk : Ok .inner (.up (.sin d) (.up .mutex .done)) [.sin d, .mutex] mine .clear :=
    up_last hm (by simp) hout
  refine checkName ⟨rfl, trylockSin (.inr (.inl ⟨rfl, rfl, hd⟩)) hm hout ?_⟩
  refine search h.covered hio hk ?_ hk
  intro ino hino
  refine loadInode h hk ?_
  intro x hx fs _
  have hne : d ≠ x := fun he => hino (by rw [he, hx])
  have hdec : Ok .inner (.refDec x (.up (.sin d) (.up .mutex .done))) [.sin d, .mutex] (x :: mine)
      .clear := refDec_own h hk
  dsimp only
  split
  · exact unlinkDir (List.mem_cons_of_mem _ hd) List.mem_cons_self hne hdec
  · exact direntUnlink (h.covered.mono (by simp)) hio hdec hdec

theorem rename2Move {d' : Node} {name newName : String} {k : Code} (hc : Covered held mine)
    (hio : .io ∉ held) (hk : Ok kind k held mine .clear) :
    Ok kind (.rename2Move d name d' newName x k) held mine .clear := by
  refine direntUnlink hc hio hk ?_
  intro fs _
  dsimp only
  split
  · exact write (direntLink hc hio (direntLink hc hio hk (write hk fun _ => by rfl))
      (write hk fun _ => by rfl)) fun _ => by rfl
  · exact direntLink hc hio (direntLink hc hio hk hk) hk

theorem rename {d' : Node} {name newName : String} (hd : d ∈ mine) (hd' : d' ∈ mine) :
    Ok .inner (.rename d name d' newName) [] mine .clear := by
  have hm : Covered [.mutex] mine := by simp [Covered]
  have h₁ : Enters .inner [.sin d, .mutex] mine := ⟨by simp [May], by simp [Covered, hd]⟩
  have h₂ : Enters .inner [.sin d', .sin d, .mutex] mine :=
    ⟨by simp [May], by simp [Covered, hd, hd']⟩
  have hio₁ : .io ∉ [Sem.sin d, .mutex] := by simp
  have hio₂ : .io ∉ [Sem.sin d', .sin d, .mutex] := by simp
  have hout : Ok .inner (.up .mutex .done) [.mutex] mine .clear := up_done (by simp)
  have hk₁ : Ok .inner (.up (.sin d) (.up .mutex .done)) [.sin d, .mutex] mine .clear :=
    up_last hm (by simp) hout
  have hk₂ : Ok .inner (.up (.sin d') (.up (.sin d) (.up .mutex .done)))
      [.sin d', .sin d, .mutex] mine .clear := up_last h₁.covered (by simp) hk₁
  refine checkName (checkName ⟨rfl, trylockSin (.inr (.inl ⟨rfl, rfl, hd⟩)) hm hout ?_⟩)
  split
  · unfold Code.rename1Nolock
    split
    · exact hk₁
    · refine search h₁.covered hio₁ hk₁ ?_ hk₁
      intro _ _
      exact search h₁.covered hio₁ hk₁ (fun _ _ => hk₁)
        (disk h₁.covered hio₁ hk₁ (write hk₁ fun _ => by rfl))
  · rename_i hne
    refine trylockSin (.inr (.inr (.inl ⟨d, rfl, rfl, hne, hd'⟩))) h₁.covered hk₁ ?_
    refine search h₂.covered hio₂ hk₂ ?_ hk₂
    intro _ _
    refine search h₂.covered hio₂ hk₂ (fun _ _ => hk₂) (loadInode h₂ hk₂ ?_)
    intro x _
    exact rename2Move (h₂.covered.mono (by simp)) hio₂ (refDec_own h₂ hk₂)

theorem refDec_nil {k : Code} (hx : x ∈ mine) (hk : Ok kind k [] (mine.erase x) .clear) :
    Ok kind (.refDec x k) [] mine .clear :=
  refDec hx ⟨by simp [May], by simp [Covered]⟩ hk

theorem lookupFrom : ∀ (path : List String) (d : Node) (mine : List Node), d ∈ mine →
    Ok kind (.lookupFrom d path) [] mine .clear := by
  intro path
  induction path with
  | nil => exact fun _ _ _ => done
  | cons name path ih =>
    intro d mine hd
    have hnil : Covered [] mine := by simp [Covered]
    have h : Enters kind [] mine := ⟨by simp [May], hnil⟩
    have hfail : Ok kind (.refDec d .done) [] mine .clear := refDec_nil hd done
    have hnext : ∀ x, Ok kind (.refDec d (.lookupFrom x path)) [] (x :: mine) .clear := by
      intro x
      refine refDec_nil (List.mem_cons_of_mem _ hd) (ih x _ ?_)
      by_cases hx : x = d
      · rw [hx, List.erase_cons_head]
        exact hd
      · rw [List.erase_cons_tail (by simpa using hx)]
        exact List.mem_cons_self
    have hup : ∀ k, Ok kind k [] mine .clear → Ok kind (.up (.sin d) k) [.sin d] mine .clear :=
      fun k hk => up_last hnil (by simp) hk
    intro fs _
    dsimp only
    split
    · exact hfail
    split
    · exact ih d mine hd
    split
    · exact loadInode h hfail fun x _ => hnext x
    split
    · exact hfail
    · refine trylockSin (.inl ⟨rfl, hd⟩) hnil hfail ?_
      refine search (by simp [Covered, hd]) (by simp) (hup _ hfail) ?_ (hup _ hfail)
      exact fun ino _ => hup _ (loadInode h hfail fun x _ => hnext x)

theorem sfsIo (hx : x ∈ mine) : Ok kind (.sfsIo x) [] mine .clear :=
  trylockSin (.inl ⟨rfl, hx⟩) (by simp [Covered]) done
    (disk (by simp [Covered, hx]) (by simp) (up_done (by simp)) (up_done (by simp)))

theorem truncfile (hx : x ∈ mine) : Ok kind (.truncfile x) [] mine .clear :=
  fallible done (trylockSin (.inl ⟨rfl, hx⟩) (by simp [Covered]) done
    (disk (by simp [Covered, hx]) (by simp) (up_done (by simp)) (write (up_done (by simp)) fun _ => by rfl)))

theorem syncList : ∀ l : List Node, Ok .sync (.syncList l) [.fs] mine .clear
  | [] => up_fs (by simp [Covered]) fun n => ios (by simp [Covered]) (by simp) done n
  | x :: l =>
    fsync (.inr (.inr (.inr (.inr ⟨rfl, rfl⟩)))) (by simp [Covered]) fun _ => syncList l

end Ok

/-- Every operation keeps the discipline. -/
theorem Op.code_ok (op : Op) {mine : List Node} (h : op.args ⊆ mine) :
    Ok op.kind op.code [] mine .clear := by
  cases op with
  | sync => exact ⟨by simp [May], fun fs _ => Ok.syncList fs.cache⟩
  | create d name excl => exact Ok.create (h (by simp [args]))
  | mkdir d name => exact Ok.mkdir (h (by simp [args]))
  | link d name x => exact Ok.link (h (by simp [args]))
  | unlink d name => exact Ok.unlink (h (by simp [args]))
  | rename d name d' newName => exact Ok.rename (h (by simp [args])) (h (by simp [args]))
  | lookup d path =>
    have hd : d ∈ mine := h (by simp [args])
    exact ⟨hd, Ok.lookupFrom path d _ List.mem_cons_self⟩
  | io x => exact Ok.sfsIo (h (by simp [args]))
  | truncfile x => exact Ok.truncfile (h (by simp [args]))
  | fsync x =>
    exact Ok.fsync (.inl ⟨rfl, h (by simp [args])⟩) (by simp [Covered]) fun _ => Ok.done
  | drop x => exact Ok.refDec_nil (h (by simp [args])) Ok.done

/-! ## The invariant of a run -/

variable {n : ℕ}

/-- What the state knows of the inode that process `p` is reclaiming. -/
def LifeOk (s : State n) (p : Fin n) : Life → Prop
  | .clear => True
  | .dropped x => x.id < s.next
  | .idle x => x.id < s.next ∧ .fs ∈ (s.proc p).held ∧ s.Unref x

structure Inv (s : State n) : Prop where
  proc : ∀ p, ∃ life, Ok (s.proc p).op.kind (s.proc p).code (s.proc p).held (s.proc p).mine life ∧
    LifeOk s p life
  covered : ∀ p, Covered (s.proc p).held (s.proc p).mine
  excl : ∀ p q m, m ∈ (s.proc p).held → m ∈ (s.proc q).held → p = q
  refs : ∀ p, ∀ x ∈ (s.proc p).mine, x.id < s.next
  cached : ∀ x ∈ s.fs.cache, x.id < s.next

theorem State.Quiescent.inv {s : State n} (h : s.Quiescent) : Inv s where
  proc p := ⟨.clear, by rw [h.done, h.free]; exact Ok.done, trivial⟩
  covered p := by rw [h.free]; simp [Covered]
  excl p q m hp := by rw [h.free] at hp; cases hp
  refs := h.refs
  cached := h.cached

/-- A step of `p` keeps the invariant if `p` goes on within the discipline, takes only free
semaphores, and takes no reference to an inode that another process found unreferenced. -/
theorem Inv.update {s s' : State n} (h : Inv s) {p : Fin n} {pr : Proc} (life : Life)
    (hproc : s'.proc = Function.update s.proc p pr) (hnext : s.next ≤ s'.next)
    (hok : Ok pr.op.kind pr.code pr.held pr.mine life) (hlife : LifeOk s' p life)
    (hcov : Covered pr.held pr.mine) (hheld : ∀ m ∈ pr.held, m ∈ (s.proc p).held ∨ s.Free m)
    (hmine : ∀ x ∈ pr.mine, x.id < s'.next) (hcache : ∀ x ∈ s'.fs.cache, x.id < s'.next)
    (hidle : ∀ q x, q ≠ p → LifeOk s q (.idle x) → x ∉ pr.mine) : Inv s' := by
  have hp : s'.proc p = pr := by rw [hproc, Function.update_self]
  have hq : ∀ q, q ≠ p → s'.proc q = s.proc q := fun q hne => by
    rw [hproc, Function.update_of_ne hne]
  -- a semaphore that `p` has after the step is not with another process
  have hother : ∀ q m, q ≠ p → m ∈ pr.held → m ∉ (s.proc q).held := by
    intro q m hne hm hmq
    rcases hheld m hm with hm' | hfree
    · exact hne (h.excl q p m hmq hm')
    · exact hfree q hmq
  refine ⟨fun q => ?_, fun q => ?_, fun q r m hmq hmr => ?_, fun q => ?_, hcache⟩
  · by_cases hne : q = p
    · subst hne
      exact ⟨life, by rw [hp]; exact hok, hlife⟩
    · obtain ⟨life', hok', hlife'⟩ := h.proc q
      refine ⟨life', by rw [hq q hne]; exact hok', ?_⟩
      cases life' with
      | clear => trivial
      | dropped x => exact Nat.lt_of_lt_of_le hlife' hnext
      | idle x =>
        refine ⟨Nat.lt_of_lt_of_le hlife'.1 hnext, by rw [hq q hne]; exact hlife'.2.1, ?_⟩
        intro r
        by_cases hr : r = p
        · rw [hr, hp]
          exact hidle q x hne hlife'
        · rw [hq r hr]
          exact hlife'.2.2 r
  · by_cases hne : q = p
    · rw [hne, hp]
      exact hcov
    · rw [hq q hne]
      exact h.covered q
  · by_cases hqp : q = p <;> by_cases hrp : r = p
    · rw [hqp, hrp]
    · rw [hqp, hp] at hmq
      rw [hq r hrp] at hmr
      exact absurd hmr (hother r m hrp hmq)
    · rw [hrp, hp] at hmr
      rw [hq q hqp] at hmq
      exact absurd hmq (hother q m hqp hmr)
    · rw [hq q hqp] at hmq
      rw [hq r hrp] at hmr
      exact h.excl q r m hmq hmr
  · by_cases hne : q = p
    · rw [hne, hp]
      exact hmine
    · rw [hq q hne]
      exact fun x hx => Nat.lt_of_lt_of_le (h.refs q x hx) hnext

theorem State.Unref.update {s s' : State n} {p : Fin n} {pr : Proc} {x : Node}
    (h : s.Unref x) (hproc : s'.proc = Function.update s.proc p pr) (hx : x ∉ pr.mine) :
    s'.Unref x := by
  intro q
  by_cases hq : q = p
  · rw [hproc, hq, Function.update_self]
    exact hx
  · rw [hproc, Function.update_of_ne hq]
    exact h q

theorem LifeOk.update {s s' : State n} {p : Fin n} {pr : Proc} {life : Life}
    (h : LifeOk s p life) (hproc : s'.proc = Function.update s.proc p pr)
    (hnext : s.next ≤ s'.next) (hfs : .fs ∈ (s.proc p).held → .fs ∈ pr.held)
    (hmine : pr.mine ⊆ (s.proc p).mine) : LifeOk s' p life := by
  cases life with
  | clear => trivial
  | dropped x => exact Nat.lt_of_lt_of_le h hnext
  | idle x =>
    refine ⟨Nat.lt_of_lt_of_le h.1 hnext, ?_, h.2.2.update hproc fun hx => h.2.2 p (hmine hx)⟩
    rw [hproc, Function.update_self]
    exact hfs h.2.1

/-- A step of `p` that only goes on to other code, and may give up references. -/
theorem Inv.goOn {s : State n} (h : Inv s) {p : Fin n} {code : Code} {mine : List Node}
    (life : Life) (hsub : mine ⊆ (s.proc p).mine) (hcov : Covered (s.proc p).held mine)
    (hok : Ok (s.proc p).op.kind code (s.proc p).held mine life) (hlife : LifeOk s p life) :
    Inv (s.setProc p { s.proc p with code := code, mine := mine }) :=
  h.update _ rfl (Nat.le_refl _) hok (hlife.update rfl (Nat.le_refl _) id hsub) hcov
    (fun _ hm => .inl hm) (fun x hx => h.refs p x (hsub hx)) h.cached
    fun _ _ _ hl hx => hl.2.2 p (hsub hx)

/-- One step of a running operation keeps the invariant. -/
theorem Inv.run {s s' : State n} (h : Inv s) (htree : s.fs.Tree) {p : Fin n} {c : ℕ}
    (hs : s.run p c = some s') : Inv s' := by
  obtain ⟨life, hok, hlife⟩ := h.proc p
  have hcov := h.covered p
  unfold State.run at hs
  dsimp only at hs
  generalize hcode : (s.proc p).code = code at hs hok
  cases code with
  | done => cases hs
  | down m k =>
    dsimp only at hs
    obtain ⟨hfree, hs⟩ := Option.ite_none_right_eq_some.mp hs
    cases hs
    refine h.update _ rfl (Nat.le_refl _) hok.2
      (hlife.update rfl (Nat.le_refl _) (List.mem_cons_of_mem _) (List.Subset.refl _)) ?_ ?_
      (h.refs p) h.cached fun _ _ _ hl => hl.2.2 p
    · refine hcov.cons fun x hx => ?_
      subst hx
      exact hok.1.covered
    · intro m' hm'
      rcases List.mem_cons.mp hm' with rfl | hm'
      · exact .inr hfree
      · exact .inl hm'
  | up m k =>
    dsimp only at hs
    obtain ⟨-, hs⟩ := Option.ite_none_right_eq_some.mp hs
    cases hs
    refine h.update _ rfl (Nat.le_refl _) hok.2.2 ?_ hok.2.1
      (fun m' hm' => .inl (List.mem_of_mem_erase hm')) (h.refs p) h.cached
      fun _ _ _ hl => hl.2.2 p
    split
    · trivial
    · rename_i hm
      exact hlife.update rfl (Nat.le_refl _) (List.mem_erase_of_ne (Ne.symm hm)).mpr
        (List.Subset.refl _)
  | read k =>
    cases hs
    exact h.goOn _ (List.Subset.refl _) hcov (hok s.fs htree) hlife
  | write f k =>
    cases hs
    refine h.update _ rfl (Nat.le_refl _) hok.2
      (hlife.update rfl (Nat.le_refl _) id (List.Subset.refl _)) hcov (fun _ hm => .inl hm)
      (h.refs p) ?_ fun _ _ _ hl => hl.2.2 p
    intro x hx
    rcases List.mem_append.mp (hok.1 s.fs hx) with hx | hx
    · exact h.refs p x hx
    · exact h.cached x hx
  | choose k =>
    cases hs
    exact h.goOn _ (List.Subset.refl _) hcov (hok c) hlife
  | dup x k =>
    dsimp only at hs
    obtain ⟨hx, hs⟩ := Option.ite_none_right_eq_some.mp hs
    cases hs
    have hsub : x :: (s.proc p).mine ⊆ (s.proc p).mine := List.cons_subset.mpr ⟨hx, fun _ h => h⟩
    exact h.goOn _ hsub (hcov.mono (List.subset_cons_self _ _)) hok.2 hlife
  | lookupSfs ino k =>
    obtain ⟨hfs, hclear, hnone, hsome⟩ := hok
    dsimp only at hs
    split at hs
    · rename_i x hx
      cases hs
      have hmem := List.mem_of_find?_eq_some hx
      have hino : x.ino = ino := by simpa using List.find?_some hx
      subst hclear
      refine h.update _ rfl (Nat.le_refl _) (hsome x hino) trivial
        (hcov.mono (List.subset_cons_self _ _)) (fun _ hm => .inl hm) ?_ h.cached ?_
      · intro y hy
        rcases List.mem_cons.mp hy with rfl | hy
        · exact h.cached y hmem
        · exact h.refs p y hy
      · -- no other process is reclaiming: `fs_sem` is here
        intro q y hne hl
        exact absurd (h.excl q p .fs hl.2.1 hfs) hne
    · cases hs
      exact h.goOn _ (List.Subset.refl _) hcov hnone hlife
  | new ino k =>
    cases hs
    obtain ⟨hclear, hnew⟩ := hok
    subst hclear
    refine h.update _ rfl (Nat.le_succ _) (hnew ⟨s.next, ino⟩ rfl) trivial
      (hcov.mono (List.subset_cons_self _ _)) (fun _ hm => .inl hm) ?_
      (fun x hx => Nat.lt_succ_of_lt (h.cached x hx)) ?_
    · intro y hy
      rcases List.mem_cons.mp hy with rfl | hy
      · exact Nat.lt_succ_self _
      · exact Nat.lt_succ_of_lt (h.refs p y hy)
    · intro q y _ hl hy
      rcases List.mem_cons.mp hy with rfl | hy
      · exact absurd hl.1 (Nat.lt_irrefl _)
      · exact hl.2.2 p hy
  | put x k =>
    dsimp only at hs
    obtain ⟨hx, hcov', hzero, hmore⟩ := hok
    rw [if_pos hx] at hs
    generalize hun : decide (State.Unref _ x) = b at hs
    obtain rfl : s.setProc p { s.proc p with code := k b, mine := (s.proc p).mine.erase x } = s' := by
      simpa [State.setProc] using hs
    refine h.goOn (if b then .dropped x else life) List.erase_subset hcov' ?_ ?_
    · cases b
      · exact hmore
      · exact hzero
    · cases b
      · exact hlife
      · exact h.refs p x hx
  | idle x k =>
    dsimp only at hs
    obtain ⟨hun, hs⟩ := Option.ite_none_right_eq_some.mp hs
    cases hs
    obtain ⟨hfs, hdrop, hidle⟩ := hok
    subst hdrop
    exact h.goOn _ (List.Subset.refl _) hcov (hidle (hun p)) ⟨hlife, hfs, hun⟩

theorem Inv.act {s s' : State n} (h : Inv s) (htree : s.fs.Tree) {a : Act n}
    (hs : s.act a = some s') : Inv s' := by
  cases a with
  | run p c => exact h.run htree hs
  | start p op =>
    dsimp only [State.act] at hs
    obtain ⟨life, hok, hlife⟩ := h.proc p
    generalize hcode : (s.proc p).code = code at hs hok
    cases code with
    | done =>
      dsimp only at hs
      obtain ⟨hargs, hs⟩ := Option.ite_none_right_eq_some.mp hs
      cases hs
      refine h.update .clear rfl (Nat.le_refl _) ?_ trivial (h.covered p)
        (fun _ hm => .inl hm) (h.refs p) h.cached fun _ _ _ hl => hl.2.2 p
      dsimp only
      rw [hok.1]
      exact op.code_ok hargs
    | _ => cases hs
  | share p q x =>
    dsimp only [State.act] at hs
    obtain ⟨life, hok, hlife⟩ := h.proc q
    generalize hcode : (s.proc q).code = code at hs hok
    cases code with
    | done =>
      dsimp only at hs
      obtain ⟨hx, hs⟩ := Option.ite_none_right_eq_some.mp hs
      cases hs
      have hfree : (s.proc q).held = [] := hok.1
      refine h.update .clear rfl (Nat.le_refl _) ?_ trivial ?_ (fun _ hm => .inl hm) ?_
        h.cached ?_
      · dsimp only
        rw [hfree]
        exact Ok.done
      · exact (h.covered q).mono (List.subset_cons_self _ _)
      · intro y hy
        rcases List.mem_cons.mp hy with rfl | hy
        · exact h.refs p y hx
        · exact h.refs q y hy
      · intro r y _ hl hy
        rcases List.mem_cons.mp hy with rfl | hy
        · exact hl.2.2 p hx
        · exact hl.2.2 q hy
    | _ => cases hs

/-- `sfs_sync` does not wait for an inode on which `sfs_create`, `sfs_mkdir`, `sfs_unlink` or
`sfs_rename` is at work. -/
def SyncClear (s : State n) : Prop :=
  ∀ p q x k, (s.proc p).op = .sync → (s.proc p).code = .down (.sin x) k →
    .sin x ∈ (s.proc q).held → (s.proc q).op.kind = .outer

/-- The place in the order of a process that waits: whoever it waits for is either further on
or does not wait. -/
def rank (held : List Sem) : Sem → ℕ
  | .mutex => 0
  | .sin _ =>
    if .fs ∈ held then 5 else if held = [] then 1 else if held = [.mutex] then 2 else 3
  | .fs => 4
  | .io => 6

theorem rank_sin (held : List Sem) (x : Node) : rank held (.sin x) =
    if .fs ∈ held then 5 else if held = [] then 1 else if held = [.mutex] then 2 else 3 := rfl

theorem Op.kind_sync {op : Op} (h : op.kind = .sync) : op = .sync := by
  cases op with
  | sync => rfl
  | _ => cases h

section Waiting

variable {kind : Kind} {held : List Sem} {mine : List Node} {life : Life} {m : Sem}

/-- A process that has an inode semaphore and waits for another semaphore is past the place of
those that have none or only `mutex_sem`. -/
theorem May.three_le_rank {x : Node} (h : May kind held mine life m) (hx : .sin x ∈ held) :
    3 ≤ rank held m := by
  have hne : held ≠ [] := List.ne_nil_of_mem hx
  cases m with
  | mutex => exact absurd h hne
  | fs => exact Nat.le_succ 3
  | io => exact Nat.le_of_ble_eq_true rfl
  | sin z =>
    have hmutex : held ≠ [.mutex] := by
      intro he
      rw [he] at hx
      simp at hx
    rw [rank_sin, if_neg hne, if_neg hmutex]
    split
    · exact Nat.le_of_ble_eq_true rfl
    · exact Nat.le_refl 3

/-- Without `mutex_sem` it does not wait for a second inode semaphore. -/
theorem May.four_le_rank {x : Node} (h : May kind held mine life m) (hx : .sin x ∈ held)
    (hm : .mutex ∉ held) : 4 ≤ rank held m := by
  have hne : held ≠ [] := List.ne_nil_of_mem hx
  cases m with
  | mutex => exact absurd h hne
  | fs => exact Nat.le_refl 4
  | io => exact Nat.le_of_ble_eq_true rfl
  | sin z =>
    have hfs : .fs ∈ held := by
      rcases h with ⟨hk, -⟩ | ⟨hk, -⟩ | ⟨y, hk, -⟩ | ⟨hk, -⟩ | ⟨hk, -⟩
      · exact absurd hk hne
      · rw [hk] at hm
        simp at hm
      · rw [hk] at hm
        simp at hm
      · exact hk
      · rw [hk]
        exact List.mem_cons_self
    rw [rank_sin, if_pos hfs]
    exact Nat.le_succ 4

theorem May.rank_of_mutex (h : May kind held mine life m) (hm : .mutex ∈ held) :
    0 < rank held m := by
  cases m with
  | mutex => exact absurd h (List.ne_nil_of_mem hm)
  | fs => exact Nat.succ_pos 3
  | io => exact Nat.succ_pos 5
  | sin z =>
    rw [rank_sin]
    split_ifs <;> decide

theorem May.rank_of_fs (h : May kind held mine life m) (hm : .fs ∈ held) : 5 ≤ rank held m := by
  cases m with
  | mutex => exact absurd h (List.ne_nil_of_mem hm)
  | fs => exact absurd hm h.1
  | io => exact Nat.le_succ 5
  | sin z =>
    have hrank : rank held (.sin z) = 5 := by
      rw [rank_sin, if_pos hm]
    exact Nat.le_of_eq hrank.symm

theorem May.not_io (h : May kind held mine life m) : .io ∉ held := by
  cases m with
  | mutex =>
    rw [show held = [] from h]
    exact List.not_mem_nil
  | fs => exact h.2.1
  | io => exact h
  | sin z => exact h.io_not_mem

/-- An operation that takes `fs_sem` with no other semaphore waits only for `io_sem` while it
has an inode semaphore. -/
theorem May.rank_of_outer {x : Node} (h : May .outer held mine life m) (hx : .sin x ∈ held)
    (hfs : .fs ∉ held) : rank held m = 6 := by
  have hne : held ≠ [] := List.ne_nil_of_mem hx
  cases m with
  | mutex => exact absurd h hne
  | fs =>
    rcases h.2.2 with hk | hk
    · cases hk
    · exact absurd hk hne
  | io => rfl
  | sin z =>
    rcases h with ⟨hk, -⟩ | ⟨-, hk, -⟩ | ⟨y, -, hk, -⟩ | ⟨hk, -⟩ | ⟨-, hk⟩
    · exact absurd hk hne
    · cases hk
    · cases hk
    · exact absurd hk hfs
    · cases hk

end Waiting

theorem rank_lt {s : State n} (h : Inv s) (hsync : SyncClear s) {p q : Fin n} {m m' : Sem}
    {k k' : Code} (hp : (s.proc p).code = .down m k) (hpq : m ∈ (s.proc q).held)
    (hq : (s.proc q).code = .down m' k') : rank (s.proc p).held m < rank (s.proc q).held m' := by
  obtain ⟨life, hokp, hlifep⟩ := h.proc p
  obtain ⟨life', hokq, -⟩ := h.proc q
  rw [hp] at hokp
  rw [hq] at hokq
  have hmayp := hokp.1
  have hmayq := hokq.1
  cases m with
  | mutex => exact hmayq.rank_of_mutex hpq
  | fs => exact Nat.lt_of_lt_of_le (by decide : 4 < 5) (hmayq.rank_of_fs hpq)
  | io => exact absurd hpq hmayq.not_io
  | sin x =>
    have h3 := hmayq.three_le_rank hpq
    rcases hmayp with ⟨hheld, -⟩ | ⟨hheld, -⟩ | ⟨y, hheld, -, hne, -⟩ | ⟨hfs, -, hnot, rfl⟩ |
      ⟨hheld, hkind⟩
    · rw [hheld, rank_sin, if_neg (by simp), if_pos rfl]
      omega
    · rw [hheld, rank_sin, if_neg (by simp), if_neg (by simp), if_pos rfl]
      omega
    · -- `p` has `mutex_sem`, so `q` is not the one that takes a second inode semaphore
      have hmutex : .mutex ∉ (s.proc q).held := by
        intro hmq
        rw [h.excl q p .mutex hmq (by rw [hheld]; simp), hheld] at hpq
        have hxy : x = y := by simpa using hpq
        exact hne hxy.symm
      have h4 := hmayq.four_le_rank hpq hmutex
      rw [hheld, rank_sin, if_neg (by simp), if_neg (by simp), if_neg (by simp)]
      omega
    · -- nobody has the semaphore of an unreferenced inode, except under `fs_sem`
      rcases h.covered q x hpq with hx | hfsq
      · exact absurd hx (hlifep.2.2 q)
      · rw [h.excl q p .fs hfsq hfs] at hpq
        exact absurd hpq hnot
    · have hfsq : .fs ∉ (s.proc q).held := by
        intro hfsq
        have hpfs : .fs ∈ (s.proc p).held := by rw [hheld]; exact List.mem_cons_self
        rw [h.excl q p .fs hfsq hpfs, hheld] at hpq
        simp at hpq
      rw [hsync p q x k (Op.kind_sync hkind) hp hpq] at hmayq
      rw [hmayq.rank_of_outer hpq hfsq, hheld, rank_sin, if_pos List.mem_cons_self]
      decide

/-- A chain of waits leads to a higher rank. -/
theorem rank_lt_of_chain {s : State n} (h : Inv s) (hsync : SyncClear s) {p q : Fin n}
    (hpq : Relation.TransGen s.Waits p q) : ∀ m k m' k', (s.proc p).code = .down m k →
      (s.proc q).code = .down m' k' → rank (s.proc p).held m < rank (s.proc q).held m' := by
  induction hpq with
  | single hw =>
    intro m k m' k' hp hq
    obtain ⟨m₀, k₀, hp₀, hm⟩ := hw
    rw [hp] at hp₀
    cases hp₀
    exact rank_lt h hsync hp hm hq
  | tail _ hw ih =>
    intro m k m' k' hp hq
    obtain ⟨m₀, k₀, hp₀, hm⟩ := hw
    exact Nat.lt_trans (ih m k m₀ k₀ hp hp₀) (rank_lt h hsync hp₀ hm hq)

/-- A run in which the directory structure is a tree and `P` holds in every state. -/
inductive Run (P : State n → Prop) : State n → State n → Prop where
  | refl {s : State n} (htree : s.fs.Tree) (hP : P s) : Run P s s
  | tail {s t u : State n} {a : Act n} (hr : Run P s t) (hs : t.act a = some u)
      (htree : u.fs.Tree) (hP : P u) : Run P s u

theorem Run.last {P : State n → Prop} {s t : State n} (h : Run P s t) : t.fs.Tree ∧ P t := by
  cases h with
  | refl htree hP => exact ⟨htree, hP⟩
  | tail _ _ htree hP => exact ⟨htree, hP⟩

theorem Run.inv {P : State n → Prop} {s t : State n} (h : Run P s t) (hs : Inv s) : Inv t := by
  induction h with
  | refl => exact hs
  | tail hr ha _ _ ih => exact ih.act hr.last.1 ha

/-- **No circular wait.** From any state in which no operation runs, for any number of
processes and any interleaving on a tree-shaped directory structure: as long as `sfs_sync` does
not wait for an inode on which `sfs_create`, `sfs_mkdir`, `sfs_unlink` or `sfs_rename` is at
work, no processes wait for each other in a cycle. -/
theorem lock_order_acyclic {s₀ s : State n} (h₀ : s₀.Quiescent) (hr : Run SyncClear s₀ s) :
    ∀ p, ¬ Relation.TransGen s.Waits p p := by
  intro p hp
  have hinv : Inv s := hr.inv h₀.inv
  obtain ⟨q, ⟨m, k, hcode, -⟩, -⟩ := Relation.TransGen.head'_iff.mp hp
  exact Nat.lt_irrefl _ (rank_lt_of_chain hinv hr.last.2 hp m k m k hcode hcode)

/-! ## Two processes on a root directory with one file -/

def demoRoot : Node := ⟨0, 1⟩

/-- The root directory, with a file that has just been created in it. -/
def demoFs : Fs where
  entries d := if d = 1 then [("a", 5)] else []
  parent _ := 1
  isDir d := d = 1
  nlinks d := if d = 1 then 2 else 1
  used _ := true
  cache := [demoRoot]
  dirty x := x = demoRoot
  removed _ := false

def demo : State 2 where
  fs := demoFs
  next := 1
  proc _ := ⟨.fsync demoRoot, .done, [], [demoRoot]⟩

theorem demo_quiescent : demo.Quiescent :=
  ⟨fun _ => rfl, fun _ => rfl, by simp [demo, demoFs, demoRoot], by simp [demo, demoRoot]⟩

theorem demoFs_entries {a b : ℕ} {name : String} (h : (name, b) ∈ demoFs.entries a) :
    a = 1 ∧ b = 5 ∧ name = "a" := by
  unfold demoFs at h
  dsimp only at h
  split at h
  · simp_all
  · cases h

theorem demoFs_tree : demoFs.Tree := by
  refine ⟨fun d hd => ?_, fun a b c e f _ ha hb => ?_⟩
  · obtain ⟨c, ⟨e, he⟩, hc⟩ := Relation.TransGen.head'_iff.mp hd
    obtain ⟨rfl, rfl, -⟩ := demoFs_entries he
    rcases Relation.ReflTransGen.cases_head hc with h | ⟨c, ⟨f, hf⟩, -⟩
    · cases h
    · cases (demoFs_entries hf).1
  · obtain ⟨rfl, -, rfl⟩ := demoFs_entries ha
    obtain ⟨rfl, -, rfl⟩ := demoFs_entries hb
    exact ⟨rfl, rfl⟩

/-- `sfs_create` of the existing file waits for `fs_sem` with the root locked, `sfs_sync` waits
for the dirty root with `fs_sem`. -/
theorem lock_order_sync_create : ∃ s₀ s : State 2, s₀.Quiescent ∧ Run (fun _ => True) s₀ s ∧
    Relation.TransGen s.Waits 0 0 := by
  have h := Run.refl (P := fun _ => True) (s := demo) demoFs_tree trivial
  have h := h.tail (a := .start 0 (.create demoRoot "a" false)) rfl demoFs_tree trivial
  have h := h.tail (a := .run 0 0) rfl demoFs_tree trivial
  have h := h.tail (a := .run 0 0) rfl demoFs_tree trivial
  have h := h.tail (a := .run 0 0) rfl demoFs_tree trivial
  have h := h.tail (a := .run 0 0) rfl demoFs_tree trivial
  have h := h.tail (a := .run 0 0) rfl demoFs_tree trivial
  have h := h.tail (a := .run 0 0) rfl demoFs_tree trivial
  have h := h.tail (a := .start 1 .sync) rfl demoFs_tree trivial
  have h := h.tail (a := .run 1 0) rfl demoFs_tree trivial
  have h := h.tail (a := .run 1 0) rfl demoFs_tree trivial
  have h := h.tail (a := .run 1 0) rfl demoFs_tree trivial
  have h := h.tail (a := .run 1 0) rfl demoFs_tree trivial
  refine ⟨demo, _, demo_quiescent, h, .tail (.single (b := 1) ?_) ?_⟩
  · exact ⟨.fs, _, rfl, List.mem_cons_self⟩
  · exact ⟨.sin demoRoot, _, rfl, List.mem_cons_self⟩

/-- Two calls of `sfs_create` in one directory: the second waits for the first, and that is
all. -/
theorem lock_order_acyclic_two_creates : ∃ s : State 2, Run SyncClear demo s ∧ s.Waits 1 0 ∧
    ∀ p, ¬ Relation.TransGen s.Waits p p := by
  have hclear : ∀ s : State 2, (s.proc 0).op ≠ .sync → (s.proc 1).op ≠ .sync → SyncClear s := by
    intro s h₀ h₁ p q x k hop
    match p with
    | 0 => exact absurd hop h₀
    | 1 => exact absurd hop h₁
  have h := Run.refl (P := SyncClear) (s := demo) demoFs_tree (hclear _ nofun nofun)
  have h := h.tail (a := .start 0 (.create demoRoot "a" false)) rfl demoFs_tree
    (hclear _ nofun nofun)
  have h := h.tail (a := .run 0 0) rfl demoFs_tree (hclear _ nofun nofun)
  have h := h.tail (a := .run 0 0) rfl demoFs_tree (hclear _ nofun nofun)
  have h := h.tail (a := .start 1 (.create demoRoot "b" true)) rfl demoFs_tree
    (hclear _ nofun nofun)
  have h := h.tail (a := .run 1 0) rfl demoFs_tree (hclear _ nofun nofun)
  exact ⟨_, h, ⟨.sin demoRoot, _, rfl, List.mem_cons_self⟩,
    lock_order_acyclic demo_quiescent h⟩

end Ucore.Locks
