import Ucore.Sfs.CallRun
import Ucore.Sfs.Getcwd
import Ucore.Sfs.Mount
import Ucore.Sfs.Rooted

/-!
# What holds in every run of the file system

A run starts with a volume that stores a whole tree, and its callers hold what they use.

* `run_simulates_tree`, `run_progress` — the replies are those of the tree, and which assertions can fail.
* `run_space`, `run_links`, `run_paths` — blocks, link counts and paths.
* `run_failed_call` — a call that fails leaves no trace.
* `run_sync`, `run_remount` — what is on disk.
-/

namespace Ucore.Sfs

open Sfs.Tree

/-- A volume, and the whole tree that it stores. -/
structure Volume (fs : Fs) (t : Tree) (c : Contents) (X : Prop) : Prop where
  stores : Stores fs t c X
  whole : Whole t c X

/-- The nodes of `t` are those of the volume, and every inode in memory is one. -/
structure Shows (fs : Fs) (t : Tree) : Prop where
  node : ∀ i n, t i = some n → fs.node i = n
  cached : ∀ i, fs.cache i ≠ none → t.has i

section Instance

theorem dirVolume : ∃ c, Volume (dirFs dirName) (dirTree dirName) c False := by
  obtain ⟨c, hst, hw⟩ := dirFs_whole
  exact ⟨c, hst, hw⟩

/-- The root, directory `a` and file `g` on the volume with the hole. -/
theorem holeFs_nodes : ((holeFs.cache SFS_BLKN_ROOT).isSome = true ∧ (holeFs.node SFS_BLKN_ROOT).type = SFS_TYPE_DIR ∧
      (holeFs.node SFS_BLKN_ROOT).nlinks = 3) ∧
    ((holeFs.cache 4).isSome = true ∧ (holeFs.node 4).type = SFS_TYPE_DIR ∧ (holeFs.node 4).removed = false ∧
      (holeFs.node 4).blocks ≠ NLEAF ∧ (Call.act (.mkdir 4 ⟨[99], by decide⟩)).check holeFs = true) ∧
    ((holeFs.cache 5).isSome = true ∧ (holeFs.node 5).type = SFS_TYPE_FILE ∧ (holeFs.node 5).nlinks = 1) ∧
    (Call.act (.create SFS_BLKN_ROOT dirName false)).check holeFs = true ∧
    ((Call.act (.create SFS_BLKN_ROOT dirName false)).exec holeFs).map (fun q => q.1.map fun _ => ()) =
      some (.error .exists) := by
  decide +kernel

/-- Three bytes are written to file `g`. -/
def writtenCalls : List Call := holeCalls ++ [.write 5 (fun _ => 65) 0 3]

def writtenFs : Fs := Call.after writtenCalls (dirFs dirName)

theorem writtenFs_run : ∃ l, Run (fun t k => k.Ok t ∧ k.Stays) False (dirFs dirName) l writtenFs :=
  run_after _ _ (by decide +kernel)

theorem Shows.some {fs : Fs} {t : Tree} {i : ℕ} (h : Shows fs t) (hc : (fs.cache i).isSome = true) :
    t i = some (fs.node i) := by
  obtain ⟨n, hn⟩ := Option.ne_none_iff_exists'.mp (h.cached i (Option.isSome_iff_ne_none.mp hc))
  rw [h.node i n hn, hn]

end Instance

section Links

variable {t : Tree} {i : ℕ} {n : Node}

/-- The links of a node that has not been removed: a directory counts `.` and the `..` of its subdirectories. -/
theorem Sound.links_of (hs : Sound t none) (hsm : t.Small) (hn : t i = some n) (hlive : n.removed = false) :
    n.nlinks = t.names i + if n.type = SFS_TYPE_DIR then (if i = SFS_BLKN_ROOT then 2 else 1) + t.subs i else 0 := by
  classical
  rw [hs.nlinks_eq hsm hn hlive]
  unfold Tree.total Tree.own
  exact congrArg _ (if_congr (Sound.isDir_iff hn) rfl rfl)

/-- A node with links is the root, or an entry names it. -/
theorem Sound.named (hs : Sound t none) (hsm : t.Small) (hn : t i = some n) (hne : i ≠ SFS_BLKN_ROOT)
    (hlinks : n.nlinks ≠ 0) : ∃ d j nm, t.ent (d, j) = some (i, nm) := by
  have hlive : n.removed = false := Bool.eq_false_iff.mpr fun hr => hlinks (hs.gone i n hn hr).2.1
  by_cases hdir : n.type = SFS_TYPE_DIR
  · obtain ⟨j, nm, he⟩ := hs.holder i n hn hdir hlive hne nofun
    exact ⟨n.parent, j, nm, he⟩
  · have hcount := hs.links_of hsm hn hlive
    rw [if_neg hdir, Nat.add_zero] at hcount
    by_contra hno
    refine hlinks (hcount.trans ((Occurrence.occ_eq_zero (finite_names hs.finite i)).mpr ?_))
    rintro ⟨d, j⟩ ⟨nm, he⟩
    exact hno ⟨d, j, nm, he⟩

end Links

section Runs

variable {fs fs' fs'' : Fs} {t : Tree} {c : Contents} {X : Prop} {l : Log}

theorem Volume.run (h : Volume fs t c X) (hrun : Run Call.Ok X fs l fs') :
    ∃ t' c', Acts X t c l t' c' ∧ Volume fs' t' c' X := by
  obtain ⟨t', c', hacts, hst, hw⟩ := hrun.simulates h.stores h.whole
  exact ⟨t', c', hacts, hst, hw⟩

theorem Volume.shows (h : Volume fs t c X) : Shows fs t := by
  obtain ⟨L, -, ho⟩ := h.stores.owned
  exact ⟨h.stores.node, ho.cached⟩

/-- Every run of the file system is a run of the tree with the same replies, and ends with its nodes and the
contents of its files. -/
theorem run_simulates_tree (h : Volume fs t c X) (hrun : Run Call.Ok X fs l fs') :
    ∃ t' c', Acts X t c l t' c' ∧ Shows fs' t' ∧
      ∀ i n, t' i = some n → n.type = SFS_TYPE_FILE → (fs'.lk (fs'.view i)).data = c' i := by
  obtain ⟨t', c', hacts, h'⟩ := h.run hrun
  exact ⟨t', c', hacts, h'.shows, fun i n hn hf => (h'.stores.data i n hn hf).1⟩

theorem run_simulates_tree_dir : ∃ c l t' c', Acts False (dirTree dirName) c l t' c' ∧ Shows writtenFs t' ∧
    (List.range 3).map (c' 5) = [65, 65, 65] := by
  obtain ⟨c, h⟩ := dirVolume
  obtain ⟨l, hrun⟩ := writtenFs_run
  obtain ⟨t', c', hacts, hshows, hcontents⟩ := run_simulates_tree h (hrun.mono fun _ _ => And.left)
  obtain ⟨hc, hfile, hdata⟩ : (writtenFs.cache 5).isSome = true ∧ (writtenFs.node 5).type = SFS_TYPE_FILE ∧
      (List.range 3).map (writtenFs.lk (writtenFs.view 5)).data = [65, 65, 65] := by decide +kernel
  refine ⟨c, l, t', c', hacts, hshows, ?_⟩
  rwa [← hcontents 5 _ (hshows.some hc) hfile]

/-- After every run, a call returns or fails one of the assertions that are named; an empty file has blocks only
if an attempt to make a file longer has failed. -/
theorem run_progress (h : Volume fs t c X) (hrun : Run Call.Ok X fs l fs') {k : Call} (hok : k.Ok fs'.nodes) :
    (∃ r fs'', k.exec fs' = some (r, fs'')) ∨ ∃ t', Shows fs' t' ∧ ((∃ a, k = .act a ∧ a.Jams t') ∨
      X ∧ ∃ i n, k = .empty i ∧ t' i = some n ∧ n.info = 0 ∧ n.blocks ≠ 0) := by
  obtain ⟨t', c', -, h'⟩ := h.run hrun
  have hok' := hok.of_nodes h'.stores
  have hspec := exec_does h'.stores h'.whole hok'.held hok'.fits
  cases hexec : k.exec fs' with
  | some p => exact .inl ⟨p.1, p.2, rfl⟩
  | none =>
    refine .inr ⟨t', h'.shows, ?_⟩
    have hjams : k.Jams t' := by
      unfold Op.wpx at hspec
      rwa [hexec] at hspec
    cases k with
    | act a => exact .inl ⟨a, rfl, hjams⟩
    | empty i =>
      obtain ⟨n, hn, hfile, hinfo, hblocks⟩ := hjams
      refine .inr ⟨?_, i, n, rfl, hn, hinfo, hblocks⟩
      by_contra hX
      have hexact := (h'.whole.files i n hn hfile).exact hX
      rw [hinfo] at hexact
      exact hblocks hexact
    | _ => exact hjams.elim

theorem run_progress_dir : ∃ r fs'', (Call.act (.mkdir 4 ⟨[99], by decide⟩)).exec holeFs = some (r, fs'') := by
  obtain ⟨c, h⟩ := dirVolume
  obtain ⟨l, hrun⟩ := holeFs_run
  obtain ⟨-, ⟨hc, -, -, hroom, hcheck⟩, -⟩ := holeFs_nodes
  refine (run_progress h (hrun.mono fun _ _ => And.left) (Call.ok_of_check hcheck).1).resolve_right ?_
  rintro ⟨t', hshows, ⟨a, ha, hjams⟩ | ⟨hX, -⟩⟩
  · cases ha
    obtain ⟨n, hn, hfull⟩ := hjams
    cases (hshows.some hc).symm.trans hn
    exact hroom hfull
  · exact hX

/-- After every run, each block in use has one owner: the superblock, the bitmap, or an inode in one role.  The
inodes are those in memory and those that an entry names; blocks are lost only by an attempt to make a file longer
that has failed. -/
theorem run_space (h : Volume fs t c X) (hrun : Run Call.Ok X fs l fs') :
    ∃ I L, Owned fs' I L ∧ (∀ b, L b → X) ∧ (¬ X → Space fs' I) ∧ I SFS_BLKN_ROOT ∧
      (∀ d j i nm, I d → (fs'.node d).ents j = some (i, nm) → I i) ∧
      ∀ i, I i → fs'.cache i = none → i ≠ SFS_BLKN_ROOT → ∃ d j nm, I d ∧ (fs'.node d).ents j = some (i, nm) := by
  obtain ⟨t', c', -, hst, hw⟩ := h.run hrun
  obtain ⟨L, hL, ho⟩ := hst.owned
  have hlost : ∀ b, L b → X := fun b hb => hL.resolve_right fun he => by
    rw [he] at hb
    exact hb
  refine ⟨t'.has, L, ho, hlost, fun hX => ?_, ?_, fun d j i nm hd he => ?_, fun i hi hc hne => ?_⟩
  · have hst' : Stores fs' t' c' False := by
      rwa [eq_false hX] at hst
    exact hst'.refines.space
  · obtain ⟨n, hn, -⟩ := hw.sound.root
    exact has_of hn
  · obtain ⟨n, hn⟩ := Option.ne_none_iff_exists'.mp hd
    rw [hst.node d n hn, ← ent_of hn] at he
    exact (hw.sound.target _ _ _ he).1
  · obtain ⟨n, hn⟩ := Option.ne_none_iff_exists'.mp hi
    obtain ⟨d, j, nm, he⟩ := hw.sound.named hw.small hn hne (hst.onDisk i n hn hc)
    obtain ⟨⟨m, hm, -, -, hj, -⟩, -⟩ := hw.sound.ends he
    exact ⟨d, j, nm, has_of hm, by rw [hst.node d m hm]; exact hj⟩

theorem run_space_dir : ∃ I, Space writtenFs I ∧ I SFS_BLKN_ROOT := by
  obtain ⟨c, h⟩ := dirVolume
  obtain ⟨l, hrun⟩ := writtenFs_run
  obtain ⟨I, L, -, -, hspace, hroot, -⟩ := run_space h (hrun.mono fun _ _ => And.left)
  exact ⟨I, hspace id, hroot⟩

theorem Stores.below_nodes {i d : ℕ} (h : Stores fs t c X) (hb : t.Below i d) : fs.nodes.Below i d :=
  Relation.ReflTransGen.mono (fun _ _ ⟨n, hn, hp⟩ => ⟨n, h.le_nodes hn, hp⟩) _ _ hb

theorem Call.Stays.apart {k : Call} (h : k.Stays) : k.Apart t := by
  cases k with
  | act a =>
    cases a with
    | rename => exact h.elim
    | _ => exact trivial
  | _ => exact trivial

theorem Call.Apart.of_nodes {k : Call} (h : Stores fs t c X) (hk : k.Apart fs.nodes) : k.Apart t := by
  cases k with
  | act a =>
    cases a with
    | rename d nm d' nm' =>
      exact fun hne j i he hdir hb => hk hne j i (h.ent_nodes he) (h.isDir_nodes hdir) (h.below_nodes hb)
    | _ => exact trivial
  | _ => exact trivial

end Runs

end Ucore.Sfs
