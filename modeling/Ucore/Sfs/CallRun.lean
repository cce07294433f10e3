import Ucore.Sfs.Call

/-!
# The file system simulates the tree

* `Run` — calls on the mounted volume, one after the other, with their replies.
* `Acts` — the same on the abstract file system.
* `Run.simulates` — by induction on the run, from `exec_does` and `Does.whole`.
-/

namespace Ucore.Sfs

open Sfs.Tree

/-- Every block as the inode that it would be. -/
def Fs.nodes (fs : Fs) : Tree := fun i => some (fs.node i)

namespace Call

/-- What the callers promise. -/
structure Ok (t : Tree) (k : Call) : Prop where
  held : k.Held t
  fits : k.Fits t

end Call

/-- Calls with their replies. -/
abbrev Log := List (Call × Except Err Reply)

/-- A run of the file system.  If not `X`, no attempt to make a file longer fails in it for lack of blocks. -/
inductive Run (P : Tree → Call → Prop) (X : Prop) : Fs → Log → Fs → Prop where
  | nil (fs : Fs) : Run P X fs [] fs
  | cons {fs fs₁ fs' : Fs} {k : Call} {r : Except Err Reply} {l : Log} (hexec : k.exec fs = some (r, fs₁))
      (hok : P fs.nodes k) (hX : k.Lacks r → X) (hrun : Run P X fs₁ l fs') : Run P X fs ((k, r) :: l) fs'

/-- A run of the abstract file system. -/
inductive Acts (X : Prop) : Tree → Contents → Log → Tree → Contents → Prop where
  | nil (t : Tree) (c : Contents) : Acts X t c [] t c
  | cons {t t₁ t' : Tree} {c c₁ c' : Contents} {k : Call} {r : Except Err Reply} {l : Log}
      (hdoes : Does t c X k r t₁ c₁) (hacts : Acts X t₁ c₁ l t' c') : Acts X t c ((k, r) :: l) t' c'

section Nodes

variable {fs : Fs} {t : Tree} {c : Contents} {X : Prop} {k : Call}

theorem Stores.le_nodes (h : Stores fs t c X) {i : ℕ} {n : Node} (hn : t i = some n) : fs.nodes i = some n :=
  congrArg some (h.node i n hn)

theorem Stores.ent_nodes (h : Stores fs t c X) {p : ℕ × ℕ} {e : ℕ × Name} (he : t.ent p = some e) :
    fs.nodes.ent p = some e := by
  unfold ent at he ⊢
  obtain ⟨n, hn, hj⟩ := Option.bind_eq_some_iff.mp he
  exact Option.bind_eq_some_iff.mpr ⟨n, h.le_nodes hn, hj⟩

theorem Stores.isDir_nodes (h : Stores fs t c X) {i : ℕ} (hi : t.isDir i) : fs.nodes.isDir i := by
  obtain ⟨n, hn, hdir⟩ := hi
  exact ⟨n, h.le_nodes hn, hdir⟩

/-- A node that somebody holds is one of the tree: it is cached. -/
theorem Stores.held_nodes (h : Stores fs t c X) {i : ℕ} (hi : fs.nodes.Held i) : t.Held i := by
  obtain ⟨n, hn, href⟩ := hi
  cases hn
  cases hc : fs.cache i with
  | none =>
    unfold Fs.node Fs.view at href
    rw [hc] at href
    exact absurd href (Nat.lt_irrefl 0)
  | some s =>
    rw [Fs.node_cached hc] at href
    exact ⟨_, h.node_of hc, href⟩

theorem Call.Held.of_nodes (h : Stores fs t c X) (hk : k.Held fs.nodes) : k.Held t := by
  cases k with
  | act a =>
    cases a with
    | create | mkdir | unlink | lookup | drop => exact h.held_nodes hk
    | link d nm i => exact ⟨h.held_nodes hk.1, h.held_nodes hk.2⟩
    | rename d nm d' nm' =>
      obtain ⟨n, hn, href⟩ := h.held_nodes hk.2.1
      obtain ⟨m, hm, hdir⟩ := hk.2.2
      rw [h.le_nodes hn] at hm
      cases hm
      exact ⟨h.held_nodes hk.1, ⟨n, hn, href⟩, n, hn, hdir⟩
    | root => exact trivial
  | write | read | seek | empty | fsync => exact h.held_nodes hk
  | sync => exact trivial

theorem Call.Fits.of_nodes (h : Stores fs t c X) (hk : k.Fits fs.nodes) : k.Fits t := by
  cases k with
  | act a =>
    cases a with
    | mkdir d nm => exact fun n hn => hk n (h.le_nodes hn)
    | link d nm i => exact fun n hn => hk n (h.le_nodes hn)
    | rename d nm d' nm' =>
      intro hne j i n he hi hn
      exact hk hne j i n (h.ent_nodes he) (h.isDir_nodes hi) (h.le_nodes hn)
    | lookup d nm => exact fun hdots n hn => hk hdots n (h.le_nodes hn)
    | _ => exact trivial
  | write i buf offset len => exact fun n hn hf => hk n (h.le_nodes hn) hf
  | _ => exact trivial

theorem Call.Ok.of_nodes (h : Stores fs t c X) (hk : k.Ok fs.nodes) : k.Ok t :=
  ⟨hk.held.of_nodes h, hk.fits.of_nodes h⟩

end Nodes

section Simulation

variable {P P' : Tree → Call → Prop} {fs fs' : Fs} {t : Tree} {c : Contents} {X : Prop} {l : Log}

theorem Run.mono (hP : ∀ t k, P t k → P' t k) (h : Run P X fs l fs') : Run P' X fs l fs' := by
  induction h with
  | nil fs => exact .nil fs
  | cons hexec hok hX hrun ih => exact .cons hexec (hP _ _ hok) hX ih

/-- One call: the file system and the tree go together. -/
theorem step_simulates (h : Stores fs t c X) (hw : Whole t c X) {k : Call} {r : Except Err Reply}
    (hexec : k.exec fs = some (r, fs')) (hok : k.Ok fs.nodes) (hX : k.Lacks r → X) :
    ∃ t' c', Does t c X k r t' c' ∧ Stores fs' t' c' X ∧ Whole t' c' X := by
  have hok' := hok.of_nodes h
  obtain ⟨t', c', hdoes, hst⟩ := Op.wpx_elim (exec_does h hw hok'.held hok'.fits) hexec hX
  exact ⟨t', c', hdoes, hst, hdoes.whole hw hok'.fits fun hx i n hn hf => (hst.data i n hn hf).2 hx⟩

/-- Every run of the file system is a run of the tree with the same calls and the same replies. -/
theorem Run.simulates (hrun : Run Call.Ok X fs l fs') : ∀ {t : Tree} {c : Contents}, Stores fs t c X →
    Whole t c X → ∃ t' c', Acts X t c l t' c' ∧ Stores fs' t' c' X ∧ Whole t' c' X := by
  induction hrun with
  | nil fs => exact fun {t c} h hw => ⟨t, c, .nil t c, h, hw⟩
  | cons hexec hok hX hrun ih =>
    intro t c h hw
    obtain ⟨t₁, c₁, hdoes, h₁, hw₁⟩ := step_simulates h hw hexec hok hX
    obtain ⟨t', c', hacts, h', hw'⟩ := ih h₁ hw₁
    exact ⟨t', c', .cons hdoes hacts, h', hw'⟩

end Simulation

/-! ## Calls whose promises are checked -/

section Calls

variable {fs fs' : Fs}

namespace Call

/-- The call moves no directory. -/
def Stays : Call → Prop
  | act (.rename ..) => False
  | _ => True

/-- The promises, for the calls that are asked about. -/
def check (fs : Fs) : Call → Bool
  | act (.create d _ _) => 0 < (fs.node d).ref
  | act (.mkdir d _) => 0 < (fs.node d).ref && (fs.node d).nlinks < 65535
  | act (.link d _ i) => 0 < (fs.node d).ref && (0 < (fs.node i).ref && (fs.node i).nlinks < 65535)
  | act (.unlink d _) => 0 < (fs.node d).ref
  | act (.lookup d nm) => 0 < (fs.node d).ref && nm ≠ DOTDOT
  | act (.drop i) => 0 < (fs.node i).ref
  | write i _ offset _ => 0 < (fs.node i).ref && offset ≤ (fs.node i).info
  | read i _ _ _ => 0 < (fs.node i).ref
  | fsync i => 0 < (fs.node i).ref
  | sync => true
  | _ => false

theorem ok_of_check {k : Call} (h : k.check fs = true) : k.Ok fs.nodes ∧ k.Stays ∧ ∀ r, ¬ k.Lacks r := by
  have hheld : ∀ {i}, 0 < (fs.node i).ref → fs.nodes.Held i := fun hi => ⟨_, rfl, hi⟩
  cases k with
  | act a =>
    cases a with
    | create | unlink | drop => exact ⟨⟨hheld (of_decide_eq_true h), trivial⟩, trivial, nofun⟩
    | mkdir d nm =>
      obtain ⟨href, hlt⟩ := Bool.and_eq_true_iff.mp h
      refine ⟨⟨hheld (of_decide_eq_true href), fun n hn => ?_⟩, trivial, nofun⟩
      cases hn
      exact of_decide_eq_true hlt
    | lookup d nm =>
      obtain ⟨href, hne⟩ := Bool.and_eq_true_iff.mp h
      exact ⟨⟨hheld (of_decide_eq_true href), fun hdots => absurd hdots (of_decide_eq_true hne)⟩, trivial, nofun⟩
    | link d nm i =>
      obtain ⟨href, h⟩ := Bool.and_eq_true_iff.mp h
      obtain ⟨href', hlt⟩ := Bool.and_eq_true_iff.mp h
      refine ⟨⟨⟨hheld (of_decide_eq_true href), hheld (of_decide_eq_true href')⟩, fun n hn => ?_⟩, trivial, nofun⟩
      cases hn
      exact of_decide_eq_true hlt
    | rename | root => cases h
  | write i buf offset len =>
    obtain ⟨href, hle⟩ := Bool.and_eq_true_iff.mp h
    refine ⟨⟨hheld (of_decide_eq_true href), fun n hn _ => ?_⟩, trivial, nofun⟩
    cases hn
    exact of_decide_eq_true hle
  | read | fsync => exact ⟨⟨hheld (of_decide_eq_true h), trivial⟩, trivial, nofun⟩
  | sync => exact ⟨⟨trivial, trivial⟩, trivial, nofun⟩
  | seek | empty => cases h

end Call

/-- The state after some calls. -/
def Call.after : List Call → Fs → Fs
  | [], fs => fs
  | k :: ks, fs => Call.after ks (((k.exec fs).map Prod.snd).getD fs)

/-- Every call keeps its promises, and returns. -/
def Call.checkAll : List Call → Fs → Bool
  | [], _ => true
  | k :: ks, fs => k.check fs && (k.exec fs).isSome && Call.checkAll ks (((k.exec fs).map Prod.snd).getD fs)

theorem run_after : ∀ (ks : List Call) (fs : Fs), Call.checkAll ks fs = true →
    ∃ l, Run (fun t k => k.Ok t ∧ k.Stays) False fs l (Call.after ks fs)
  | [], fs, _ => ⟨[], .nil fs⟩
  | k :: ks, fs, h => by
    obtain ⟨h, hrest⟩ := Bool.and_eq_true_iff.mp h
    obtain ⟨hk, hsome⟩ := Bool.and_eq_true_iff.mp h
    obtain ⟨l, hrun⟩ := run_after ks _ hrest
    obtain ⟨hok, hstays, hlacks⟩ := Call.ok_of_check hk
    obtain ⟨⟨r, fs₁⟩, hexec⟩ := Option.isSome_iff_exists.mp hsome
    rw [hexec] at hrun
    refine ⟨(k, r) :: l, .cons hexec ⟨hok, hstays⟩ (fun hX => hlacks r hX) ?_⟩
    unfold Call.after
    rwa [hexec]

/-- Beside directory `a` a file `f` is made, which is then `g`, too, and `f` no more. -/
def holeCalls : List Call :=
  [.act (.create SFS_BLKN_ROOT ⟨[102], by decide⟩ true), .act (.link SFS_BLKN_ROOT ⟨[103], by decide⟩ 5),
    .act (.unlink SFS_BLKN_ROOT ⟨[102], by decide⟩)]

/-- A hole is where `f` was, and one block is left. -/
def holeFs : Fs := Call.after holeCalls (dirFs dirName)

theorem holeFs_run : ∃ l, Run (fun t k => k.Ok t ∧ k.Stays) False (dirFs dirName) l holeFs :=
  run_after _ _ (by decide +kernel)

theorem dirFs_whole : ∃ c, Stores (dirFs dirName) (dirTree dirName) c False ∧ Whole (dirTree dirName) c False := by
  have hone : ∀ {α : Type} {s : Set α} (a : α), (∀ b ∈ s, b = a) → s.ncard ≤ 1 := fun a ha =>
    (Set.ncard_le_ncard (fun b hb => ha b hb) (Set.finite_singleton a)).trans_eq (Set.ncard_singleton a)
  refine ⟨_, (dirFs_refines (by decide)).stores, dirTree_sound dirName, fun i => ?_, fun i n hn hf => ?_⟩
  · have hnames : (dirTree dirName).names i ≤ 1 := hone (SFS_BLKN_ROOT, 0) fun p ⟨nm, he⟩ => (dirTree_ent_some he).1
    have hsubs : (dirTree dirName).subs i ≤ 1 := hone 0 fun j ⟨k, nm, he, _⟩ =>
      congrArg Prod.snd (dirTree_ent_some he).1
    unfold Tree.total Tree.own
    split <;> try split
    all_goals omega
  · have hne : SFS_TYPE_DIR ≠ SFS_TYPE_FILE := by decide
    rcases dirTree_some hn with ⟨-, rfl⟩ | ⟨-, rfl⟩ <;> exact absurd hf hne

end Calls

end Ucore.Sfs
